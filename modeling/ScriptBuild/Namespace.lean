import ScriptBuild.Path.Name

/-!
# Namespaces and their files

A namespace is a dotted name. Its script lies in the file that has the
segments of the name as directories.
-/

namespace ScriptBuild.Namespace

/-- The name as it is spelled in files: hyphens become underscores. -/
def munge (ns : String) : String :=
  String.ofList (ns.toList.map fun c => if c = '-' then '_' else c)

/-- The file of a namespace, relative to a directory of scripts. -/
def scriptPath (ns : String) : Path :=
  (Path.ofSegments (Text.split '.' (munge ns))).withExtension "js"

end ScriptBuild.Namespace
