import ScriptBuild.FileTree.Files
import ScriptBuild.Options.Basic
import ScriptBuild.Toml.Document

/-!
# Options in files

Options are written as a TOML document, one key for each option and no others.
-/

namespace ScriptBuild.Options

open Toml (Value)

def string? : Value → Option String
  | .string s => some s
  | _ => none

def boolean? : Value → Option Bool
  | .boolean b => some b
  | _ => none

/-- A choice is written as a string, or as a table with one key, the choice, that
holds an empty table or an empty array. -/
def choice? : Value → Option String
  | .string s => some s
  | .table _ [(key, .table _ [])] => some key
  | .table _ [(key, .array [])] => some key
  | _ => none

def items? : Value → Option (List Value)
  | .array items => some items
  | .tables elements => some (elements.map (.table .header))
  | _ => none

def strings? (v : Value) : Option (List String) := do (← items? v).mapM string?

def set? (o : Options) (key : String) (v : Value) : Option Options :=
  if key = "output-dir" then do
    return { o with outputDir := ⟨← string? v⟩ }
  else if key = "output-to" then do
    return { o with outputTo := some (.ofText (← string? v)) }
  else if key = "output-file" then do
    return { o with outputFile := some ⟨← string? v⟩ }
  else if key = "optimizations" then do
    return { o with level := ← Level.ofName? (← choice? v) }
  else if key = "flags" then do
    let flags ← (← items? v).mapM fun item => do OutputFlag.ofName? (← choice? item)
    return { o with flags := .ofList flags }
  else if key = "externs" then do
    return { o with externs := (← strings? v).map Path.mk }
  else if key = "language-prefixes" then do
    return { o with languageRoots := ← strings? v }
  else if key = "strict-resolution" then do
    return { o with strict := ← boolean? v }
  else if key = "freshness" then do
    return { o with freshness := ← Freshness.ofName? (← choice? v) }
  else none

def ofEntries? (entries : Toml.Entries) : Option Options :=
  entries.foldlM (fun o (key, v) => set? o key v) {}

def parse (text : String) (file : Path) : Except BuildError Options :=
  match (Toml.Document.read? text).bind ofEntries? with
  | none => .error (.config file)
  | some o => do
    o.validate
    return o

def inlineFile : Path := ⟨"<inline>"⟩

def load [WorkingDirectory] (t : FileTree) (p : Path) : Except BuildError Options :=
  match t.readText p with
  | .error fault => .error (.file p fault)
  | .ok text => parse text p

end ScriptBuild.Options
