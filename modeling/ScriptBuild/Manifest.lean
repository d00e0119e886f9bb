import ScriptBuild.LoadOrder.Item
import ScriptBuild.Fault

/-!
# Dependency manifests

A manifest describes one script a line:
`addDependency("dom/dom.js", ['rt.dom'], ['rt.array', 'rt.string']);`. Blank
lines and lines that start with two slashes say nothing.
-/

namespace ScriptBuild.Manifest

open Text (skipBlanks pieces)

-- ---------------------------------------------------------------------------
-- Writing
-- ---------------------------------------------------------------------------

def quotedList (names : List String) : String :=
  Text.joinWith ", " (names.map fun name => "'" ++ name ++ "'")

def line (path : String) (provides requires : List String) : String :=
  "addDependency(\"" ++ path ++ "\", [" ++ quotedList provides ++ "], [" ++ quotedList requires ++
    "]);"

-- ---------------------------------------------------------------------------
-- Reading
-- ---------------------------------------------------------------------------

def bracketed? : List Char → Option (List Char × List Char)
  | [] => none
  | c :: cs =>
    if c = '[' then
      match cs.dropWhile (· ≠ ']') with
      | [] => none
      | _ :: rest => some (cs.takeWhile (· ≠ ']'), rest)
    else none

def afterComma? (cs : List Char) : Option (List Char) :=
  match skipBlanks cs with
  | [] => none
  | c :: rest => if c = ',' then some (skipBlanks rest) else none

/-- The file of an entry line and the insides of its two lists. -/
def entry? (line : List Char) : Option (String × List Char × List Char) := do
  let cs ← afterCall? "addDependency" line
  let (file, cs) ← quotedName? (skipBlanks cs)
  let cs ← afterComma? cs
  let (provides, cs) ← bracketed? cs
  let cs ← afterComma? cs
  let (requires, _) ← bracketed? cs
  return (file, provides, requires)

def listedNames (inside : List Char) : List String :=
  ((pieces ',' inside).map fun item =>
    String.ofList (Text.stripBy isQuote (Text.trimChars item))).filter (· ≠ "")

def dropSteps : List Char → List Char
  | '.' :: '.' :: '/' :: cs => dropSteps cs
  | cs => cs

def isVendored (vendored file : String) : Bool :=
  !vendored.isEmpty && vendored.toList.isPrefixOf (dropSteps file.toList)

def isSilent (line : List Char) : Bool := line.isEmpty || ['/', '/'].isPrefixOf line

/-- Reads lines, the first of which has the number `number`. Vendored files are left out. -/
def readLines (vendored : String) (number : Nat) :
    List (List Char) → Except BuildError (List Descriptor)
  | [] => .ok []
  | text :: lines =>
    let trimmed := Text.trimChars text
    if isSilent trimmed then readLines vendored (number + 1) lines
    else
      match entry? trimmed with
      | none =>
        .error (.manifestLine number
          ("expected addDependency(...), found `" ++ String.ofList trimmed ++ "`"))
      | some (file, provides, requires) =>
        match readLines vendored (number + 1) lines with
        | .error error => .error error
        | .ok ds =>
          if isVendored vendored file then .ok ds
          else .ok (⟨file, listedNames provides, listedNames requires⟩ :: ds)

def parse (text vendored : String) : Except BuildError (List Descriptor) :=
  readLines vendored 1 (pieces '\n' text.toList)

end ScriptBuild.Manifest
