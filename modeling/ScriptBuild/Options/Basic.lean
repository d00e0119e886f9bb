import ScriptBuild.Fault
import ScriptBuild.Text.Lowercase

/-!
# Build options

What a build is to produce and where. Options come from code, from a file or
from the environment; only `validate` judges them.
-/

namespace ScriptBuild

inductive Level
  | none
  | whitespace
  | simple
  | advanced
  deriving DecidableEq, Repr, Inhabited

namespace Level

def isEnabled (level : Level) : Bool := level != .none

def name : Level → String
  | .none => "none"
  | .whitespace => "whitespace"
  | .simple => "simple"
  | .advanced => "advanced"

def all : List Level := [.none, .whitespace, .simple, .advanced]

def ofName? (s : String) : Option Level := all.find? (·.name = s)

def parse (s : String) : Except BuildError Level :=
  let s := Text.lowercase (Text.trim s)
  match ofName? s with
  | some level => .ok level
  | _ =>
    .error (.invalidOption "optimizations"
      ("'" ++ s ++ "' is not one of none, whitespace, simple, advanced"))

theorem ofName?_name (level : Level) : ofName? level.name = some level := by
  cases level <;> decide

end Level

inductive OutputFlag
  | prettyPrint
  | printInputDelimiter
  deriving DecidableEq, Repr

def OutputFlag.name : OutputFlag → String
  | .prettyPrint => "pretty-print"
  | .printInputDelimiter => "print-input-delimiter"

def OutputFlag.all : List OutputFlag := [.prettyPrint, .printInputDelimiter]

def OutputFlag.ofName? (s : String) : Option OutputFlag := all.find? (·.name = s)

structure OutputFlags where
  prettyPrint : Bool := false
  printInputDelimiter : Bool := false
  deriving DecidableEq, Repr, Inhabited

namespace OutputFlags

def contains (flags : OutputFlags) : OutputFlag → Bool
  | .prettyPrint => flags.prettyPrint
  | .printInputDelimiter => flags.printInputDelimiter

def insert (flags : OutputFlags) : OutputFlag → OutputFlags
  | .prettyPrint => { flags with prettyPrint := true }
  | .printInputDelimiter => { flags with printInputDelimiter := true }

def ofList (flags : List OutputFlag) : OutputFlags := flags.foldl insert {}

def toList (flags : OutputFlags) : List OutputFlag := OutputFlag.all.filter flags.contains

end OutputFlags

inductive Destination
  | path (path : Path)
  | standardOutput
  deriving DecidableEq, Repr

def Destination.ofText (s : String) : Destination :=
  if s = "stdout" then .standardOutput else .path ⟨s⟩

inductive Freshness
  /-- As soon as it exists. -/
  | present
  /-- If it is not older than its source. -/
  | newerThanSource
  deriving DecidableEq, Repr, Inhabited

def Freshness.name : Freshness → String
  | .present => "exists"
  | .newerThanSource => "newer-than-source"

def Freshness.all : List Freshness := [.present, .newerThanSource]

def Freshness.ofName? (s : String) : Option Freshness := all.find? (·.name = s)

structure Options where
  outputDir : Path := ⟨"out"⟩
  outputTo : Option Destination := none
  outputFile : Option Path := none
  level : Level := .none
  flags : OutputFlags := {}
  externs : List Path := []
  /-- The namespaces that, with all below them, are written in the source language. -/
  languageRoots : List String := ["quill"]
  strict : Bool := false
  freshness : Freshness := .present
  deriving DecidableEq, Repr, Inhabited

namespace Options

def validate (o : Options) : Except BuildError Unit :=
  if o.outputDir.isEmpty then
    .error (.invalidOption "output-dir" "output directory cannot be empty")
  else if o.outputFile.any (·.isAbsolute) then
    .error (.invalidOption "output-file" "must be relative to output-dir")
  else if o.languageRoots.any (·.isEmpty) then
    .error (.invalidOption "language-prefixes" "prefixes cannot be empty")
  else .ok ()

structure Environment where
  outputDir : Option String := none
  level : Option String := none

def override (o : Options) (env : Environment) : Except BuildError Options := do
  let outputDir := (env.outputDir.map Path.mk).getD o.outputDir
  let level ← match env.level with
    | some s => Level.parse s
    | none => .ok o.level
  let o := { o with outputDir := outputDir, level := level }
  o.validate
  return o

def isLanguageNamespace (o : Options) (ns : String) : Bool :=
  o.languageRoots.any fun root =>
    match Text.after? root.toList ns.toList with
    | some rest => rest.isEmpty || rest.head? == some '.'
    | none => false

end Options

end ScriptBuild
