import ScriptBuild.Names
import ScriptBuild.Text.Word

/-!
# Declarations in script text

A script says what it provides and requires in statements such as
`provide('app.core')` and `lib.require("dom")`, each ended by a semicolon.
The scan ends at the first statement that assigns a function literal.
-/

namespace ScriptBuild

open Text (isBlank skipBlanks after? pieces)

def isQuote (c : Char) : Bool := c == '\x27' || c == '\x22'

/-- Reads a quoted name, which is not empty and holds no quote; the two quotes
need not be of one kind. Gives the name and what follows it. -/
def quotedName? : List Char → Option (String × List Char)
  | [] => none
  | q :: cs =>
    let name := cs.takeWhile (!isQuote ·)
    match cs.dropWhile (!isQuote ·) with
    | [] => none
    | _ :: rest => if isQuote q && !name.isEmpty then some (String.ofList name, rest) else none

/-- Reads `callee(`, with any number of qualifiers such as `lib.` in front.
Gives what follows the bracket. -/
def afterCall? (callee : String) (cs : List Char) : Option (List Char) :=
  match cs.dropWhile (· ≠ '(') with
  | [] => none
  | _ :: rest =>
    let parts := pieces '.' (cs.takeWhile (· ≠ '('))
    let qualified := parts.dropLast.all fun part => !part.isEmpty && part.all Text.isIdentifier
    if parts.getLast? = some callee.toList && qualified then some rest else none

def calledWith? (callee : String) (statement : List Char) : Option String :=
  match (afterCall? callee statement).bind fun rest => quotedName? (skipBlanks rest) with
  | some (name, rest) => if skipBlanks rest = [')'] then some name else none
  | none => none

/-- Whether `cs` starts with a function head and its opening brace, as after an
equals sign. -/
def startsFunction (cs : List Char) : Bool :=
  match (after? "function".toList (skipBlanks cs)).map skipBlanks with
  | some ('(' :: rest) =>
    match rest.dropWhile (· ≠ ')') with
    | [] => false
    | _ :: rest => (skipBlanks rest).head? == some '\x7b'
  | _ => false

def hasFunctionLiteral : List Char → Bool
  | [] => false
  | c :: cs => (c == '=' && startsFunction cs) || hasFunctionLiteral cs

structure Declarations where
  provides : List String := []
  requires : List String := []
  deriving DecidableEq, Repr, Inhabited

namespace Declarations

def note (ds : Declarations) (statement : List Char) : Declarations :=
  match calledWith? "provide" statement with
  | some name => { ds with provides := addName ds.provides name }
  | none =>
    match calledWith? "require" statement with
    | some name => { ds with requires := addName ds.requires name }
    | none => ds

/-- The statements of a script, trimmed, up to the first function literal. -/
def statements (script : String) : List (List Char) :=
  ((pieces ';' script.toList).map Text.trimChars).takeWhile (!hasFunctionLiteral ·)

def scan (script : String) : Declarations := (statements script).foldl note {}

end Declarations

end ScriptBuild
