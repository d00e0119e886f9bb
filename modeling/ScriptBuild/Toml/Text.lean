import ScriptBuild.Text.Cut

/-!
# TOML: blanks, comments, strings and keys

Readers take the characters that are left and give what they read with what is
left after it, or nothing if the text is malformed.
-/

namespace ScriptBuild.Toml

abbrev Reader (α : Type) := List Char → Option (α × List Char)

def isSpace (c : Char) : Bool := c == ' ' || c == '\t'

def skipSpaces (cs : List Char) : List Char := cs.dropWhile isSpace

def afterNewline? : List Char → Option (List Char)
  | '\n' :: cs => some cs
  | '\r' :: '\n' :: cs => some cs
  | _ => none

def isCommentChar (c : Char) : Bool := c == '\t' || (0x20 ≤ c.toNat && c.toNat != 0x7f)

def skipComment : List Char → List Char
  | '#' :: cs => cs.dropWhile isCommentChar
  | cs => cs

/-- Skips to the next line, or to the end of the text: only blanks and a comment
may stand in between. -/
def endLine? (cs : List Char) : Option (List Char) :=
  match skipComment (skipSpaces cs) with
  | [] => some []
  | cs => afterNewline? cs

def skipLines : Nat → List Char → List Char
  | 0, cs => cs
  | fuel + 1, cs =>
    let cs := skipSpaces cs
    match afterNewline? (skipComment cs) with
    | some rest => skipLines fuel rest
    | none => cs

-- ---------------------------------------------------------------------------
-- Strings
-- ---------------------------------------------------------------------------

def quote : Char := '\x22'

def apostrophe : Char := '\x27'

def hexValue? (c : Char) : Option Nat :=
  if '0' ≤ c ∧ c ≤ '9' then some (c.toNat - '0'.toNat)
  else if 'a' ≤ c ∧ c ≤ 'f' then some (c.toNat - 'a'.toNat + 10)
  else if 'A' ≤ c ∧ c ≤ 'F' then some (c.toNat - 'A'.toNat + 10)
  else none

def scalar? (digits : List Char) : Option Char := do
  let n ← digits.foldlM (fun n c => (hexValue? c).map (16 * n + ·)) 0
  if n.isValidChar then some (Char.ofNat n) else none

def escape? : Reader Char
  | [] => none
  | c :: cs =>
    if c = 'b' then some ('\x08', cs)
    else if c = 't' then some ('\t', cs)
    else if c = 'n' then some ('\n', cs)
    else if c = 'f' then some ('\x0c', cs)
    else if c = 'r' then some ('\r', cs)
    else if c = quote ∨ c = '\\' then some (c, cs)
    else if c = 'u' ∧ 4 ≤ cs.length then (scalar? (cs.take 4)).map (·, cs.drop 4)
    else if c = 'U' ∧ 8 ≤ cs.length then (scalar? (cs.take 8)).map (·, cs.drop 8)
    else none

def basicTail : Nat → Reader (List Char)
  | 0, _ => none
  | _, [] => none
  | fuel + 1, c :: cs =>
    if c = quote then some ([], cs)
    else if c = '\\' then do
      let (c, cs) ← escape? cs
      let (s, cs) ← basicTail fuel cs
      return (c :: s, cs)
    else if isCommentChar c then do
      let (s, cs) ← basicTail fuel cs
      return (c :: s, cs)
    else none

def literalTail (cs : List Char) : Option (List Char × List Char) :=
  let plain := cs.takeWhile fun c => c != apostrophe && isCommentChar c
  match cs.drop plain.length with
  | [] => none
  | c :: rest => if c = apostrophe then some (plain, rest) else none

/-- How a run of delimiters ends a string of several lines: three close it, and up
to two before them belong to it. Gives the run's part of the string and what follows. -/
def closing? (delimiter : Char) (cs : List Char) : Option (List Char × List Char) :=
  let n := (cs.takeWhile (· = delimiter)).length
  if n < 3 then none
  else
    let own := min (n - 3) 2
    some (List.replicate own delimiter, cs.drop (own + 3))

def afterLineJoint? (cs : List Char) : Option (List Char) :=
  (afterNewline? (skipSpaces cs)).map fun cs =>
    let rec skip : Nat → List Char → List Char
      | 0, cs => cs
      | fuel + 1, cs =>
        match afterNewline? (skipSpaces cs) with
        | some rest => skip fuel rest
        | none => skipSpaces cs
    skip cs.length cs

def multilineTail (delimiter : Char) : Nat → Reader (List Char)
  | 0, _ => none
  | _, [] => none
  | fuel + 1, c :: cs =>
    match closing? delimiter (c :: cs), afterNewline? (c :: cs) with
    | some (own, rest), _ => some (own, rest)
    | none, some rest => do
      let (s, rest) ← multilineTail delimiter fuel rest
      return ('\n' :: s, rest)
    | none, none =>
      if c = '\\' ∧ delimiter = quote then
        match afterLineJoint? cs with
        | some rest => multilineTail delimiter fuel rest
        | none => do
          let (c, cs) ← escape? cs
          let (s, cs) ← multilineTail delimiter fuel cs
          return (c :: s, cs)
      else if isCommentChar c then do
        let (s, cs) ← multilineTail delimiter fuel cs
        return (c :: s, cs)
      else none

/-- A string of several lines does not hold the line end that it starts with. -/
def dropFirstNewline (cs : List Char) : List Char := (afterNewline? cs).getD cs

def string? (cs : List Char) : Option (String × List Char) :=
  let read : Option (List Char × List Char) :=
    match Text.after? [quote, quote, quote] cs, Text.after? [apostrophe, apostrophe, apostrophe] cs with
    | some rest, _ => multilineTail quote cs.length (dropFirstNewline rest)
    | none, some rest => multilineTail apostrophe cs.length (dropFirstNewline rest)
    | none, none =>
      match cs with
      | [] => none
      | c :: rest =>
        if c = quote then basicTail cs.length rest
        else if c = apostrophe then literalTail rest
        else none
  read.map fun (s, rest) => (String.ofList s, rest)

-- ---------------------------------------------------------------------------
-- Keys
-- ---------------------------------------------------------------------------

def isBareKeyChar (c : Char) : Bool := (c.toNat < 0x80 && c.isAlphanum) || c == '_' || c == '-'

def keyPart? (cs : List Char) : Option (String × List Char) :=
  match cs with
  | [] => none
  | c :: rest =>
    if c = quote then (basicTail cs.length rest).map fun (s, rest) => (String.ofList s, rest)
    else if c = apostrophe then (literalTail rest).map fun (s, rest) => (String.ofList s, rest)
    else
      let bare := cs.takeWhile isBareKeyChar
      if bare.isEmpty then none else some (String.ofList bare, cs.drop bare.length)

def key? : Nat → Reader (List String)
  | 0, _ => none
  | fuel + 1, cs => do
    let (part, cs) ← keyPart? (skipSpaces cs)
    match skipSpaces cs with
    | '.' :: cs =>
      let (parts, cs) ← key? fuel cs
      return (part :: parts, cs)
    | cs => return ([part], cs)

end ScriptBuild.Toml
