import ScriptBuild.Text.Cut

/-!
# Forms

Source in memory, as structured data. A form is written as compact JSON with
the keys of each object sorted.
-/

namespace ScriptBuild

inductive Form
  | null
  | boolean (b : Bool)
  | integer (n : Int)
  /-- The number `digits · 10 ^ exponent` or its negative, with as few digits as tell it apart
  from other numbers of the machine. -/
  | decimal (isNegative : Bool) (digits : Nat) (exponent : Int)
  | string (s : String)
  | list (items : List Form)
  | object (fields : List (String × Form))
  deriving Repr, Inhabited

namespace Form

def hexDigit (n : Nat) : Char := Nat.digitChar (n % 16)

def escapeChar (c : Char) : List Char :=
  if c = '\x22' then ['\\', '\x22']
  else if c = '\\' then ['\\', '\\']
  else if c = '\n' then ['\\', 'n']
  else if c = '\r' then ['\\', 'r']
  else if c = '\t' then ['\\', 't']
  else if c = '\x08' then ['\\', 'b']
  else if c = '\x0c' then ['\\', 'f']
  else if c.toNat < 0x20 then ['\\', 'u', '0', '0', hexDigit (c.toNat / 16), hexDigit c.toNat]
  else [c]

def quoted (s : String) : String := "\"" ++ String.ofList (s.toList.flatMap escapeChar) ++ "\""

/-- A number with its point, and with a power of ten where that is far from the digits. -/
def decimalText (digits : Nat) (exponent : Int) : String :=
  let text := (toString digits).toList
  let zeros (n : Int) := List.replicate n.toNat '0'
  let point := text.length + exponent
  let power := 'e' :: (toString (point - 1)).toList
  String.ofList <|
    if 0 ≤ exponent ∧ point ≤ 16 then text ++ zeros exponent ++ ['.', '0']
    else if 0 < point ∧ point ≤ 16 then text.take point.toNat ++ '.' :: text.drop point.toNat
    else if -5 < point ∧ point ≤ 0 then ['0', '.'] ++ zeros (-point) ++ text
    else if text.length = 1 then text ++ power
    else text.take 1 ++ '.' :: text.drop 1 ++ power

mutual

def render : Form → String
  | .null => "null"
  | .boolean b => if b then "true" else "false"
  | .integer n => toString n
  | .decimal isNegative digits exponent =>
    (if isNegative then "-" else "") ++ decimalText digits exponent
  | .string s => quoted s
  | .list items => "[" ++ Text.joinWith "," (renderItems items) ++ "]"
  | .object fields =>
    let sorted := (renderFields fields).mergeSort fun a b => a.1 ≤ b.1
    "\x7b" ++ Text.joinWith "," (sorted.map fun e => quoted e.1 ++ ":" ++ e.2) ++ "\x7d"

def renderItems : List Form → List String
  | [] => []
  | form :: forms => render form :: renderItems forms

def renderFields : List (String × Form) → List (String × String)
  | [] => []
  | (key, form) :: fields => (key, render form) :: renderFields fields

end

def toText : Form → String
  | .string s => s
  | form => form.render

end Form

end ScriptBuild
