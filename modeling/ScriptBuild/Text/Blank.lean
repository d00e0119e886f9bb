import ScriptBuild.Text.Cut

/-!
# Blank characters

The characters with the Unicode property `White_Space`. Marks of width zero
and the separators U+001C to U+001F are not among them.
-/

namespace ScriptBuild.Text

def blankRanges : List (Nat × Nat) :=
  [(0x09, 0x0d), (0x20, 0x20), (0x85, 0x85), (0xa0, 0xa0), (0x1680, 0x1680), (0x2000, 0x200a),
   (0x2028, 0x2029), (0x202f, 0x202f), (0x205f, 0x205f), (0x3000, 0x3000)]

def isBlank (c : Char) : Bool :=
  blankRanges.any fun r => r.1 ≤ c.toNat && c.toNat ≤ r.2

def trimChars (cs : List Char) : List Char := stripBy isBlank cs

def trim (s : String) : String := String.ofList (trimChars s.toList)

def skipBlanks (cs : List Char) : List Char := cs.dropWhile isBlank

end ScriptBuild.Text
