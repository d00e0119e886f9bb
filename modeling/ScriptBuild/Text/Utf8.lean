/-!
# UTF-8

Texts and the bytes that spell them. Bytes that spell no text can still be read
with replacement characters where they are malformed.
-/

namespace ScriptBuild.Text

def utf8 (s : String) : List UInt8 := s.toByteArray.data.toList

def ofUtf8? (bytes : List UInt8) : Option String := String.fromUTF8? ⟨bytes.toArray⟩

@[simp] theorem ofUtf8?_utf8 (s : String) : ofUtf8? (utf8 s) = some s := by
  simp only [ofUtf8?, utf8, Array.toArray_toList, String.fromUTF8?]
  exact dif_pos s.isValidUTF8

-- ---------------------------------------------------------------------------
-- Malformed text
-- ---------------------------------------------------------------------------

/-- The ranges of the bytes that follow the first byte of a character, if a
character can start with it. -/
def followers? (first : UInt8) : Option (List (UInt8 × UInt8)) :=
  let tail : UInt8 × UInt8 := (0x80, 0xbf)
  if first ≤ 0x7f then some []
  else if first < 0xc2 then none
  else if first ≤ 0xdf then some [tail]
  else if first = 0xe0 then some [(0xa0, 0xbf), tail]
  else if first = 0xed then some [(0x80, 0x9f), tail]
  else if first ≤ 0xef then some [tail, tail]
  else if first = 0xf0 then some [(0x90, 0xbf), tail, tail]
  else if first ≤ 0xf3 then some [tail, tail, tail]
  else if first = 0xf4 then some [(0x80, 0x8f), tail, tail]
  else none

def countWithin : List (UInt8 × UInt8) → List UInt8 → Nat
  | (low, high) :: ranges, byte :: bytes =>
    if low ≤ byte ∧ byte ≤ high then countWithin ranges bytes + 1 else 0
  | _, _ => 0

def replacementCharacter : String := "\ufffd"

/-- The texts of the characters. One replacement character stands for each byte that
starts no character, and one for each beginning of a character that breaks off. -/
def replacingParts : List UInt8 → List String
  | [] => []
  | first :: bytes =>
    match followers? first with
    | none => replacementCharacter :: replacingParts bytes
    | some ranges =>
      let n := countWithin ranges bytes
      let part :=
        if n < ranges.length then replacementCharacter
        else (ofUtf8? (first :: bytes.take n)).getD replacementCharacter
      part :: replacingParts (bytes.drop n)
termination_by bytes => bytes.length

def ofUtf8Replacing (bytes : List UInt8) : String :=
  match ofUtf8? bytes with
  | some s => s
  | none => String.join (replacingParts bytes)

end ScriptBuild.Text
