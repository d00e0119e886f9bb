import ScriptBuild.Text.Utf8
import ScriptBuild.Zip.Ending

/-!
# Directories of archives

The directory has an entry for each member, which says where the member lies and
how it is stored. Numbers that do not fit into the entry stand in its extra data. A flag
tells how the bytes of the member's name are to be read: as UTF-8, or as characters of code
page 437.
-/

namespace ScriptBuild.Zip

def splitOff (size : Nat) (bytes : List UInt8) : Except ArchiveFault (List UInt8 × List UInt8) :=
  let front := bytes.take size
  if front.length < size then .error .cutShort else .ok (front, bytes.drop size)

-- ---------------------------------------------------------------------------
-- Names
-- ---------------------------------------------------------------------------

/-- The characters of code page 437 from 128 up; those below are ASCII. -/
def upperCharacters : List Char :=
  ("ÇüéâäàåçêëèïîìÄÅ" ++ "ÉæÆôöòûùÿÖÜ¢£¥₧ƒ" ++ "áíóúñÑªº¿⌐¬½¼¡«»" ++ "░▒▓│┤╡╢╖╕╣║╗╝╜╛┐" ++
    "└┴┬├─┼╞╟╚╔╩╦╠═╬╧" ++ "╨╤╥╙╘╒╓╫╪┘┌█▄▌▐▀" ++ "αßΓπΣσµτΦΘΩδ∞φε∩" ++
    "≡±≥≤⌠⌡÷≈°∙·√ⁿ²■\u00a0").toList

def characterOf (byte : UInt8) : Char :=
  if byte < 128 then Char.ofNat byte.toNat else upperCharacters.getD (byte.toNat - 128) ' '

def nameOf (isUtf8 : Bool) (bytes : List UInt8) : String :=
  if isUtf8 then Text.ofUtf8Replacing bytes else String.ofList (bytes.map characterOf)

-- ---------------------------------------------------------------------------
-- Extra data
-- ---------------------------------------------------------------------------

/-- The numbers of an entry that may stand in its extra data. -/
structure Extent where
  fullSize : Nat
  size : Nat
  start : Nat
  deriving DecidableEq, Repr

/-- A number at its greatest is taken from the extra data, as long as there are any.
Gives the number and what is left of the data. -/
def widen (n : Nat) (bytes : List UInt8) : Nat × List UInt8 :=
  let front := bytes.take 8
  if n = max32 && front.length = 8 then (number front, bytes.drop 8) else (n, bytes)

def Extent.widen (e : Extent) (bytes : List UInt8) : Extent × List UInt8 :=
  let (fullSize, bytes) := Zip.widen e.fullSize bytes
  let (size, bytes) := Zip.widen e.size bytes
  let (start, bytes) := Zip.widen e.start bytes
  (⟨fullSize, size, start⟩, bytes)

def wideKind : Nat := 1

/-- Extra data come in blocks, each with its kind and its size in front. A block of
wide numbers may turn out longer than it says. -/
def Extent.withExtra (e : Extent) : List UInt8 → Extent
  | a :: b :: c :: d :: bytes =>
    let size := number [c, d]
    if number [a, b] = wideKind then
      let (e, rest) := e.widen bytes
      e.withExtra (bytes.drop (max size (bytes.length - rest.length)))
    else e.withExtra (bytes.drop size)
  | _ => e
termination_by bytes => bytes.length

-- ---------------------------------------------------------------------------
-- Entries
-- ---------------------------------------------------------------------------

structure Entry where
  name : String
  isEncrypted : Bool
  method : Nat
  checksum : Nat
  size : Nat
  start : Nat
  deriving DecidableEq, Repr

/-- The first entry and what follows it, in an archive that begins at `origin`.
Places in its record are counted from behind the mark. -/
def readEntry (origin : Nat) (bytes : List UInt8) : Except ArchiveFault (Entry × List UInt8) := do
  let (mark, bytes) ← splitOff 4 bytes
  if mark ≠ entryMark then throw .badEntry
  let (record, bytes) ← splitOff 42 bytes
  let (name, bytes) ← splitOff (field record 24 2) bytes
  let (extra, bytes) ← splitOff (field record 26 2) bytes
  let (_, bytes) ← splitOff (field record 28 2) bytes
  let flags := field record 4 2
  let stated : Extent := ⟨field record 20 4, field record 16 4, field record 38 4⟩
  let extent := stated.withExtra extra
  if Nat.pow 2 64 ≤ origin + extent.start then throw .memberOutOfRange
  let entry : Entry :=
    { name := nameOf (flags &&& utf8Flag ≠ 0) name
      isEncrypted := flags &&& 1 ≠ 0
      method := field record 6 2
      checksum := field record 12 4
      size := extent.size
      start := origin + extent.start }
  return (entry, bytes)

def readEntries (origin : Nat) : Nat → List UInt8 → Except ArchiveFault (List Entry)
  | 0, _ => .ok []
  | n + 1, bytes => do
    let (entry, bytes) ← readEntry origin bytes
    return entry :: (← readEntries origin n bytes)

def directory (archive : List UInt8) : Except ArchiveFault (List Entry) := do
  let place ← directoryPlace archive
  if maxPlace < place.start then throw .directoryOutOfReach
  readEntries place.origin place.entries (archive.drop place.start)

end ScriptBuild.Zip
