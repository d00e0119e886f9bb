/-!
# Layout of archives

Archives are made of records. Each starts with a mark of four bytes, and its
numbers have a fixed width with the lowest byte first. Of each member an archive keeps
the cyclic redundancy check of 32 bits.
-/

namespace ScriptBuild.Zip

-- ---------------------------------------------------------------------------
-- Numbers
-- ---------------------------------------------------------------------------

/-- The number that bytes spell, lowest byte first. -/
def number (bytes : List UInt8) : Nat :=
  bytes.foldr (fun byte n => byte.toNat + 256 * n) 0

/-- A number in so many bytes; what does not fit is lost. -/
def spell : Nat → Nat → List UInt8
  | 0, _ => []
  | width + 1, n => UInt8.ofNat n :: spell width (n / 256)

def field (record : List UInt8) (start width : Nat) : Nat :=
  number ((record.drop start).take width)

-- ---------------------------------------------------------------------------
-- Checksums
-- ---------------------------------------------------------------------------

/-- The remainder after one more bit, lowest bits first. -/
def shift (remainder : UInt32) : UInt32 :=
  if remainder &&& 1 = 1 then (remainder >>> 1) ^^^ 0xedb88320 else remainder >>> 1

def feed (remainder : UInt32) (byte : UInt8) : UInt32 :=
  Nat.repeat shift 8 (remainder ^^^ byte.toUInt32)

def checksum (bytes : List UInt8) : Nat :=
  (bytes.foldl feed 0xffffffff ^^^ 0xffffffff).toNat

-- ---------------------------------------------------------------------------
-- Marks
-- ---------------------------------------------------------------------------

def memberMark : List UInt8 := [0x50, 0x4b, 0x03, 0x04]

def entryMark : List UInt8 := [0x50, 0x4b, 0x01, 0x02]

def endMark : List UInt8 := [0x50, 0x4b, 0x05, 0x06]

/-- Stands in front of the wide record, which has room for greater numbers. -/
def wideMark : List UInt8 := [0x50, 0x4b, 0x06, 0x06]

def locatorMark : List UInt8 := [0x50, 0x4b, 0x06, 0x07]

-- ---------------------------------------------------------------------------
-- Sizes and limits
-- ---------------------------------------------------------------------------

def endSize : Nat := 22

def locatorSize : Nat := 20

def max16 : Nat := 0xffff

def max32 : Nat := 0xffffffff

/-- Where files end at the latest: no place behind this one can be reached. -/
def maxPlace : Nat := 0x7fffffffffffffff

/-- The method of a member that is deflated; that of others is 0. -/
def deflated : Nat := 8

/-- The bit of a member's flags that says that its name is UTF-8. -/
def utf8Flag : Nat := 0x800

end ScriptBuild.Zip
