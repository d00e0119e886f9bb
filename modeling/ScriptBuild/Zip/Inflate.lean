import ScriptBuild.Fault

/-!
# Deflated members

Deflated bytes are a sequence of bits in blocks. A block holds bytes as they are, or symbols of
a code that is fixed or that the block describes: bytes, and how far back and how many bytes are
to be repeated.
-/

namespace ScriptBuild.Zip

inductive Halted
  | cutShort
  | corrupt
  deriving DecidableEq, Repr

structure Inflation where
  bits : List Bool
  out : Array UInt8 := #[]

abbrev Inflate := EStateM Halted Inflation

-- ---------------------------------------------------------------------------
-- Bits
-- ---------------------------------------------------------------------------

def bitsOf (bytes : List UInt8) : List Bool :=
  bytes.flatMap fun byte => (List.range 8).map byte.toNat.testBit

def nextBit : Inflate Bool := fun s =>
  match s.bits with
  | [] => .error .cutShort s
  | bit :: bits => .ok bit { s with bits }

def nextNumber : Nat → Inflate Nat
  | 0 => pure 0
  | width + 1 => do
    let bit ← nextBit
    return bit.toNat + 2 * (← nextNumber width)

def put (n : Nat) : Inflate Unit := modify fun s => { s with out := s.out.push (.ofNat n) }

-- ---------------------------------------------------------------------------
-- Codes
-- ---------------------------------------------------------------------------

inductive Code
  | unused
  | symbol (n : Nat)
  | fork (zero one : Code)
  deriving DecidableEq, Repr

namespace Code

def maxLength : Nat := 15

def pairUp : List Code → List Code
  | a :: b :: rest => fork a b :: pairUp rest
  | [a] => [fork a unused]
  | [] => []

def ofLength (lengths : List Nat) (length : Nat) : List Code :=
  lengths.zipIdx.filterMap fun (l, n) => if l = length then some (symbol n) else none

/-- What stands as far from the end of the longest words: the words that end here, and then
the beginnings of longer ones. -/
def level (lengths : List Nat) : Nat → List Code
  | 0 => ofLength lengths maxLength
  | height + 1 => ofLength lengths (maxLength - (height + 1)) ++ pairUp (level lengths height)

/-- The code in which the symbols have words of these lengths. More than one word must use up
all sequences of bits. -/
def ofLengths (lengths : List Nat) : Inflate Code :=
  let used := lengths.filter (· ≠ 0)
  let room := (used.map fun length => Nat.pow 2 (maxLength - length)).foldr Nat.add 0
  if 1 < used.length && room ≠ Nat.pow 2 maxLength then throw .corrupt
  else return (pairUp (level lengths (maxLength - 1))).headD unused

def next : Code → Inflate Nat
  | unused => throw .corrupt
  | symbol n => pure n
  | fork zero one => do if ← nextBit then one.next else zero.next

end Code

-- ---------------------------------------------------------------------------
-- Symbols
-- ---------------------------------------------------------------------------

/-- For each symbol from 257 on the least number of bytes to repeat, and how many bits follow
with what is to be added. -/
def repeats : List (Nat × Nat) :=
  [(3, 0), (4, 0), (5, 0), (6, 0), (7, 0), (8, 0), (9, 0), (10, 0), (11, 1), (13, 1), (15, 1),
    (17, 1), (19, 2), (23, 2), (27, 2), (31, 2), (35, 3), (43, 3), (51, 3), (59, 3), (67, 4),
    (83, 4), (99, 4), (115, 4), (131, 5), (163, 5), (195, 5), (227, 5), (258, 0)]

/-- The same for how far back they lie. -/
def distances : List (Nat × Nat) :=
  [(1, 0), (2, 0), (3, 0), (4, 0), (5, 1), (7, 1), (9, 2), (13, 2), (17, 3), (25, 3), (33, 4),
    (49, 4), (65, 5), (97, 5), (129, 6), (193, 6), (257, 7), (385, 7), (513, 8), (769, 8),
    (1025, 9), (1537, 9), (2049, 10), (3073, 10), (4097, 11), (6145, 11), (8193, 12),
    (12289, 12), (16385, 13), (24577, 13)]

def choose (table : List (Nat × Nat)) (n : Nat) : Inflate Nat :=
  match table[n]? with
  | none => throw .corrupt
  | some (least, width) => return least + (← nextNumber width)

/-- Before the first byte there are zeros. -/
def goBack (distance : Nat) : Nat → Inflate Unit
  | 0 => pure ()
  | count + 1 => do
    let out := (← get).out
    put (if out.size < distance then 0 else (out.getD (out.size - distance) 0).toNat)
    goBack distance count

def putSymbols (literals backwards : Code) : Nat → Inflate Unit
  | 0 => throw .cutShort
  | bits + 1 => do
    let symbol ← literals.next
    if symbol = 256 then return
    if symbol < 256 then put symbol
    else
      let count ← choose repeats (symbol - 257)
      goBack (← choose distances (← backwards.next)) count
    putSymbols literals backwards bits

-- ---------------------------------------------------------------------------
-- Blocks
-- ---------------------------------------------------------------------------

def fixedLengths : List Nat :=
  .replicate 144 8 ++ .replicate 112 9 ++ .replicate 24 7 ++ .replicate 8 8

/-- The next length, and how often it comes, where these lengths came before, the last first. -/
def nextLength (code : Code) (known : List Nat) : Inflate (Nat × Nat) := do
  match ← code.next with
  | 16 =>
    match known with
    | [] => throw .corrupt
    | last :: _ => return (last, 3 + (← nextNumber 2))
  | 17 => return (0, 3 + (← nextNumber 3))
  | 18 => return (0, 11 + (← nextNumber 7))
  | length => return (length, 1)

def readLengths (code : Code) (total : Nat) (known : List Nat) : Nat → Inflate (List Nat)
  | 0 => if known.length = total then return known.reverse else throw .corrupt
  | symbols + 1 => do
    if total ≤ known.length then readLengths code total known symbols
    else
      let (length, count) ← nextLength code known
      readLengths code total (.replicate count length ++ known) symbols

/-- The order in which a block gives the lengths for the code of the lengths. -/
def lengthOrder : List Nat := [16, 17, 18, 0, 8, 7, 9, 6, 10, 5, 11, 4, 12, 3, 13, 2, 14, 1, 15]

def readCodes : Inflate (Code × Code) := do
  let literals := 257 + (← nextNumber 5)
  let backwards := 1 + (← nextNumber 5)
  let given ← (List.range (4 + (← nextNumber 4))).mapM fun _ => nextNumber 3
  if 286 < literals || 30 < backwards then throw .corrupt
  let lengths := (List.range 19).map fun n => given.getD (lengthOrder.idxOf n) 0
  let total := literals + backwards
  let all ← readLengths (← Code.ofLengths lengths) total [] total
  return (← Code.ofLengths (all.take literals), ← Code.ofLengths (all.drop literals))

def putStored : Inflate Unit := do
  modify fun s => { s with bits := s.bits.drop (s.bits.length % 8) }
  let size ← nextNumber 16
  let complement ← nextNumber 16
  if size + complement ≠ 0xffff then throw .corrupt
  for _ in List.range size do put (← nextNumber 8)

/-- Tells whether this block is the last one. -/
def putBlock : Inflate Bool := do
  let isLast ← nextBit
  let coded : Code × Code → Inflate Unit := fun (literals, backwards) => do
    putSymbols literals backwards (← get).bits.length
  match ← nextNumber 2 with
  | 0 => putStored
  | 1 => coded (← Code.ofLengths fixedLengths, ← Code.ofLengths (.replicate 32 5))
  | 2 => coded (← readCodes)
  | _ => throw .corrupt
  return isLast

def putBlocks : Nat → Inflate Unit
  | 0 => throw .cutShort
  | bits + 1 => do unless ← putBlock do putBlocks bits

/-- What was deflated to these bytes. Where they end too early, it ends there. -/
def inflate (bytes : List UInt8) : Except FileFault (List UInt8) :=
  match putBlocks (8 * bytes.length) { bits := bitsOf bytes } with
  | .ok _ s | .error .cutShort s => .ok s.out.toList
  | .error .corrupt _ => .error .corruptStream

end ScriptBuild.Zip
