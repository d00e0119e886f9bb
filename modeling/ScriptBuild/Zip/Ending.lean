import ScriptBuild.Fault
import ScriptBuild.Zip.Layout

/-!
# Endings of archives

The record at the end of an archive says where its directory lies. A wide record,
which has room for greater numbers, takes its place where a locator stands right
before it. Places are counted from where the archive begins, and what stands in
front of it in the file does not matter: where it begins is seen from how far a
record lies from its place.
-/

namespace ScriptBuild.Zip

structure DirectoryPlace where
  origin : Nat
  start : Nat
  entries : Nat
  deriving DecidableEq, Repr

def firstTail? (p : List α → Bool) : List α → Option (List α)
  | [] => none
  | a :: rest => if p (a :: rest) then some (a :: rest) else firstTail? p rest

def lastTail? (p : List α → Bool) : List α → Option (List α)
  | [] => none
  | a :: rest =>
    match lastTail? p rest with
    | some tail => some tail
    | none => if p (a :: rest) then some (a :: rest) else none

-- ---------------------------------------------------------------------------
-- The end record
-- ---------------------------------------------------------------------------

structure EndRecord where
  disk : Nat
  directoryDisk : Nat
  entriesHere : Nat
  entries : Nat
  directorySize : Nat
  directoryStart : Nat
  commentSize : Nat
  deriving DecidableEq, Repr

namespace EndRecord

def ofBytes (record : List UInt8) : EndRecord where
  disk := field record 4 2
  directoryDisk := field record 6 2
  entriesHere := field record 8 2
  entries := field record 10 2
  directorySize := field record 12 4
  directoryStart := field record 16 4
  commentSize := field record 20 2

/-- A field holds its greatest number when the true one does not fit. -/
def isFull (r : EndRecord) : Bool :=
  [r.disk, r.directoryDisk, r.entriesHere, r.entries].contains max16 ||
    [r.directorySize, r.directoryStart].contains max32

def startsAt (bytes : List UInt8) : Bool :=
  endMark.isPrefixOf bytes && endSize ≤ bytes.length

def directory (r : EndRecord) (place : Nat) : Except ArchiveFault DirectoryPlace :=
  if place < r.directorySize + r.directoryStart then .error .misplacedDirectory
  else
    let start := place - r.directorySize
    .ok ⟨start - r.directoryStart, start, r.entriesHere⟩

end EndRecord

/-- The end record with its place. Only a comment may follow it, so it is looked
for as far from the end as the longest comment reaches. -/
def endRecord (archive : List UInt8) : Except ArchiveFault (Nat × EndRecord) :=
  let size := archive.length
  if size < endSize then .error .tooShort
  else
    match lastTail? EndRecord.startsAt (archive.drop (size - (endSize + max16))) with
    | none => .error .noDirectory
    | some tail =>
      let record := EndRecord.ofBytes tail
      if tail.length < endSize + record.commentSize then .error .cutShort
      else if record.disk ≠ record.directoryDisk && !record.isFull then .error .severalDisks
      else .ok (size - tail.length, record)

-- ---------------------------------------------------------------------------
-- The wide record
-- ---------------------------------------------------------------------------

structure WideLocator where
  disk : Nat
  start : Nat
  deriving DecidableEq, Repr

/-- The locator, if there is one. The end record and its comment are taken to be the
last thing in the file. -/
def wideLocator? (archive : List UInt8) (commentSize : Nat) : Option WideLocator :=
  let reach := locatorSize + endSize + commentSize
  let bytes := archive.drop (archive.length - reach)
  if reach ≤ archive.length && locatorMark.isPrefixOf bytes then
    some ⟨field bytes 4 4, field bytes 8 8⟩
  else none

structure WideRecord where
  disk : Nat
  directoryDisk : Nat
  entries : Nat
  directoryStart : Nat
  deriving DecidableEq, Repr

def WideRecord.ofBytes (record : List UInt8) : WideRecord where
  disk := field record 16 4
  directoryDisk := field record 20 4
  entries := field record 32 8
  directoryStart := field record 48 8

def wideDistance : Nat := 60

def wideRecord (archive : List UInt8) (start endPlace : Nat) :
    Except ArchiveFault (Nat × WideRecord) :=
  if endPlace < wideDistance then .error .noRoomForWideRecord
  else
    match firstTail? wideMark.isPrefixOf (archive.drop start) with
    | none => .error .noWideRecord
    | some tail =>
      let place := archive.length - tail.length
      if endPlace < place + wideDistance then .error .noWideRecord
      else .ok (place, .ofBytes tail)

def WideRecord.directory (r : WideRecord) (place start : Nat) :
    Except ArchiveFault DirectoryPlace :=
  let origin := place - start
  if r.disk ≠ r.directoryDisk then .error .severalDisks
  else if Nat.pow 2 64 ≤ origin + r.directoryStart then .error .misplacedDirectory
  else .ok ⟨origin, origin + r.directoryStart, r.entries⟩

-- ---------------------------------------------------------------------------
-- The directory's place
-- ---------------------------------------------------------------------------

def directoryPlace (archive : List UInt8) : Except ArchiveFault DirectoryPlace := do
  let (endPlace, record) ← endRecord archive
  match wideLocator? archive record.commentSize with
  | none => record.directory endPlace
  | some locator =>
    if record.disk ≠ locator.disk && !record.isFull then throw .severalDisks
    let (place, wide) ← wideRecord archive locator.start endPlace
    wide.directory place locator.start

end ScriptBuild.Zip
