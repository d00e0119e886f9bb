import ScriptBuild.Zip.Directory
import ScriptBuild.Zip.Inflate

/-!
# Reading members

A member is found by its entry in the directory. It is stored as it is or deflated, and
not encrypted.
-/

namespace ScriptBuild.Zip

structure Member where
  checksum : Nat
  isDeflated : Bool
  bytes : List UInt8
  deriving DecidableEq, Repr

def Member.contents (m : Member) : Except FileFault (List UInt8) := do
  let bytes ← if m.isDeflated then inflate m.bytes else .ok m.bytes
  if Zip.checksum bytes ≠ m.checksum then throw .badChecksum
  return bytes

/-- The member that an entry leads to. Of the member's own record only the sizes of the
name and of the extra data count: they stand between it and the bytes. -/
def Entry.member (e : Entry) (archive : List UInt8) : Except ArchiveFault Member := do
  if e.isEncrypted then throw .encrypted
  if maxPlace < e.start then throw (.file .outOfReach)
  let (mark, bytes) ← splitOff 4 (archive.drop e.start)
  if mark ≠ memberMark then throw .badMember
  let (record, bytes) ← splitOff 26 bytes
  if e.method ≠ 0 && e.method ≠ deflated then throw .unknownMethod
  let stored := (bytes.drop (field record 22 2 + field record 24 2)).take e.size
  return ⟨e.checksum, e.method = deflated, stored⟩

/-- The last member with a name. -/
def find (archive : List UInt8) (name : String) : Except ArchiveFault Member := do
  let entries ← directory archive
  match entries.reverse.find? (·.name = name) with
  | none => throw .noMember
  | some entry => entry.member archive

end ScriptBuild.Zip
