import ScriptBuild.Zip.Layout
import ScriptBuild.Text.Utf8

/-!
# Writing archives

Members are stored as they are, one after the other, with the directory behind
them. They are plain files that all may read, and carry no time.
-/

namespace ScriptBuild.Zip

def description (name : String) (bytes : List UInt8) : List UInt8 :=
  let flags := if name.toList.all (·.toNat < 128) then 0 else utf8Flag
  let firstDay := 0x21
  spell 2 20 ++ spell 2 flags ++ spell 2 0 ++ spell 2 0 ++ spell 2 firstDay ++
    spell 4 (checksum bytes) ++ spell 4 bytes.length ++ spell 4 bytes.length ++
    spell 2 (Text.utf8 name).length ++ spell 2 0

def writeMember (name : String) (bytes : List UInt8) : List UInt8 :=
  memberMark ++ description name bytes ++ Text.utf8 name ++ bytes

def writeEntry (start : Nat) (name : String) (bytes : List UInt8) : List UInt8 :=
  let maker := 0x032e
  let permissions := 0x81a4
  entryMark ++ spell 2 maker ++ description name bytes ++ spell 2 0 ++ spell 2 0 ++ spell 2 0 ++
    spell 2 0 ++ spell 2 permissions ++ spell 4 start ++ Text.utf8 name

def writeEntries (start : Nat) : List (String × List UInt8) → List UInt8
  | [] => []
  | (name, bytes) :: members =>
    writeEntry start name bytes ++
      writeEntries (start + (writeMember name bytes).length) members

/-- The records that end an archive. A number of entries that does not fit into the
end record stands in a wide one. -/
def writeEnd (entries directorySize directoryStart : Nat) : List UInt8 :=
  let version := 46
  let wide :=
    if entries ≤ max16 then []
    else
      wideMark ++ spell 8 44 ++ spell 2 version ++ spell 2 version ++ spell 4 0 ++ spell 4 0 ++
        spell 8 entries ++ spell 8 entries ++ spell 8 directorySize ++ spell 8 directoryStart ++
        locatorMark ++ spell 4 0 ++ spell 8 (directoryStart + directorySize) ++ spell 4 1
  wide ++ endMark ++ spell 2 0 ++ spell 2 0 ++ spell 2 (min entries max16) ++
    spell 2 (min entries max16) ++ spell 4 directorySize ++ spell 4 directoryStart ++ spell 2 0

def write (members : List (String × List UInt8)) : List UInt8 :=
  let front := members.flatMap fun (name, bytes) => writeMember name bytes
  let directory := writeEntries 0 members
  front ++ directory ++ writeEnd members.length directory.length front.length

end ScriptBuild.Zip
