import ScriptBuild.Path.Basic

/-!
# What can go wrong

Faults of single files and archives, and the errors of a build. An error names
its cause; `BuildError.message` is the only place that words it.
-/

namespace ScriptBuild

inductive FileFault
  | missing
  | alreadyThere
  | notDirectory
  | isDirectory
  | linkLoop
  | nameTooLong
  | nullCharacter
  | notText
  | corruptStream
  | badChecksum
  | outOfReach
  | notOnDisk
  | noSpace
  | other (detail : String)
  deriving DecidableEq, Repr

def FileFault.message : FileFault → String
  | .missing => "No such file or directory (os error 2)"
  | .alreadyThere => "File exists (os error 17)"
  | .notDirectory => "Not a directory (os error 20)"
  | .isDirectory => "Is a directory (os error 21)"
  | .nameTooLong => "File name too long (os error 36)"
  | .linkLoop => "Too many levels of symbolic links (os error 40)"
  | .nullCharacter => "file name contained an unexpected NUL byte"
  | .notText => "stream did not contain valid UTF-8"
  | .corruptStream => "corrupt deflate stream"
  | .badChecksum => "Invalid checksum"
  | .outOfReach => "Invalid argument (os error 22)"
  | .notOnDisk => "artifact is not on disk"
  | .noSpace => "No space left on device (os error 28)"
  | .other detail => detail

inductive ArchiveFault
  | tooShort
  | noDirectory
  | misplacedDirectory
  | noWideRecord
  | noRoomForWideRecord
  | directoryOutOfReach
  | memberOutOfRange
  | badEntry
  | badMember
  | cutShort
  | severalDisks
  | encrypted
  | unknownMethod
  | noMember
  | file (fault : FileFault)
  deriving DecidableEq, Repr

def ArchiveFault.message : ArchiveFault → String
  | .tooShort => "invalid Zip archive: Invalid zip header"
  | .noDirectory => "invalid Zip archive: Could not find central directory end"
  | .misplacedDirectory => "invalid Zip archive: Invalid central directory size or offset"
  | .noWideRecord => "invalid Zip archive: Could not find ZIP64 central directory end"
  | .noRoomForWideRecord =>
    "invalid Zip archive: File cannot contain ZIP64 central directory end"
  | .directoryOutOfReach =>
    "invalid Zip archive: Could not seek to start of central directory"
  | .memberOutOfRange => "invalid Zip archive: Archive header is too large"
  | .badEntry => "invalid Zip archive: Invalid Central Directory header"
  | .badMember => "invalid Zip archive: Invalid local file header"
  | .cutShort => "failed to fill whole buffer"
  | .severalDisks =>
    "unsupported Zip archive: Support for multi-disk files is not implemented"
  | .encrypted => "unsupported Zip archive: Password required to decrypt file"
  | .unknownMethod => "unsupported Zip archive: Compression method not supported"
  | .noMember => "specified file not found in archive"
  | .file fault => fault.message

structure CompileError where
  unit : String
  detail : String
  deriving DecidableEq, Repr

inductive BuildError
  | unresolved (ns requiredBy : String)
  | cycle (names : List String)
  | compile (error : CompileError)
  | noSource (ns : String)
  | optimize (errors warnings : List String)
  | noOptimizer (level : String)
  | manifestLine (line : Nat) (reason : String)
  | archive (path : Path) (fault : ArchiveFault)
  | config (file : Path)
  | invalidOption (field reason : String)
  | file (path : Path) (fault : FileFault)
  | stream (detail : String)
  | endlessExpansion
  deriving DecidableEq, Repr

def BuildError.message : BuildError → String
  | .unresolved ns requiredBy => "Unresolved namespace '" ++ ns ++ "' required by " ++ requiredBy
  | .cycle names => "Circular dependency detected: " ++ Text.joinWith " -> " names
  | .compile error => "Compilation failed for " ++ error.unit ++ ": " ++ error.detail
  | .noSource ns => "No source found for namespace '" ++ ns ++ "'"
  | .optimize errors _ => "Optimization failed: " ++ Text.joinWith "; " errors
  | .noOptimizer level =>
    "Optimization level '" ++ level ++ "' requested but no optimizer is configured"
  | .manifestLine line reason =>
    "Malformed dependency manifest line " ++ toString line ++ ": " ++ reason
  | .archive path fault => "Archive error at " ++ path.text ++ ": " ++ fault.message
  | .config path => "Invalid TOML syntax in " ++ path.text
  | .invalidOption field reason => "Invalid value for '" ++ field ++ "': " ++ reason
  | .file path fault => "I/O error at " ++ path.text ++ ": " ++ fault.message
  | .stream detail => "I/O error: " ++ detail
  | .endlessExpansion => "Dependency expansion does not come to an end"

-- How a run ended is found out by running it.

instance decidableReturns {r : EStateM.Result ε σ α} {p : α → σ → Prop}
    [∀ a s, Decidable (p a s)] : Decidable (∃ a s, r = .ok a s ∧ p a s) :=
  match r with
  | .ok a s => decidable_of_iff (p a s) (by simp [and_assoc])
  | .error .. => .isFalse (by simp)

instance decidableFails {r : EStateM.Result ε σ α} {p : ε → σ → Prop}
    [∀ error s, Decidable (p error s)] : Decidable (∃ error s, r = .error error s ∧ p error s) :=
  match r with
  | .ok .. => .isFalse (by simp)
  | .error error s => decidable_of_iff (p error s) (by simp [and_assoc])

end ScriptBuild
