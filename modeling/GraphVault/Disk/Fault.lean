/-!
# Disk faults

Why the file system refuses an operation.
-/

namespace GraphVault.Disk

/-- The answer of the file system to an operation that it refuses. -/
inductive Fault where
  /-- A path leads nowhere. -/
  | notFound
  /-- A path goes on below something that is not a directory. -/
  | notDirectory
  /-- A directory stands where a file is needed. -/
  | isDirectory
  /-- Something else has the name already. -/
  | taken
  /-- A path names a directory only by where it is. -/
  | unnamed
  /-- A directory that is to be removed holds something. -/
  | notEmpty
  /-- A path or a part of it is longer than it may be. -/
  | nameTooLong
  /-- A path holds a null character. -/
  | nullCharacter
  /-- A file read as text is not UTF-8. -/
  | notText
  deriving DecidableEq, Repr

/-- The wording of a fault. -/
def Fault.message : Fault → String
  | notFound => "No such file or directory (os error 2)"
  | notDirectory => "Not a directory (os error 20)"
  | isDirectory => "Is a directory (os error 21)"
  | taken => "File exists (os error 17)"
  | unnamed => "Invalid argument (os error 22)"
  | notEmpty => "Directory not empty (os error 39)"
  | nameTooLong => "File name too long (os error 36)"
  | nullCharacter => "file name contained an unexpected NUL byte"
  | notText => "stream did not contain valid UTF-8"

end GraphVault.Disk
