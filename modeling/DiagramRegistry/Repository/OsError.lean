/-
# Errors of the file system

The ways in which a file system refuses an operation, with their texts.
-/
namespace DiagramRegistry

/-- Why a file system refuses an operation. -/
inductive OsError where
  /-- There is nothing at the path. -/
  | notFound
  /-- There is something at the path already. -/
  | exists
  /-- A file stands where a directory is needed. -/
  | notDirectory
  /-- A directory stands where a file is needed. -/
  | isDirectory
  /-- A directory to be removed has entries. -/
  | notEmpty
  /-- A name or a path is too long. -/
  | nameTooLong
  /-- A path holds a NUL character. -/
  | nulInPath
  /-- A file to be read as text holds other bytes. -/
  | notText
  /-- Any other reason, in words. -/
  | other (text : String)
deriving DecidableEq, Repr

namespace OsError

/-- The error in words. -/
def message : OsError → String
  | notFound => "No such file or directory (os error 2)"
  | «exists» => "File exists (os error 17)"
  | notDirectory => "Not a directory (os error 20)"
  | isDirectory => "Is a directory (os error 21)"
  | notEmpty => "Directory not empty (os error 39)"
  | nameTooLong => "File name too long (os error 36)"
  | nulInPath => "file name contained an unexpected NUL byte"
  | notText => "stream did not contain valid UTF-8"
  | other text => text

end OsError

end DiagramRegistry
