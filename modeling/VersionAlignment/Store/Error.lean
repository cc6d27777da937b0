/-!
# Why a file cannot be read or written
-/

set_option autoImplicit false

namespace VersionAlignment

/-- Why an operation on a file is refused. -/
inductive FileError where
  | notFound
  | alreadyExists
  | notDirectory
  | isDirectory
  /-- A step of the path, or the whole path, has too many bytes. -/
  | nameTooLong
  /-- The path holds a character that no name may hold. -/
  | invalidName
  /-- The bytes of the file are no UTF-8 text. -/
  | notText
  /-- Any other refusal, in its own words. -/
  | other (message : String)
  deriving Repr, DecidableEq

/-- The wording of a refusal. -/
def FileError.message : FileError → String
  | .notFound => "No such file or directory (os error 2)"
  | .alreadyExists => "File exists (os error 17)"
  | .notDirectory => "Not a directory (os error 20)"
  | .isDirectory => "Is a directory (os error 21)"
  | .nameTooLong => "File name too long (os error 36)"
  | .invalidName => "file name contained an unexpected NUL byte"
  | .notText => "stream did not contain valid UTF-8"
  | .other message => message

/-- Why the text of an artifact could not be read or written. -/
inductive StoreError where
  /-- There is no file at the path. -/
  | absent (path : String)
  | unreadable (path : String) (cause : FileError)
  | unwritable (path : String) (cause : FileError)
  /-- A fault that the store itself reports. -/
  | fault (message : String)
  deriving Repr, DecidableEq

/-- The wording of a store error. -/
def StoreError.message : StoreError → String
  | .absent path => path ++ " not found"
  | .unreadable path cause => "failed to read " ++ path ++ ": " ++ cause.message
  | .unwritable path cause => "failed to write " ++ path ++ ": " ++ cause.message
  | .fault message => message

end VersionAlignment
