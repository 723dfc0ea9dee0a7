/-!
  Files, as far as the validator uses them.

  A `FileStore` reads whole files and replaces whole files.  Whatever goes wrong with a file is one of the
  causes in `FileError`, in the words of the system.
-/

namespace EntitySchema

/-- Why a file cannot be read or written. -/
inductive FileError where
  | notFound
  | isDirectory
  | notDirectory
  /-- A name on the way, or the whole path, is longer than the system allows. -/
  | nameTooLong
  /-- The path has a NUL in it, with which no name can go on. -/
  | nulInPath
  /-- The bytes of the file are no text. -/
  | notText
  /-- Anything else, in the words of the system. -/
  | other (message : String)
deriving DecidableEq, Repr

/-- The fault in words. -/
def FileError.message : FileError → String
  | notFound => "No such file or directory (os error 2)"
  | isDirectory => "Is a directory (os error 21)"
  | notDirectory => "Not a directory (os error 20)"
  | nameTooLong => "File name too long (os error 36)"
  | nulInPath => "file name contained an unexpected NUL byte"
  | notText => "stream did not contain valid UTF-8"
  | other message => message

/-- A place where files are read and replaced. -/
class FileStore (m : Type → Type) where
  /-- The bytes of a file. -/
  read (path : String) : m (Except FileError ByteArray)
  /-- A file gets new bytes, all of them or none. -/
  write (path : String) (bytes : ByteArray) : m (Except FileError Unit)

end EntitySchema
