/-!
# File errors

What can go wrong when a file is read or written. Two errors are of the same kind whatever
their wording.
-/

namespace ContextFree

/-- The kinds of file error. -/
inductive FileErrorKind where
  | notFound
  | permissionDenied
  | isDirectory
  | notDirectory
  | invalidText
  | invalidPath
  | invalidName
  | other
deriving DecidableEq, Repr

/-- A file error: its kind and its wording. -/
structure FileError where
  kind : FileErrorKind
  text : String
deriving DecidableEq, Repr

namespace FileError

/-- Nothing is there. -/
def missing : FileError := ⟨.notFound, "No such file or directory (os error 2)"⟩

/-- A directory stands where a file is wanted. -/
def directory : FileError := ⟨.isDirectory, "Is a directory (os error 21)"⟩

/-- A file stands where a directory is wanted. -/
def belowFile : FileError := ⟨.notDirectory, "Not a directory (os error 20)"⟩

/-- The content is not text in UTF-8. -/
def notText : FileError := ⟨.invalidText, "stream did not contain valid UTF-8"⟩

/-- The path holds a character that no path can hold. -/
def nullInPath : FileError := ⟨.invalidPath, "file name contained an unexpected NUL byte"⟩

/-- The path, or a name on its way, is too long. -/
def nameTooLong : FileError := ⟨.invalidName, "File name too long (os error 36)"⟩

end FileError

end ContextFree
