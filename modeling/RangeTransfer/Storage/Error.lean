/-!
# Storage errors

Why the file system refused an operation.
-/

namespace RangeTransfer

inductive StorageError where
  | notFound
  | alreadyExists
  | notDirectory
  | isDirectory
  | invalidArgument
  | fileTooLarge
  | nameTooLong
  | nulInPath
  | lengthTooLarge
  | malformedText
  | noFileName
  | other (reason : String)
  deriving DecidableEq, Repr

def StorageError.message : StorageError → String
  | notFound => "No such file or directory (os error 2)"
  | alreadyExists => "File exists (os error 17)"
  | notDirectory => "Not a directory (os error 20)"
  | isDirectory => "Is a directory (os error 21)"
  | invalidArgument => "Invalid argument (os error 22)"
  | fileTooLarge => "File too large (os error 27)"
  | nameTooLong => "File name too long (os error 36)"
  | nulInPath => "file name contained an unexpected NUL byte"
  | lengthTooLarge => "number too large to fit in target type"
  | malformedText => "stream did not contain valid UTF-8"
  | noFileName => "no file name"
  | other reason => reason

end RangeTransfer
