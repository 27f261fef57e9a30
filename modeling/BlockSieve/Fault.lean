import BlockSieve.Path

/-!
What can go wrong, by cause, and how it is said. A cause is why the disk
refuses one request; a fault is why a whole operation fails, with the names
and places that its message shows.
-/

namespace BlockSieve

/-- Why the disk refuses a request. -/
inductive Cause where
  | notFound
  | occupied
  | busy
  | notDirectory
  | isDirectory
  | nameTooLong
  | tooManyLinks
  | nulInPath
  | notRegular
  deriving DecidableEq

/-- How a cause is said; the causes that the system knows by a number show it. -/
def Cause.message : Cause → String
  | .notFound => "No such file or directory (os error 2)"
  | .occupied => "File exists (os error 17)"
  | .busy => "Device or resource busy (os error 16)"
  | .notDirectory => "Not a directory (os error 20)"
  | .isDirectory => "Is a directory (os error 21)"
  | .nameTooLong => "File name too long (os error 36)"
  | .tooManyLinks => "Too many levels of symbolic links (os error 40)"
  | .nulInPath => "file name contained an unexpected NUL byte"
  | .notRegular => "the source path is neither a regular file nor a symlink to a regular file"

/-- The document formats of an allow-list. -/
inductive Format where
  | toml
  | json
  | yaml
  deriving DecidableEq

/-- The name of a format as messages show it. -/
def Format.name : Format → String
  | .toml => "TOML"
  | .json => "JSON"
  | .yaml => "YAML"

/-- Why an operation fails. -/
inductive Fault where
  | unclosedBlock (name : Text) (line : Nat)
  | disk (path : Text) (cause : Cause)
  | malformed (format : Format) (path : Path)
  | unsupportedFormat (extension : Text)
  | nothingAllowed (path : Path)
  | backupDiffers (path : Text)
  deriving DecidableEq

/-- How a malformed document is said, with what its reader had to say about it. -/
def malformedMessage (format : Format) (path : Path) (reason : String) : Text :=
  s!"Failed to parse {format.name} config at ".toList ++ path.text ++ ": ".toList ++ reason.toList

/-- How a fault is said. -/
def Fault.message : Fault → Text
  | .unclosedBlock name line =>
    "Block '".toList ++ name ++ s!"' opened at line {line} is never closed".toList
  | .disk path cause => "I/O error at ".toList ++ path ++ ": ".toList ++ cause.message.toList
  | .malformed format path => malformedMessage format path "not an allow-list document"
  | .unsupportedFormat extension => "Unsupported config format: ".toList ++ extension
  | .nothingAllowed path =>
    "Allow-list ".toList ++ path.text ++
      " has no \x60keep\x60 entries; every tool would be filtered".toList
  | .backupDiffers path =>
    "Backup at ".toList ++ path ++ " does not match the source content".toList

end BlockSieve
