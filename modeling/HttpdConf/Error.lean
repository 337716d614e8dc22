/-!
# Errors of trees, policies and files

Each error is a cause; its wording is `Error.message`.

## Main definitions

* `FileFault`: why a file could not be read or written
* `PolicyFault`: why a policy could not be loaded
* `ConstructionFault`: why a node could not be made, or a tree not be written
* `Error`
-/

namespace HttpdConf

/-- Why a file could not be read or written. -/
inductive FileFault where
  | missing
  | notDirectory
  | isDirectory
  | nameTooLong
  /-- the path has a NUL character -/
  | nulInName
  | notText
  /-- any other reason the operating system gives -/
  | other (reason : String)
  deriving DecidableEq, Repr

def FileFault.message : FileFault → String
  | missing => "No such file or directory (os error 2)"
  | notDirectory => "Not a directory (os error 20)"
  | isDirectory => "Is a directory (os error 21)"
  | nameTooLong => "File name too long (os error 36)"
  | nulInName => "file name contained an unexpected NUL byte"
  | notText => "stream did not contain valid UTF-8"
  | other reason => reason

/-- Why a policy could not be loaded, or a file was not accepted. -/
inductive PolicyFault where
  | unreadable (fault : FileFault)
  | unknownFormat (extension : String)
  | badJson
  | badToml
  /-- a writer declined a file -/
  | refused
  deriving DecidableEq, Repr

def PolicyFault.message : PolicyFault → String
  | unreadable fault => "Failed to read config file: " ++ fault.message
  | unknownFormat extension => "Unknown config format: " ++ extension
  | badJson => "Invalid JSON: not a policy"
  | badToml => "Invalid TOML: not a policy"
  | refused => "refused"

/-- Why a node could not be made or a tree not be written. -/
inductive ConstructionFault where
  /-- no fragment to wrap was given -/
  | noOrigin
  /-- the path is empty -/
  | noFile
  /-- the outermost live block is not a whole file -/
  | rootGone
  deriving DecidableEq, Repr

def ConstructionFault.message : ConstructionFault → String
  | noOrigin => "a node must wrap parse metadata"
  | noFile => "a node must originate from a file"
  | rootGone => "tree root is no longer alive"

inductive Error where
  | invalidConstruction (fault : ConstructionFault)
  | indexOutOfRange (position length : Nat)
  | notFound
  | emptyName
  | config (fault : PolicyFault)
  | io (fault : FileFault)
  deriving DecidableEq, Repr

def Error.message : Error → String
  | invalidConstruction fault => "Invalid construction: " ++ fault.message
  | indexOutOfRange position length =>
    "Position " ++ toString position ++ " is out of range for " ++ toString length ++ " children"
  | notFound => "Node not found among the direct children of this block"
  | emptyName => "Cannot modify a node without a name"
  | config fault => "Configuration error: " ++ fault.message
  | io fault => "IO error: " ++ fault.message

end HttpdConf
