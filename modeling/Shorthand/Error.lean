/-!
Why an expansion fails, and the words in which each failure is told.
-/
namespace Shorthand

/-- Why a file cannot be read or written. -/
inductive FileFault
  | notFound
  | isDirectory
  | notDirectory
  | nameTooLong
  | nulInName
  | other (description : String)
  deriving DecidableEq

def FileFault.message : FileFault → String
  | notFound => "No such file or directory (os error 2)"
  | isDirectory => "Is a directory (os error 21)"
  | notDirectory => "Not a directory (os error 20)"
  | nameTooLong => "File name too long (os error 36)"
  | nulInName => "file name contained an unexpected NUL byte"
  | other description => description

/-- Why a parameter cannot be used. -/
inductive ParameterFault
  | undefined (context name : String)
  | notPair (text : String)
  | emptyName (text : String)
  | notMapping (path : String)
  | notScalar (name : String)
  deriving DecidableEq

def ParameterFault.message : ParameterFault → String
  | undefined context name => s!"{context} references undefined parameter '{name}'"
  | notPair text => s!"'{text}' is not NAME=VALUE"
  | emptyName text => s!"'{text}' has an empty name"
  | notMapping path => s!"{path} must hold a mapping of parameter values"
  | notScalar name => s!"parameter '{name}' must be a scalar or a list"

/-- Why options are refused. A text that is no options file at all is `unreadable`. -/
inductive OptionsFault
  | unreadable
  | emptySection
  | sameSection (name : String)
  | digestLength (length : Nat)
  deriving DecidableEq

def OptionsFault.message : OptionsFault → String
  | unreadable => "not an options file"
  | emptySection => "section names must not be empty"
  | sameSection name => s!"api_section and matrix_section are both '{name}'"
  | digestLength length => s!"deployment_hash_len must be within 4..=64, got {length}"

inductive Error
  /-- A reference names an id, kind or selector that does not exist. -/
  | unknownReference (reference reason : String)
  /-- A declaration has a shape that is not accepted. -/
  | malformed (context message : String)
  /-- Actions of one stage wait for each other, each of the chain for the next. -/
  | circularDependency (stage : String) (chain : List String)
  | duplicateLogicalId (id : String)
  | parameter (fault : ParameterFault)
  | file (path : String) (fault : FileFault)
  | options (fault : OptionsFault)
  | yaml
  | json
  | usage
  /-- A sum is over the largest number of its type, and the run breaks off. -/
  | overflow
  deriving DecidableEq

def Error.message : Error → String
  | unknownReference reference reason => s!"unknown reference '{reference}': {reason}"
  | malformed context message => s!"malformed {context}: {message}"
  | circularDependency stage chain =>
    s!"circular dependency in stage '{stage}': " ++ " -> ".intercalate chain
  | duplicateLogicalId id => s!"duplicate logical id '{id}'"
  | parameter fault => "parameter error: " ++ fault.message
  | file path fault => s!"io error on {path}: {fault.message}"
  | options fault => "config error: " ++ fault.message
  | yaml => "YAML error"
  | json => "JSON error"
  | usage => "usage error"
  | overflow => "attempt to add with overflow"

end Shorthand
