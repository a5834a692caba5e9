import Cyclomatic.Diagram.Basic
import Cyclomatic.Files.Error
import Cyclomatic.Language
import Cyclomatic.Value.Yaml.Mark

/-! # Failures

Every cause for which an operation gives up, and the message it gives.
-/

namespace Cyclomatic

/-- What is wrong with the number of a file. -/
inductive FileNumberFault where
  | tooLarge
  | tooSmall
  | negative
  | notOpen
  deriving DecidableEq, Repr

def FileNumberFault.message : FileNumberFault → String
  | .tooLarge => "fd is greater than maximum"
  | .tooSmall => "fd is less than minimum"
  | .negative => "negative file descriptor"
  | .notOpen => "[Errno 9] Bad file descriptor"

inductive Failure where
  /-- The source does not parse; the first faulty line, if the tree shows one. -/
  | syntaxError (path : String) (line : Option Nat)
  /-- The grammar gave up with a reason of its own. -/
  | refused (reason : String)
  /-- There is no tree of this dialect for the source. -/
  | unavailable (dialect : Dialect)
  | interrupted
  | tooDeep
  | unsupportedLanguage (name : String)
  | unknownDialect (name : String)
  | unknownFormat (name : String)
  /-- A decision is made at a construct that has no caption. -/
  | uncaptioned (kind : Kind)
  | query (error : Diagram.QueryError)
  | overflow (error : Overflow)
  | mismatch (error : Value.Mismatch)
  | file (error : FileError)
  | nullInPath
  | emptyPath
  /-- The links on a path lead back to themselves. -/
  | linkCircle (path : String)
  /-- A number in place of a path is not that of an open file. -/
  | fileNumber (fault : FileNumberFault)
  | targetMissing (path : String)
  | configMissing (path : String)
  | configNotMap (path : String)
  | thresholdOrder
  | workerCount
  | json (error : Json.ReadError)
  | yaml (error : Yaml.ReadError)
  | encoding (error : Utf8.Fault)
  | unknownOption (name : String)
  | optionNotText
  | noAttribute (owner name : String)
  | notIterable (kindName : String)
  | notPath (kindName : String)
  | notStatable (kindName : String)

namespace Failure

/-- A place in a source: the path, with the line if it is known. -/
def location (path : String) : Option Nat → String
  | some line => s!"{path}:{line}"
  | none => path

def kindConstant (kind : Kind) : String :=
  upperText (kind.toText.map fun c => if c = '-' then '_' else c)

def queryMessage : Diagram.QueryError → String
  | .noSuchNode id => Quoted.encode id
  | .noEntry | .noExit => ""

def message : Failure → String
  | .syntaxError path line => location path line ++ ": syntax error"
  | .refused reason => reason
  | .unavailable dialect => dialect.toText
  | .interrupted => ""
  | .tooDeep => "maximum recursion depth exceeded"
  | .unsupportedLanguage name => "Unsupported language: " ++ name
  | .unknownDialect name => "Unknown grammar dialect: " ++ name
  | .unknownFormat name => "Unknown format: " ++ name
  | .uncaptioned kind => s!"<NodeKind.{kindConstant kind}: '{kind.toText}'>"
  | .query error => queryMessage error
  | .overflow error => error.message
  | .mismatch error => error.message
  | .file error => error.message
  | .nullInPath => "embedded null byte"
  | .emptyPath => "no path specified"
  | .linkCircle path => "Symlink loop from " ++ Quoted.encode path
  | .fileNumber fault => fault.message
  | .targetMissing path => "Target not found: " ++ path
  | .configMissing path => "Configuration file not found: " ++ path
  | .configNotMap path => "Configuration file must contain a mapping: " ++ path
  | .thresholdOrder => "high_complexity_threshold must not exceed very_high_complexity_threshold"
  | .workerCount => "max_workers must be at least 1"
  | .json error => error.message
  | .yaml error => error.message
  | .encoding error => error.message
  | .unknownOption name =>
      s!"OutputConfig.__init__() got an unexpected keyword argument '{name}'"
  | .optionNotText => "keywords must be strings"
  | .noAttribute owner name => s!"'{owner}' object has no attribute '{name}'"
  | .notIterable kindName => s!"'{kindName}' object is not iterable"
  | .notPath kindName => s!"expected str, bytes or os.PathLike object, not {kindName}"
  | .notStatable kindName =>
      s!"stat: path should be string, bytes, os.PathLike or integer, not {kindName}"

end Failure

instance : Coe Overflow Failure := ⟨.overflow⟩

instance : Coe Value.Mismatch Failure := ⟨.mismatch⟩

/-- An outcome whose error is taken as a failure. -/
def orFail {ε α : Type} [Coe ε Failure] : Except ε α → Except Failure α
  | .ok a => .ok a
  | .error e => .error ↑e

end Cyclomatic
