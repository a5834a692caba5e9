import Cyclomatic.Failure

/-! # Events

What an analysis notes while it runs. An event has a level and the name of the
part that notes it; a computation that notes events may also fail, and keeps
what it has noted.
-/

namespace Cyclomatic

inductive Level where
  | debug
  | info
  | warning
  deriving DecidableEq, Repr

def Level.toText : Level → String
  | .debug => "DEBUG"
  | .info => "INFO"
  | .warning => "WARNING"

inductive Event where
  | parsed (path : String) (dialect : Dialect)
  | analyzed (path : String) (functions : Nat)
  | unparsable (path reason : String)
  | unreadable (path reason : String)
  | oversized (path limit : String)
  | unmeasurable (path reason : String)
  | scanned (files : Nat) (elapsed : String)
  | functionMissing (name line path : String)
  | unreachable (count : Nat) (line : Int)
  | nothingToExport (threshold : String)
  | exported (path : String)
  | commandFailed (command : String)
  deriving DecidableEq, Repr

namespace Event

def level : Event → Level
  | .parsed .. | .analyzed .. | .unreachable .. | .exported .. | .commandFailed .. => .debug
  | .oversized .. | .scanned .. | .functionMissing .. | .nothingToExport .. => .info
  | .unparsable .. | .unreadable .. | .unmeasurable .. => .warning

def origin : Event → String
  | .parsed .. => "complexityscanner.parsers.typescript_parser"
  | .unreachable .. => "complexityscanner.core.cfg"
  | .nothingToExport .. | .exported .. => "complexityscanner.export"
  | .commandFailed .. => "complexityscanner.cli"
  | _ => "complexityscanner.core.engine"

def message : Event → String
  | .parsed path dialect => s!"Parsed {path} with the {dialect.toText} grammar"
  | .analyzed path functions => s!"{path}: {functions} function(s)"
  | .unparsable path reason => s!"Could not parse {path}: {reason}"
  | .unreadable path reason => s!"Could not read {path}: {reason}"
  | .oversized path limit => s!"Skipping {path}: larger than {limit} bytes"
  | .unmeasurable path reason => s!"Cannot stat {path}: {reason}"
  | .scanned files elapsed => s!"Analyzed {files} file(s) in {elapsed}s"
  | .functionMissing name line path => s!"Function {name} at line {line} not found in {path}"
  | .unreachable count line => s!"Skipping {count} unreachable statement(s) from line {line}"
  | .nothingToExport threshold => s!"No functions reach twice the threshold {threshold}"
  | .exported path => s!"Exported {path}"
  | .commandFailed command => s!"Command {command} failed\n<traceback>"

/-- The line that shows an event, without its end. -/
def line (e : Event) : String := s!"{e.level.toText} {e.origin}: {e.message}"

end Event

structure Traced (α : Type) where
  events : List Event := []
  result : Except Failure α

namespace Traced

instance : Monad Traced where
  pure a := ⟨[], .ok a⟩
  bind x f :=
    match x.result with
    | .ok a => ⟨x.events ++ (f a).events, (f a).result⟩
    | .error e => ⟨x.events, .error e⟩

def note (e : Event) : Traced Unit := ⟨[e], .ok ()⟩

def fail {α : Type} (e : Failure) : Traced α := ⟨[], .error e⟩

def ofExcept {α : Type} (x : Except Failure α) : Traced α := ⟨[], x⟩

end Traced

end Cyclomatic
