import Cyclomatic.Path
import Cyclomatic.Tree.Functions
import Cyclomatic.Number.Basic

/-! # Metric records

A function whose complexity is at least twice a positive threshold is exported:
its record goes to a text file named for its source file, its name and its line.
-/

namespace Cyclomatic

/-- A moment of universal time. -/
structure Moment where
  year : Nat
  month : Nat
  day : Nat
  hour : Nat
  minute : Nat
  second : Nat
  microsecond : Nat
  deriving DecidableEq, Repr

/-- A count in at least `width` digits. -/
def digits (width n : Nat) : String :=
  let text := toString n
  String.ofList (List.replicate (width - text.length) '0') ++ text

/-- Date and time with the offset from universal time; microseconds only if there are any. -/
def Moment.toText (m : Moment) : String :=
  let date := s!"{digits 4 m.year}-{digits 2 m.month}-{digits 2 m.day}"
  let time := s!"{digits 2 m.hour}:{digits 2 m.minute}:{digits 2 m.second}"
  let fraction := if m.microsecond = 0 then "" else "." ++ digits 6 m.microsecond
  date ++ "T" ++ time ++ fraction ++ "+00:00"

namespace Metrics

/-- Whether a complexity is at least twice a positive threshold. -/
def exceeds (complexity threshold : Num) : Bool :=
  !threshold.le .zero && threshold.double.le complexity

/-- Characters that file names do not take everywhere. -/
def reservedChars : List Char := ['<', '>', ':', '"', '/', '\\', '|', '?', '*']

def sanitize (name : String) : String :=
  name.map fun c => if c ∈ reservedChars then '_' else c

def fileName (path : String) (f : FunctionSummary) : String :=
  s!"{sanitize (Path.stem path)}_{sanitize f.name}_L{f.line}.txt"

structure Record where
  region : String
  value : Int
  modified : Moment
  limit : Num
  deriving DecidableEq, Repr

def Record.of (path : String) (f : FunctionSummary) (threshold : Num) (now : Moment) : Record where
  region := s!"{f.name} ({Path.basename path}:{f.line})"
  value := f.complexity
  modified := now
  limit := threshold

def Record.render (r : Record) : String :=
  "\n".intercalate
    ["Metric : complexity metric", s!"Region : {r.region}", s!"Value : {r.value}",
     s!"Modified : {r.modified.toText}", "Trend : N/A",
     s!"Limit : {(r.limit.roundPlaces 2).toText}"]

end Metrics

end Cyclomatic
