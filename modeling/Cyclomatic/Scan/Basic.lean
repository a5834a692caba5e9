import Cyclomatic.Analysis
import Cyclomatic.Scan.Discover

/-! # Scans

A scan analyzes every source file of a target. A file that cannot be read or
parsed has a report with an error; one that the parser gives up on has none, and
is named among the errors. Reports are in the order of discovery, whatever the
order in which the analyses end.
-/

namespace Cyclomatic.Scan

def analyzeFile (grammar : Grammar) (d : Disk) (path : String) : Traced FileReport :=
  match d.readText path with
  | .ok content => Analysis.analyze grammar content path none
  | .error (.file e) => ⟨[.unreadable path e.message], .ok { path, error := some e.message }⟩
  | .error e => .fail e

/-- The error of a file that has no report, if its failure ends only its own analysis. -/
def excuse? (path : String) (e : Failure) : Option String :=
  let because (reason : String) : Option String := some s!"Error analyzing {path}: {reason}"
  match e with
  | .tooDeep => because "nesting too deep"
  | .refused _ | .nullInPath | .unsupportedLanguage _ | .unknownDialect _ => because e.message
  | _ => none

/-- What the analyses that have ended give. -/
structure Tally where
  reports : List (String × FileReport) := []
  errors : List String := []

def Tally.add (path : String) (outcome : Except Failure FileReport) (t : Tally) :
    Except Failure Tally :=
  match outcome with
  | .ok r => .ok { t with reports := t.reports ++ [(path, r)] }
  | .error e =>
      match excuse? path e with
      | some error => .ok { t with errors := t.errors ++ [error] }
      | none => .error e

/-- Take the analyses in the order in which they end, up to the first failure that ends the
scan; what was taken before it stays. -/
def Tally.addAll (outcome : String → Except Failure FileReport) :
    List String → Tally → Tally × Except Failure Unit
  | [], t => (t, .ok ())
  | path :: rest, t =>
      match t.add path (outcome path) with
      | .ok t => addAll outcome rest t
      | .error e => (t, .error e)

def parseError? (r : FileReport) : Option String :=
  (nonempty? r.error).map fun e => s!"Error parsing {r.path}: {e}"

/-- The reports in the order of discovery, and the errors: first those of files without a
report. -/
def Tally.settle (discovered : List String) (t : Tally) : List FileReport × List String :=
  let reports := discovered.filterMap fun path => t.reports.lookup path
  (reports, t.errors ++ reports.filterMap parseError?)

/-- Analyze files one after the other, up to the first failure that ends the scan. -/
def eventsOf (run : String → Traced FileReport) : List String → List Event
  | [] => []
  | path :: rest =>
      let one := run path
      match one.result with
      | .error e => if (excuse? path e).isNone then one.events else one.events ++ eventsOf run rest
      | .ok _ => one.events ++ eventsOf run rest

/-- Whether several files are analyzed at a time. -/
def parallel (settings : ScanSettings) (files : List String) : Except Failure Bool :=
  if files.length ≤ 1 then .ok false else orFail (settings.maxWorkers.compare .greater (.int 1))

/-- The readings of the clock before and after a scan. -/
structure Clock where
  start : Binary64 := .zero
  stop : Binary64 := .zero

def Clock.elapsed (c : Clock) : Binary64 := c.stop.sub c.start

/-- The order in which analyses end that were started together. -/
structure Schedule where
  ended : List String → List String
  perm : ∀ files, (ended files).Perm files

/-- Each analysis ends before the next one does. -/
def Schedule.inTurn : Schedule := ⟨id, fun _ => .refl _⟩

/-- The order in which the analyses of files end. -/
def endOrder (schedule : Schedule) (several : Bool) (files : List String) : List String :=
  if several then schedule.ended files else files

/-- The source files of a target, and the order in which their analyses end. -/
def plan (settings : ScanSettings) (d : Disk) (schedule : Schedule) (target : String) :
    Traced (List String × List String) := do
  let files ← discover settings d target
  let several ← .ofExcept (parallel settings files)
  return (files, endOrder schedule several files)

/-- What makes scans: its settings, and the errors of the last scan. -/
structure Engine where
  settings : ScanSettings := {}
  errors : List String := []

/-- Forget the errors of the last scan. -/
def Engine.cleared (engine : Engine) : Engine := { engine with errors := [] }

/-- Analyze files whose analyses end in some order, noting errors after those that are noted
already. -/
def Engine.analyzeAll (run : String → Traced FileReport) (clock : Clock)
    (files ended : List String) (engine : Engine) : Engine × Traced ProjectReport :=
  let events := eventsOf run ended
  match Tally.addAll (fun path => (run path).result) ended { errors := engine.errors } with
  | (t, .error e) => ({ engine with errors := t.errors }, ⟨events, .error e⟩)
  | (t, .ok ()) =>
      let (reports, errors) := t.settle files
      let noted := events ++ [.scanned reports.length (clock.elapsed.toFixed 3)]
      ({ engine with errors },
        ⟨noted, .ok { files := reports, filesAnalyzed := .int reports.length
                      elapsed := .real (clock.elapsed.roundPlaces 3), errors
                      high := engine.settings.high, veryHigh := engine.settings.veryHigh }⟩)

/-- Scan a target. The engine keeps the errors, also those before a failure that ends the
scan; a target that is not there leaves it as it was. -/
def Engine.scan (grammar : Grammar) (d : Disk) (schedule : Schedule) (clock : Clock)
    (target : String) (engine : Engine) : Engine × Traced ProjectReport :=
  if !d.exists? target then (engine, .fail (.targetMissing target))
  else
    let planned := plan engine.settings d schedule target
    match planned.result with
    | .error e => (engine.cleared, ⟨planned.events, .error e⟩)
    | .ok (files, ended) =>
        let (engine, report) :=
          engine.cleared.analyzeAll (analyzeFile grammar d) clock files ended
        (engine, ⟨planned.events ++ report.events, report.result⟩)

/-- The scan of a new engine, one file after the other. -/
def scan (grammar : Grammar) (d : Disk) (settings : ScanSettings) (clock : Clock)
    (target : String) : Traced ProjectReport :=
  (Engine.scan grammar d .inTurn clock target { settings }).2

end Cyclomatic.Scan
