import Cyclomatic.Command.Basic
import Cyclomatic.Config.Load
import Cyclomatic.Metrics.Export
import Cyclomatic.Scan.Basic

/-! # Running commands

A command looks at a disk and may change it; it writes to two streams and ends
with a code. Failures are shown as a line that starts with `Error:`; an
interruption ends the program with a code of its own.
-/

namespace Cyclomatic.Command

/-- What a command finds around it. -/
structure Surroundings where
  grammar : Grammar
  clock : Scan.Clock := {}
  now : Moment
  /-- Output goes to a terminal that shows colours. -/
  terminal : Bool := false
  /-- Failures are passed on after they have been shown. -/
  debug : Bool := false

structure Outcome where
  disk : Disk
  output : String := ""
  errors : String := ""
  code : Option Int := some 0
  raised : Option Failure := none

/-- A part of what a command does: the disk after it, what it has written, and how it ends. -/
structure Step (α : Type) where
  disk : Disk
  output : String := ""
  errors : String := ""
  result : Except Failure α

/-- What a command does with a disk. The flag says that every event is shown. -/
def Work (α : Type) := (verbose : Bool) → Disk → Step α

namespace Work

instance : Monad Work where
  pure a := fun _ d => { disk := d, result := .ok a }
  bind x f := fun verbose d =>
    let first := x verbose d
    match first.result with
    | .ok a =>
        let second := f a verbose first.disk
        { second with output := first.output ++ second.output, errors := first.errors ++ second.errors }
    | .error e => { disk := first.disk, output := first.output, errors := first.errors, result := .error e }

def disk : Work Disk := fun _ d => { disk := d, result := .ok d }

def fail {α : Type} (e : Failure) : Work α := fun _ d => { disk := d, result := .error e }

def ofExcept {α : Type} (x : Except Failure α) : Work α := fun _ d => { disk := d, result := x }

def print (line : String) : Work Unit := fun _ d =>
  { disk := d, output := line ++ "\n", result := .ok () }

def complain (line : String) : Work Unit := fun _ d =>
  { disk := d, errors := line ++ "\n", result := .ok () }

/-- The lines that show events: warnings, or all of them. -/
def shown (verbose : Bool) (events : List Event) : String :=
  String.join ((events.filter fun e => verbose || e.level = .warning).map (·.line ++ "\n"))

def ofTraced {α : Type} (x : Traced α) : Work α := fun verbose d =>
  { disk := d, errors := shown verbose x.events, result := x.result }

/-- Do something that changes the disk. -/
def change {α : Type} (f : Disk → Disk × Traced α) : Work α := fun verbose d =>
  let (d, x) := f d
  { disk := d, errors := shown verbose x.events, result := x.result }

def writeFile (path text : String) : Work Unit :=
  change fun d =>
    match d.writeText path text with
    | .ok d => (d, pure ())
    | .error e => (d, .fail e)

end Work

/-- The first of two values if it counts, else the second. -/
def orElse (first second : Value) : Value := if first.truthy then first else second

/-- The configuration for a target: a named file, or the nearest one above the target. -/
def loadConfig (file : Value) (target : Option String) : Work Config := do
  let d ← Work.disk
  let start := (nonempty? target).getD "."
  let start := if d.isFile start then (nonempty? (Path.dirname start)).getD "." else start
  match file with
  | .null => Work.ofExcept (Config.load d none start)
  | v => do
      let path ← Work.ofExcept v.asPath
      Work.ofExcept (Config.load d (some path) start)

/-- A setting of the output section; other values have no settings. -/
def outputSetting (c : Config) (name : String) (get : OutputSettings → Value) :
    Except Failure Value :=
  match c.output with
  | .settings s => .ok (get s)
  | .other v => .error (.noAttribute v.kindName name)

/-- The name of the format to use. Every text knows how to format itself, so that a text in place
of the output section is taken for a name and found not to be one. -/
def formatName (format : Value) (c : Config) : Except Failure Value :=
  if format.truthy then .ok format
  else
    match c.output with
    | .other (.text _) => .error (.noAttribute "builtin_function_or_method" "lower")
    | _ => outputSetting c "format" (·.format)

def formatOf (terminal : Bool) : Value → Except Failure Format
  | .text name => Format.ofName terminal name
  | v => .error (.noAttribute v.kindName "lower")

/-- Set what text output shows. -/
def adapt (c : Config) (plain verbose : Bool) : Format → Except Failure Format
  | .text colour _ => do
      let verbose ← if verbose then pure true else (·.truthy) <$> outputSetting c "verbose" (·.verbose)
      let colour ← if colour then (·.truthy) <$> outputSetting c "color" (·.colour) else pure false
      return .text (colour && !plain) verbose
  | f => .ok f

/-! ## Targets -/

/-- The number that a value gives in place of a path; booleans count as numbers. -/
def fileNumber? : Value → Option Int
  | .num (.int i) => some i
  | .bool b => some (if b then 1 else 0)
  | _ => none

/-- File numbers are in this range. -/
def isFileNumber (i : Int) : Bool :=
  let limit : Int := Nat.pow 2 31
  i < limit && -i ≤ limit

/-- The path to write to; in place of one there may be the number of an open file, but none is
open. -/
def writePath (v : Value) : Except Failure String :=
  match fileNumber? v with
  | some i =>
      if isFileNumber i then .error (.fileNumber (if i < 0 then .negative else .notOpen))
      else .error (.notPath v.kindName)
  | none => v.asPath

/-- Write a result to a file, if there is one, or else print it. -/
def deliver (text : String) (file : Value) : Work Unit :=
  if file.truthy then do
    let path ← Work.ofExcept (writePath file)
    Work.writeFile path text
    Work.print s!"Results written to {path}"
  else Work.print text

/-- What a target is: a path, or a value that stands for the number of an open file. -/
inductive Target where
  | named (path : String)
  | number (v : Value) (i : Int)

namespace Target

/-- What a value is as a target; values that are neither text nor a number are no targets. -/
def ofValue (v : Value) : Except Failure Target :=
  match v, fileNumber? v with
  | .text s, _ => .ok (.named s)
  | v, some i =>
      if isFileNumber i then .ok (.number v i)
      else .error (.fileNumber (if i < 0 then .tooSmall else .tooLarge))
  | v, none => .error (.notStatable v.kindName)

/-- The path of a target; a number has none. -/
def asPath : Target → Except Failure String
  | .named path => .ok path
  | .number v _ => .error (.notPath v.kindName)

/-- The numbers of the streams that a program starts with. -/
def isStream (i : Int) : Bool := 0 ≤ i && i ≤ 2

/-- What to scan; only the standard streams are open, and they have no path. -/
def toScan : Target → Except Failure String
  | .named path => .ok path
  | .number v i =>
      .error (if isStream i then .notPath v.kindName else .targetMissing v.display)

def isFile (d : Disk) : Target → Bool
  | .named path => d.isFile path
  | .number .. => false

end Target

/-- The target of a command, or that of the configuration. -/
def targetOf (target : Option String) (c : Config) : Except Failure Target :=
  match nonempty? target with
  | some path => .ok (.named path)
  | none => Target.ofValue c.target

/-! ## Commands -/

def scanTarget (s : Surroundings) (settings : ScanSettings) (target : Target) :
    Work ProjectReport := do
  let path ← .ofExcept target.toScan
  let d ← Work.disk
  .ofTraced (Scan.scan s.grammar d settings s.clock path)

def runAnalyze (s : Surroundings) (a : Analyze) : Work Int := do
  let c ← loadConfig a.config a.target
  let settings := match a.jobs with
    | .null => c.scanSettings
    | jobs => { c.scanSettings with maxWorkers := jobs }
  let name ← .ofExcept (formatName a.format c)
  let format ← .ofExcept (formatOf s.terminal name)
  let format ← .ofExcept (adapt c a.plain a.verbose format)
  let target ← .ofExcept (targetOf a.target c)
  let d ← Work.disk
  let text ← if target.isFile d then do
      let write ← .ofExcept format.fileWriter
      let path ← .ofExcept target.asPath
      let report ← .ofTraced (Scan.analyzeFile s.grammar d path)
      Work.ofExcept (write report)
    else do
      if a.verbose && name.same (.text "text") then
        let path ← Work.ofExcept target.asPath
        Work.print s!"Analyzing {Path.absolute d.cwd path}..."
      let write ← .ofExcept format.projectWriter
      Work.ofExcept (write (← scanTarget s settings target))
  let file ← if a.output.truthy then pure a.output
    else .ofExcept (outputSetting c "output_file" (·.outputFile))
  deliver text file
  return 0

/-- The diagram of the function that a command asks for. -/
def findDiagram (s : Surroundings) (content : String) (g : Graph) : Work (Option Diagram) :=
  match g.function, g.line with
  | .text name, .num (.int line) =>
      .ofTraced (Analysis.findDiagram s.grammar content name line g.file)
  | name, line => do
      let _ ← Work.ofTraced (Analysis.parse s.grammar content g.file none)
      .ofTraced (Analysis.missing name.display line.display g.file)

def runGraph (s : Surroundings) (g : Graph) : Work Int := do
  let d ← Work.disk
  let content ← .ofExcept (d.readText g.file)
  match ← findDiagram s content g with
  | none =>
      let place := s!"Function '{g.function.display}' at line {g.line.display}"
      Work.complain
        (place ++ s!" not found in {g.file}. The file may have changed since it was analyzed.")
      return 1
  | some diagram =>
      let format ← .ofExcept (formatOf s.terminal g.format)
      let format := match format with
        | .text colour _ => Format.text (colour && !g.plain) g.verbose
        | f => f
      let text ← .ofExcept (format.renderDiagram diagram none)
      deliver text g.output
      return 0

def runExport (s : Surroundings) (e : Export) : Work Int := do
  let c ← loadConfig e.config e.target
  let target ← .ofExcept (targetOf e.target c)
  let report ← scanTarget s c.scanSettings target
  let threshold := match e.threshold with
    | .null => c.exportThreshold
    | v => v
  let directory := orElse e.directory c.exportDirectory
  let written ← Work.change fun d => Metrics.exportProject d report threshold directory s.now
  if written.isEmpty then Work.print "No functions exceeded the export threshold."
  else Work.print s!"Exported {written.length} metric file(s) to {directory.display}"
  for error in report.errors do
    Work.complain ("Warning: " ++ error)
  return 0

def configFile : String := ".complexityscanner.yaml"

def runInit (i : Initialize) : Work Int := do
  let d ← Work.disk
  if d.exists? configFile && !i.force then
    Work.print s!"Configuration file {configFile} already exists."
    Work.print "Use --force to overwrite."
    return 1
  Work.writeFile configFile Config.standardText
  Work.print s!"Created configuration file: {configFile}"
  return 0

def work (s : Surroundings) : Invocation → Work Int
  | .analyze a => runAnalyze s a
  | .graph g => runGraph s g
  | .export e => runExport s e
  | .init i => runInit i

/-- The outcome of a failure, after what was written before it. -/
def failed (s : Surroundings) (name : String) (verbose : Bool) (before : Outcome) (e : Failure) :
    Outcome :=
  match e with
  | .interrupted => { before with output := before.output ++ "\nAnalysis interrupted.\n", code := some 130 }
  | .unavailable _ => { before with code := none, raised := some e }
  | _ =>
      let errors := before.errors ++ Work.shown verbose [.commandFailed name] ++
        s!"Error: {e.message}\n"
      if s.debug then { before with errors, code := none, raised := some e }
      else { before with errors, code := some 1 }

/-- Only the last line of what is said on a misuse is shown. -/
def misuseLine (name message : String) : String :=
  ((Lines.split s!"{name}: error: {message}\n").getLast?).getD ""

/-- Run the program with its arguments. -/
def run (s : Surroundings) (d : Disk) (args : List String) : Outcome :=
  match read args with
  | .error (.help name) => { disk := d, output := helpOf name }
  | .error .version => { disk := d, output := versionText }
  | .error (.misuse name message) =>
      { disk := d, errors := misuseLine name message, code := some 2 }
  | .ok none => { disk := d, output := topHelp }
  | .ok (some invocation) =>
      let step := work s invocation invocation.verbose d
      let before : Outcome := { disk := step.disk, output := step.output, errors := step.errors }
      match step.result with
      | .ok code => { before with code := some code }
      | .error e => failed s invocation.name invocation.verbose before e

end Cyclomatic.Command
