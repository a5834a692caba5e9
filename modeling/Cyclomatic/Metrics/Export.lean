import Cyclomatic.Event
import Cyclomatic.Files.Basic
import Cyclomatic.Metrics.Record
import Cyclomatic.Report.Basic

/-! # Export of metric records

Each record goes to its file in the export directory. A file that is there
already keeps its content, and the record follows after a separator.
-/

namespace Cyclomatic.Metrics

def standardDirectory : String := "complexity-metrics"

def separator : String := "------------------------------"

/-- The functions to export, with the paths of their files. -/
def selected (files : List FileReport) (threshold : Num) : List (String × FunctionSummary) :=
  (files.flatMap fun file => file.functions.map (file.path, ·)).filter fun (_, f) =>
    exceeds (.int f.complexity) threshold

/-- The content of a record's file, given what it held before. -/
def append (previous : Option String) (record : String) : String :=
  match previous with
  | some text => text ++ "\n" ++ separator ++ "\n" ++ record
  | none => record

def writeRecord (d : Disk) (path : String) (r : Record) : Except Failure Disk := do
  let previous ← match ← d.probe path with
    | some _ => some <$> d.readStrict path
    | none => pure none
  d.writeText path (append previous r.render)

/-- Write records one after the other. The disk keeps those before a fault. -/
def writeAll : List (String × Record) → Disk → Disk × Traced (List String)
  | [], d => (d, pure [])
  | (target, r) :: rest, d =>
      match writeRecord d target r with
      | .error e => (d, .fail e)
      | .ok d =>
          let (d, more) := writeAll rest d
          (d, do
            Traced.note (.exported target)
            return target :: (← more))

/-- A threshold as notes show it. -/
def shownThreshold (threshold : Num) : String :=
  match threshold.toFixed 2 with
  | .ok s => s
  | .error _ => threshold.toText

/-- What one export is asked for. The clock is read once for each record. -/
structure Batch where
  files : List FileReport
  threshold : Num
  directory : String
  clock : Nat → Moment

namespace Batch

/-- The records to write, each with the path of its file. -/
def records (b : Batch) : List (String × Record) :=
  (selected b.files b.threshold).mapIdx fun i (path, f) =>
    (Path.child b.directory (fileName path f), Record.of path f b.threshold (b.clock i))

/-- Export the records of functions that exceed a threshold; the answer lists the paths. -/
def run (b : Batch) (d : Disk) : Disk × Traced (List String) :=
  match b.records with
  | [] => (d, ⟨[.nothingToExport (shownThreshold b.threshold)], .ok []⟩)
  | records =>
      match d.makeDirectories b.directory with
      | (d, .error e) => (d, .fail e)
      | (d, .ok ()) => writeAll records d

end Batch

/-- The export of the records of files while the clock stands still. -/
def exportFiles (d : Disk) (files : List FileReport) (threshold : Num) (directory : String)
    (now : Moment) : Disk × Traced (List String) :=
  Batch.run { files, threshold, directory, clock := fun _ => now } d

/-- A project's threshold: the one that is given, or its average if that is missing or not
positive. -/
def projectThreshold (r : ProjectReport) (given : Value) : Except Failure Num :=
  match given with
  | .null => averageComplexity r.functions
  | v => do
      if ← orFail (v.compare .atMost (.int 0)) then averageComplexity r.functions
      else
        match v.number? with
        | some n => return n
        | none => averageComplexity r.functions

def exportProject (d : Disk) (r : ProjectReport) (threshold directory : Value) (now : Moment) :
    Disk × Traced (List String) :=
  match projectThreshold r threshold with
  | .error e => (d, .fail e)
  | .ok limit =>
      match directory with
      | .text path => exportFiles d r.files limit path now
      | v =>
          if (selected r.files limit).isEmpty then exportFiles d r.files limit "" now
          else (d, .fail (.notPath v.kindName))

end Cyclomatic.Metrics
