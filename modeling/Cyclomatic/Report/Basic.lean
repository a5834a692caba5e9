import Cyclomatic.Report.Risk
import Cyclomatic.Tree.Functions

/-! # Reports

What an analysis says about one file and about a project. Averages are exact
quotients, rounded once; reports show them with two digits.
-/

namespace Cyclomatic

namespace FunctionSummary

def risk (f : FunctionSummary) : Risk := Risk.ofComplexity f.complexity

def toValue (f : FunctionSummary) : Value :=
  .record
    [("name", .text f.name), ("line", .int f.line), ("end_line", .int f.endLine),
     ("complexity", .int f.complexity)]

end FunctionSummary

/-- The sum of complexities. -/
def totalComplexity (fs : List FunctionSummary) : Int := fs.foldl (· + ·.complexity) 0

/-- The mean complexity; of no functions it is the integer zero. -/
def averageComplexity (fs : List FunctionSummary) : Except Failure Num :=
  if fs.isEmpty then .ok (.int 0) else orFail (Num.quotient (totalComplexity fs) fs.length)

/-- The average as reports show it. -/
def shownAverage (fs : List FunctionSummary) : Except Failure Num :=
  return (← averageComplexity fs).roundPlaces 2

/-- The greatest complexity, zero of no functions. -/
def maxComplexity : List FunctionSummary → Int
  | [] => 0
  | f :: fs => fs.foldl (fun acc g => max acc g.complexity) f.complexity

/-- The report of one file. A file that could not be read or parsed has an
error and no functions. -/
structure FileReport where
  path : String
  functions : List FunctionSummary := []
  language : Option String := none
  error : Option String := none
  deriving DecidableEq, Repr

namespace FileReport

def failed (r : FileReport) : Bool := r.error.isSome

def toValue (r : FileReport) : Except Failure Value := do
  let average ← shownAverage r.functions
  return .record <|
    [("file_path", .text r.path), ("language", .ofText? r.language),
     ("total_functions", .nat r.functions.length),
     ("total_complexity", .int (totalComplexity r.functions)),
     ("average_complexity", .num average),
     ("functions", .list (r.functions.map (·.toValue)))] ++
    ((nonempty? r.error).map fun e => ("error", .text e)).toList

def toJson (indent : Option Int) (r : FileReport) : Except Failure String :=
  return Json.write (.ofIndent indent) (← r.toValue)

end FileReport

structure ProjectReport where
  files : List FileReport
  filesAnalyzed : Num
  elapsed : Num := .real .zero
  errors : List String := []
  high : Value := .int Risk.defaultHigh
  veryHigh : Value := .int Risk.defaultVeryHigh

namespace ProjectReport

variable (r : ProjectReport)

/-- Every function with the path of its file. -/
def located : List (String × FunctionSummary) :=
  r.files.flatMap fun file => file.functions.map (file.path, ·)

def functions : List FunctionSummary := r.files.flatMap (·.functions)

def riskOf (f : FunctionSummary) : Except Failure Risk :=
  Risk.judge (.int f.complexity) r.high r.veryHigh

def countRisk (risk : Risk) : Except Failure Nat :=
  return (← r.functions.mapM r.riskOf).count risk

def riskCounts : Except Failure (List (String × Value)) :=
  Risk.all.mapM fun risk => return (risk.toText, .nat (← r.countRisk risk))

/-- The report as data, with or without the list of errors. -/
def toValue (withErrors : Bool) : Except Failure Value := do
  let average ← shownAverage r.functions
  let counts ← r.riskCounts
  let files ← r.files.mapM (·.toValue)
  return .record <|
    [("summary", .record
      [("files_analyzed", .num r.filesAnalyzed), ("elapsed_seconds", .num r.elapsed),
       ("total_functions", .nat r.functions.length),
       ("total_complexity", .int (totalComplexity r.functions)),
       ("average_complexity", .num average), ("by_risk", .record counts)]),
     ("files", .list files)] ++ if withErrors then [("errors", .texts r.errors)] else []

def toJson (indent : Option Int) (withErrors : Bool) : Except Failure String :=
  return Json.write (.ofIndent indent) (← r.toValue withErrors)

end ProjectReport

end Cyclomatic
