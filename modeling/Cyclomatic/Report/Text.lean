import Cyclomatic.Report.Basic
import Cyclomatic.Text.Styled

/-! # Reports as text

A project's report is a summary and a table with a row for every function; a
file's report is a list of its functions. Colours show the risk.
-/

namespace Cyclomatic

def Risk.ink : Risk → Ink
  | .veryHigh => .red
  | .high => .yellow
  | .low => .green

/-- The level's name in capitals. -/
def Risk.caption (risk : Risk) : String :=
  upperText (risk.toText.map fun c => if c = '_' then ' ' else c)

namespace FileReport

def functionLine (f : FunctionSummary) : Styled :=
  .painted f.risk.ink s!"  [CC: {f.complexity}] {f.name} (Line {f.line})"

def lines (r : FileReport) : Except Failure (List Styled) := do
  let title := Styled.painted .bold ("Complexity analysis: " ++ r.path)
  match nonempty? r.error with
  | some error => return [title, .painted .red ("  Could not parse file: " ++ error)]
  | none =>
      if r.functions.isEmpty then return [title, .bare "  No functions detected in this file."]
      let average ← orFail ((← shownAverage r.functions).toFixed 2)
      return [title, .bare s!"  Total functions:    {r.functions.length}",
        .bare s!"  Average complexity: {average}", .blank] ++ r.functions.map functionLine

def render (colour : Bool) (r : FileReport) : Except Failure String :=
  return Styled.renderLines colour (← r.lines)

end FileReport

namespace ProjectReport

def nameWidth : Nat := 36

/-- A heading between two rules. -/
def banner (ink : Ink) (title : String) : List Styled :=
  [.rule '=' 70, .painted ink title, .rule '=' 70]

def riskLine (r : ProjectReport) (risk : Risk) : Except Failure Styled := do
  let count ← r.countRisk risk
  return [⟨"  ", none⟩, ⟨s!"[{risk.caption}]", some risk.ink⟩, ⟨s!" {count}", none⟩]

def summaryLines (r : ProjectReport) : Except Failure (List Styled) := do
  let average ← orFail ((← shownAverage r.functions).toFixed 2)
  let elapsed ← orFail (r.elapsed.toFixed 2)
  let risks ← [Risk.veryHigh, .high, .low].mapM r.riskLine
  return [.painted .bold "Summary", .rule '-' 40,
    .bare s!"  Files analyzed:     {r.filesAnalyzed.toText}",
    .bare s!"  Total functions:    {r.functions.length}",
    .bare s!"  Average complexity: {average}",
    .bare s!"  Analysis time:      {elapsed}s"] ++ risks ++ [.blank]

def rowLine (r : ProjectReport) (path : String) (f : FunctionSummary) : Except Failure Styled := do
  let risk ← r.riskOf f
  let name := padRight nameWidth (truncate (nameWidth : Nat) truncationMark f.name)
  let score := padLeft 4 (toString f.complexity)
  return .painted risk.ink s!"  {name} {score}  {Path.basename path}:{f.line}"

def tableHead : Styled :=
  .bare ("  " ++ padRight nameWidth "Function" ++ " " ++ padLeft 4 "CC" ++ "  File:Line")

def tableLines (r : ProjectReport) : Except Failure (List Styled) := do
  if r.functions.isEmpty then return [.painted .dim "  No functions detected.", .blank]
  let rows ← r.located.mapM fun (path, f) => r.rowLine path f
  return [.painted .bold "Functions", .rule '-' 70, tableHead] ++ rows ++ [.blank]

def errorLines (r : ProjectReport) : List Styled :=
  if r.errors.isEmpty then []
  else banner .red " ERRORS " ++ r.errors.map (fun e => .bare ("  - " ++ e)) ++ [.blank]

def lines (r : ProjectReport) : Except Failure (List Styled) := do
  let summary ← r.summaryLines
  let table ← r.tableLines
  return [.blank] ++ banner .bold " CYCLOMATIC COMPLEXITY (PROJECT) " ++ [.blank] ++ summary ++
    table ++ r.errorLines

def render (colour : Bool) (r : ProjectReport) : Except Failure String :=
  return Styled.renderLines colour (← r.lines)

end ProjectReport

end Cyclomatic
