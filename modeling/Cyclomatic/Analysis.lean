import Cyclomatic.Diagram.Basic
import Cyclomatic.Parsed
import Cyclomatic.Report.Basic

/-! # Analysis of one source

A source is parsed in the language that is asked for, or else the one its path
tells, or else TypeScript. Source that does not parse still has a report: one
without functions that gives the error.
-/

namespace Cyclomatic.Analysis

/-- The path of a source that has none. -/
def standardInput : String := "<stdin>"

def languageName (path : String) (language : Option String) : Option String :=
  (nonempty? language).or ((Language.detect? path).map (·.toText))

def parse (grammar : Grammar) (content path : String) (language : Option String) : Traced Parsed :=
  let name := (languageName path language).getD Language.typescript.toText
  match Language.ofName? name with
  | some _ => Parsed.ofSource grammar Parsed.standardFallback content path
  | none => .fail (.unsupportedLanguage name)

def report (p : Parsed) : FileReport where
  path := p.path
  functions := p.tree.functionSummaries
  language := some p.language.toText

/-- The report of a source; only a syntax error has a report of its own. -/
def analyze (grammar : Grammar) (content path : String) (language : Option String) :
    Traced FileReport :=
  let parsed := parse grammar content path language
  match parsed.result with
  | .ok p =>
      let r := report p
      ⟨parsed.events ++ [.analyzed path r.functions.length], .ok r⟩
  | .error (.syntaxError place line) =>
      let reason := Failure.message (.syntaxError place line)
      ⟨parsed.events ++ [.unparsable path reason],
        .ok { path, language := languageName path language, error := some reason }⟩
  | .error e => ⟨parsed.events, .error e⟩

def findFunction (grammar : Grammar) (content name : String) (line : Int) (path : String) :
    Traced (Option Tree) := do
  let p ← parse grammar content path none
  return p.tree.findFunction? name line

/-- The notes on an outline: those before a decision that has no caption. -/
def noticeEvents : List Outline.Notice → List Event
  | .skipped count line :: rest => .unreachable count line :: noticeEvents rest
  | .uncaptioned _ :: _ | [] => []

/-- The diagram of a function, with a note for each run of statements that no path reaches. -/
def diagram (source : Bytes) (function : Tree) (name path : Option String) : Traced Diagram :=
  ⟨noticeEvents (Outline.ofFunction function).notices,
    match Flow.Graph.ofFunction source function with
    | .ok g => .ok (Diagram.ofGraph g name path)
    | .error kind => .error (.uncaptioned kind)⟩

/-- There is no such function, and so no diagram of it. -/
def missing (name line path : String) : Traced (Option Diagram) := do
  Traced.note (.functionMissing name line path)
  return none

/-- The diagram of the function of that name that starts on that line. -/
def findDiagram (grammar : Grammar) (content name : String) (line : Int) (path : String) :
    Traced (Option Diagram) := do
  let p ← parse grammar content path none
  match p.tree.findFunction? name line with
  | some function => return some (← diagram p.source function name path)
  | none => missing name (toString line) path

end Cyclomatic.Analysis
