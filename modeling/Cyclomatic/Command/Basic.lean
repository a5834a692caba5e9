import Cyclomatic.Command.Help
import Cyclomatic.Format

/-! # Commands

The program has four commands. Reading its arguments gives one of them, or no
command, or a reason to stop. What a switch was not given is null.
-/

namespace Cyclomatic.Command

structure Analyze where
  target : Option String := none
  config : Value := .null
  format : Value := .null
  output : Value := .null
  jobs : Value := .null
  plain : Bool := false
  verbose : Bool := false

structure Graph where
  file : String
  function : Value
  line : Value
  format : Value := .text "text"
  output : Value := .null
  plain : Bool := false
  verbose : Bool := false

structure Export where
  target : Option String := none
  config : Value := .null
  threshold : Value := .null
  directory : Value := .null
  verbose : Bool := false

structure Initialize where
  force : Bool := false
  deriving DecidableEq, Repr

inductive Invocation where
  | analyze (a : Analyze)
  | graph (g : Graph)
  | export (e : Export)
  | init (i : Initialize)

namespace Invocation

def name : Invocation → String
  | .analyze _ => "analyze"
  | .graph _ => "graph"
  | .export _ => "export"
  | .init _ => "init"

def verbose : Invocation → Bool
  | .analyze a => a.verbose
  | .graph g => g.verbose
  | .export e => e.verbose
  | .init _ => false

end Invocation

/-! ## Usages -/

def program : String := "complexityscanner"

def helpSwitch : Switch := ⟨["-h", "--help"], "help", .help, false⟩
def configSwitch : Switch := ⟨["-c", "--config"], "config", .store .text, false⟩
def outputSwitch : Switch := ⟨["-o", "--output"], "output", .store .text, false⟩
def plainSwitch : Switch := ⟨["--no-color"], "no_color", .flag, false⟩
def verboseSwitch : Switch := ⟨["-v", "--verbose"], "verbose", .flag, false⟩

def formatSwitch (names : List String) : Switch :=
  ⟨["-f", "--format"], "format", .store (.choice names), false⟩

def commandNames : List String := ["analyze", "graph", "export", "init"]

def topUsage : Usage where
  program := program
  operand := some ⟨"command", .rest commandNames⟩
  switches := [helpSwitch, ⟨["--version"], "version", .version, false⟩]

def analyzeUsage : Usage where
  program := program ++ " analyze"
  operand := some ⟨"target", .optional⟩
  switches := [helpSwitch, configSwitch, formatSwitch Format.resultNames, outputSwitch,
    ⟨["-j", "--jobs"], "jobs", .store .integer, false⟩, plainSwitch, verboseSwitch]

def graphUsage : Usage where
  program := program ++ " graph"
  operand := some ⟨"file", .one⟩
  switches := [helpSwitch, ⟨["--function"], "function", .store .text, true⟩,
    ⟨["--line"], "line", .store .integer, true⟩, formatSwitch Format.diagramNames, outputSwitch,
    plainSwitch, verboseSwitch]

def exportUsage : Usage where
  program := program ++ " export"
  operand := some ⟨"target", .optional⟩
  switches := [helpSwitch, configSwitch, ⟨["--threshold"], "threshold", .store .real, false⟩,
    ⟨["--directory"], "directory", .store .text, false⟩, verboseSwitch]

def initUsage : Usage where
  program := program ++ " init"
  switches := [helpSwitch, ⟨["-f", "--force"], "force", .flag, false⟩]

/-- The help that a usage shows. -/
def helpOf (name : String) : String :=
  if name = analyzeUsage.program then analyzeHelp
  else if name = graphUsage.program then graphHelp
  else if name = exportUsage.program then exportHelp
  else if name = initUsage.program then initHelp
  else topHelp

/-! ## Reading -/

def readAnalyze (p : Usage.Progress) : Invocation :=
  .analyze
    { target := p.text? "target", config := p.value "config", format := p.value "format"
      output := p.value "output", jobs := p.value "jobs", plain := p.flag "no_color"
      verbose := p.flag "verbose" }

def readGraph (p : Usage.Progress) : Invocation :=
  .graph
    { file := (p.text? "file").getD "", function := p.value "function", line := p.value "line"
      format := (p.get? "format").getD (.text "text"), output := p.value "output"
      plain := p.flag "no_color", verbose := p.flag "verbose" }

def readExport (p : Usage.Progress) : Invocation :=
  .export
    { target := p.text? "target", config := p.value "config", threshold := p.value "threshold"
      directory := p.value "directory", verbose := p.flag "verbose" }

/-- The usage of a command and how its values make an invocation. -/
def command? : String → Option (Usage × (Usage.Progress → Invocation))
  | "analyze" => some (analyzeUsage, readAnalyze)
  | "graph" => some (graphUsage, readGraph)
  | "export" => some (exportUsage, readExport)
  | "init" => some (initUsage, fun p => .init ⟨p.flag "force"⟩)
  | _ => none

/-- The name of the command and its own arguments. -/
def commandOf (p : Usage.Progress) : List String :=
  match p.get? "command" with
  | some (.list items) => items.map (·.display)
  | _ => []

def rejectExtras {α : Type} (extras : List String) (a : α) : Except Stop α :=
  if extras.isEmpty then .ok a
  else
    let list := " ".intercalate extras
    topUsage.misuse s!"unrecognized arguments: {list}"

/-- Read the arguments of the program; none of them name a command if there is none. -/
def read (args : List String) : Except Stop (Option Invocation) := do
  let top ← topUsage.parse args
  match commandOf top with
  | name :: rest =>
      match command? name with
      | some (usage, make) =>
          let p ← usage.parse rest
          rejectExtras (top.extras ++ p.extras) (some (make p))
      | none => rejectExtras top.extras none
  | [] => rejectExtras top.extras none

end Cyclomatic.Command
