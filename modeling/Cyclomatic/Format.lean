import Cyclomatic.Diagram.Dot
import Cyclomatic.Diagram.Listing
import Cyclomatic.Report.Text

/-! # Output formats

Reports and diagrams come as text or JSON, diagrams also in the two notations
of drawing programs.
-/

namespace Cyclomatic

inductive Format where
  | text (colour verbose : Bool)
  | json (indent : Option Int) (withErrors : Bool)
  | dot (showCode : Bool)
  | mermaid
  deriving DecidableEq, Repr

namespace Format

def resultNames : List String := ["text", "json"]

def diagramNames : List String := ["text", "json", "dot", "mermaid"]

/-- The format of a name, in any case, with its standard options; text is coloured on a terminal. -/
def ofName (terminal : Bool) (name : String) : Except Failure Format :=
  match lowerText name with
  | "text" | "cli" => .ok (.text terminal false)
  | "json" => .ok (.json (some 2) true)
  | "dot" => .ok (.dot false)
  | "mermaid" => .ok .mermaid
  | _ => .error (.unknownFormat name)

/-- The name of what writes a format, as messages give it. -/
def writerName : Format → String
  | .text .. => "CLIFormatter"
  | .json .. => "JSONFormatter"
  | .dot _ => "DotFormatter"
  | .mermaid => "MermaidFormatter"

/-- How a format writes the report of a project; the notations for diagrams have no way to. -/
def projectWriter : Format → Except Failure (ProjectReport → Except Failure String)
  | .text colour _ => .ok fun r => r.render colour
  | .json indent withErrors => .ok fun r => r.toJson indent withErrors
  | f => .error (.noAttribute f.writerName "format_result")

/-- How a format writes the report of a file. -/
def fileWriter : Format → Except Failure (FileReport → Except Failure String)
  | .text colour _ => .ok fun r => r.render colour
  | .json indent _ => .ok fun r => r.toJson indent
  | f => .error (.noAttribute f.writerName "format_file_result")

def renderProject (r : ProjectReport) (f : Format) : Except Failure String := do
  (← f.projectWriter) r

def renderFile (r : FileReport) (f : Format) : Except Failure String := do
  (← f.fileWriter) r

/-- A diagram in a format; only Graphviz shows a title of its own. -/
def renderDiagram (d : Diagram) (title : Option String) : Format → Except Failure String
  | .text colour verbose => .ok (Diagram.Listing.render colour verbose d)
  | .json indent _ => .ok (d.toJson indent)
  | .dot showCode => .ok (Diagram.Dot.render showCode title d)
  | .mermaid =>
      match Diagram.Mermaid.render d with
      | .ok s => .ok s
      | .error e => .error (.query e)

end Format

end Cyclomatic
