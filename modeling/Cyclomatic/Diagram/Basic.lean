import Cyclomatic.Flow.Build
import Cyclomatic.Value.Json

/-! # Diagrams

A diagram is a graph as it is shown and queried: its nodes have names and
labels, and it may say which function of which file it belongs to. Every
control-flow graph has a diagram, whose nodes are named by their numbers.
-/

namespace Cyclomatic

namespace Diagram

inductive NodeKind where
  | entry
  | decision
  | process
  | exit
  deriving DecidableEq, Repr

namespace NodeKind

def all : List NodeKind := [.entry, .decision, .process, .exit]

def toText : NodeKind → String
  | .entry => "entry"
  | .decision => "decision"
  | .process => "process"
  | .exit => "exit"

def ofText? (s : String) : Option NodeKind := all.find? (·.toText == s)

end NodeKind

structure Node where
  id : String
  label : String
  kind : NodeKind
  range : Option Range := none
  line : Option Int := none
  endLine : Option Int := none
  code : Option String := none
  isBlock : Bool := false
  deriving DecidableEq, Repr

structure Edge where
  source : String
  target : String
  label : String := ""
  deriving DecidableEq, Repr

end Diagram

structure Diagram where
  nodes : List Diagram.Node
  edges : List Diagram.Edge
  functionName : Option String := none
  filePath : Option String := none
  deriving DecidableEq, Repr

namespace Diagram

/-- Why a query has no answer. -/
inductive QueryError where
  | noSuchNode (id : String)
  | noEntry
  | noExit
  deriving DecidableEq, Repr

variable (d : Diagram)

def node (id : String) : Except QueryError Node :=
  match d.nodes.find? (·.id = id) with
  | some n => .ok n
  | none => .error (.noSuchNode id)

def entry : Except QueryError Node :=
  match d.nodes.find? (·.kind = .entry) with
  | some n => .ok n
  | none => .error .noEntry

def exit : Except QueryError Node :=
  match d.nodes.find? (·.kind = .exit) with
  | some n => .ok n
  | none => .error .noExit

def successors (id : String) : List String := (d.edges.filter (·.source = id)).map (·.target)

def predecessors (id : String) : List String := (d.edges.filter (·.target = id)).map (·.source)

def blocks : List Node := d.nodes.filter (·.isBlock)

def decisions : List Node := d.nodes.filter (·.kind = .decision)

/-! ## The diagram of a graph -/

def vertexName (i : Nat) : String := "node_" ++ toString i

def processLabel : String := "BB-PROCESS"

def ofVertex (i : Nat) : Flow.Vertex → Node
  | .entry => { id := vertexName i, label := "ENTRY", kind := .entry }
  | .exit => { id := vertexName i, label := "EXIT", kind := .exit }
  | .decision caption site code =>
      { id := vertexName i, label := s!"{caption.toText} (L{site.line})", kind := .decision
        range := site.range, line := site.line, endLine := site.endLine, code }
  | .operand site code =>
      { id := vertexName i, label := s!"{processLabel} (L{site.line})", kind := .process
        range := site.range, line := site.line, endLine := site.endLine, code }
  | .block site code =>
      { id := vertexName i, label := s!"{processLabel} (L{site.line}-L{site.endLine})"
        kind := .process, range := site.range, line := site.line, endLine := site.endLine, code
        isBlock := true }

def ofEdge (e : Flow.Edge) : Edge := ⟨vertexName e.source, vertexName e.target, e.label⟩

def ofGraph (g : Flow.Graph) (functionName filePath : Option String) : Diagram where
  nodes := g.vertices.map fun (i, v) => ofVertex i v
  edges := g.edges.map ofEdge
  functionName
  filePath

/-! ## As data -/

def Node.toValue (n : Node) : Value :=
  .record
    [("id", .text n.id), ("label", .text n.label), ("kind", .text n.kind.toText),
     ("range", match n.range with
      | some r => .list [.int r.start, .int r.stop]
      | none => .null),
     ("line", .ofInt? n.line), ("end_line", .ofInt? n.endLine), ("code", .ofText? n.code),
     ("is_basic_block", .bool n.isBlock)]

def Edge.toValue (e : Edge) : Value :=
  .record [("from", .text e.source), ("to", .text e.target), ("label", .text e.label)]

def toValue : Value :=
  .record
    [("function_name", .ofText? d.functionName), ("file_path", .ofText? d.filePath),
     ("nodes", .list (d.nodes.map (·.toValue))), ("edges", .list (d.edges.map (·.toValue)))]

def toJson (indent : Option Int) : String := Json.write (.ofIndent indent) d.toValue

end Diagram

end Cyclomatic
