import Cyclomatic.Diagram.Basic

/-! # Diagrams as drawing programs read them

Two notations: Graphviz, one statement a line between braces, and Mermaid.
Labels are quoted; in Graphviz a backslash escapes quotes, backslashes and
line feeds.
-/

namespace Cyclomatic.Diagram

namespace Dot

def escapeChar (c : Char) : List Char :=
  if c = '\\' then ['\\', '\\']
  else if c = '"' then ['\\', '"']
  else if c = '\n' then ['\\', 'n']
  else [c]

def escape (s : String) : String := String.ofList (s.toList.flatMap escapeChar)

def labelled (s : String) : String := "label=\"" ++ escape s ++ "\""

def nodeStyle : NodeKind → String
  | .entry => ", shape=ellipse, style=filled, fillcolor=\"#ccffcc\""
  | .exit => ", shape=ellipse, style=filled, fillcolor=\"#ffcccc\""
  | .decision => ", shape=diamond"
  | .process => ""

def edgeStyle (label : String) : String :=
  if label = Flow.trueLabel then ", color=green, fontcolor=green"
  else if label = Flow.falseLabel then ", color=red, fontcolor=red"
  else if label = Flow.loopLabel then ", style=dashed, color=blue, fontcolor=blue"
  else ""

/-- A node's label, and below it its code if that is asked for. -/
def nodeLabel (showCode : Bool) (n : Node) : String :=
  match showCode, nonempty? n.code with
  | true, some code => n.label ++ "\n" ++ code
  | _, _ => n.label

def nodeLine (showCode : Bool) (n : Node) : String :=
  s!"  {n.id} [{labelled (nodeLabel showCode n)}{nodeStyle n.kind}];"

def edgeLine (e : Edge) : String :=
  s!"  {e.source} -> {e.target} [{labelled e.label}{edgeStyle e.label}];"

/-- The title that is asked for, or else the function's name; an empty one does not count. -/
def titleOf (title : Option String) (d : Diagram) : Option String :=
  (nonempty? title).or (nonempty? d.functionName)

def titleLine (title : String) : String := "  " ++ labelled title ++ ";"

def lines (showCode : Bool) (title : Option String) (d : Diagram) : List String :=
  ["digraph CFG \x7b"] ++ ((titleOf title d).map titleLine).toList ++
    ["  node [shape=box, fontname=monospace, fontsize=10];"] ++
    d.nodes.map (nodeLine showCode) ++ d.edges.map edgeLine ++ ["\x7d"]

def render (showCode : Bool) (title : Option String) (d : Diagram) : String :=
  "\n".intercalate (lines showCode title d)

end Dot

namespace Mermaid

def escapeChar (c : Char) : List Char :=
  if c = '"' then "#quot;".toList else if c = '\n' then "<br/>".toList else [c]

def escape (s : String) : String := String.ofList (s.toList.flatMap escapeChar)

def nodeLine (n : Node) : String :=
  let label := "\"" ++ escape n.label ++ "\""
  match n.kind with
  | .decision => s!"    {n.id}\x7b{label}\x7d"
  | .entry | .exit => s!"    {n.id}([{label}])"
  | .process => s!"    {n.id}[{label}]"

def edgeLine (e : Edge) : String :=
  if e.label.isEmpty then s!"    {e.source} --> {e.target}"
  else "    " ++ e.source ++ " -->|\"" ++ escape e.label ++ "\"| " ++ e.target

def render (d : Diagram) : Except QueryError String := do
  let entry ← d.entry
  let exit ← d.exit
  return "\n".intercalate
    (["graph TD"] ++ d.nodes.map nodeLine ++ d.edges.map edgeLine ++
      [s!"    style {entry.id} fill:#90EE90", s!"    style {exit.id} fill:#FFB6C1"])

end Mermaid

end Cyclomatic.Diagram
