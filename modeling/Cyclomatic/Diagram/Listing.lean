import Cyclomatic.Diagram.Basic
import Cyclomatic.Text.Lines
import Cyclomatic.Text.Styled

/-! # Diagrams as listings

A listing shows a title, the nodes in order, the edges in order, and how many
there are of each. The verbose form shows the code of a node below it.
-/

namespace Cyclomatic.Diagram.Listing

def title (d : Diagram) : String :=
  let name := (nonempty? d.functionName).getD "function"
  match nonempty? d.filePath with
  | some path => s!"{name} ({path})"
  | none => name

def nodeInk (n : Node) : Ink := if n.kind = .decision then .cyan else .plain

def codeLines (n : Node) : List Styled :=
  match n.code with
  | some code => (Lines.split code).map fun line => .painted .dim ("             | " ++ line)
  | none => []

def nodeLines (verbose : Bool) (n : Node) : List Styled :=
  [⟨s!"  {padRight 10 n.id} ", none⟩, ⟨n.label, some (nodeInk n)⟩] ::
    (if verbose then codeLines n else [])

def edgeLine (e : Edge) : Styled :=
  .bare (s!"  {e.source} -> {e.target}" ++ if e.label.isEmpty then "" else s!" [{e.label}]")

def totals (d : Diagram) : Styled :=
  .bare s!"  {d.nodes.length} nodes, {d.edges.length} edges, {d.blocks.length} basic blocks"

def lines (verbose : Bool) (d : Diagram) : List Styled :=
  [.painted .bold ("Control-flow graph: " ++ title d), .rule '-' 70] ++
    d.nodes.flatMap (nodeLines verbose) ++ [.blank] ++ d.edges.map edgeLine ++ [.blank, totals d]

def render (colour verbose : Bool) (d : Diagram) : String :=
  Styled.renderLines colour (lines verbose d)

end Cyclomatic.Diagram.Listing
