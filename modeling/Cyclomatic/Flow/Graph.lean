import Cyclomatic.Flow.Outline

/-! # Control-flow graphs

The graph of one function: an entry, an exit, a vertex for each decision and
one for each straight run of statements. Vertices are numbered from zero, in
the order they are made.
-/

namespace Cyclomatic.Flow

inductive Vertex where
  | entry
  | exit
  | decision (caption : Caption) (site : Site) (code : Option String)
  /-- An alternative of a ternary that is no ternary itself. -/
  | operand (site : Site) (code : String)
  /-- A straight run of statements. -/
  | block (site : Site) (code : String)
  deriving DecidableEq, Repr

structure Edge where
  source : Nat
  target : Nat
  label : String
  deriving DecidableEq, Repr

/-- Labels of edges; the edge to a case is labelled with the text of its test. -/
def trueLabel : String := "T"
def falseLabel : String := "F"
def loopLabel : String := "LOOP"
def returnLabel : String := "Return/End"
def defaultLabel : String := "default"

structure Graph where
  vertices : List (Nat × Vertex)
  edges : List Edge
  deriving DecidableEq, Repr

/-- A vertex from which control goes on, and the label its next edge will have. -/
structure Exit where
  source : Nat
  label : String
  deriving DecidableEq, Repr

/-- The first occurrence of each item, in order. -/
def unique {α : Type} [DecidableEq α] : List α → List α
  | [] => []
  | x :: xs => x :: (unique xs).filter (· ≠ x)

/-- Edges from every exit to one vertex. -/
def connect (exits : List Exit) (target : Nat) : List Edge :=
  exits.map fun e => ⟨e.source, target, e.label⟩

end Cyclomatic.Flow
