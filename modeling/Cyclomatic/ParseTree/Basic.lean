import Cyclomatic.Text.Utf8
import Cyclomatic.Walk

/-! # Parse trees

The tree that a grammar gives for a source: every token is a node, tokens
without a name of their own are anonymous, and a child may stand in a named
field of its parent.
-/

namespace Cyclomatic

/-- A parse node without its children. -/
structure Row where
  type : String
  start : Nat
  stop : Nat
  field : Option String := none
  named : Bool := true
  missing : Bool := false
  deriving DecidableEq, Repr

/-- Whether a node marks a place where the source does not parse. -/
def Row.faulty (r : Row) : Bool := r.type = "ERROR" || r.missing

inductive ParseTree where
  | node (row : Row) (children : List ParseTree)

namespace Bytes

/-- The line and column of an offset, both from zero. Only line feeds end lines,
and an offset past the end counts from the start of the last line. -/
def position (source : Bytes) (offset : Nat) : Nat × Nat :=
  let before := source.take offset
  let lastLine := before.reverse.takeWhile (· ≠ 10)
  (before.count 10, offset - (before.length - lastLine.length))

end Bytes

namespace ParseTree

def row : ParseTree → Row | .node r _ => r
def children : ParseTree → List ParseTree | .node _ cs => cs

mutual

def size : ParseTree → Nat
  | .node _ cs => 1 + sizeList cs

def sizeList : List ParseTree → Nat
  | [] => 0
  | t :: ts => size t + sizeList ts

end

mutual

/-- The count of nodes on the longest way down. -/
def depth : ParseTree → Nat
  | .node _ cs => 1 + depthList cs

def depthList : List ParseTree → Nat
  | [] => 0
  | t :: ts => max (depth t) (depthList ts)

end

theorem sizeList_eq (ts : List ParseTree) : sizeList ts = total size ts := by
  induction ts with
  | nil => rfl
  | cons t ts ih => simp [sizeList, ih]

def descent : Descent ParseTree where
  next := children
  size := size
  shrinks t := by
    cases t with
    | node row cs => simp [children, size, sizeList_eq]

/-- The line, from one, of the first faulty node in source order. -/
def firstFaultLine? (source : Bytes) (t : ParseTree) : Option Nat :=
  ((descent.walk t).find? (·.row.faulty)).map fun n => (source.position n.row.start).1 + 1

/-! ## Rows in source order

A parse tree may be listed as one row per node, a node before its children,
each row with the count of its children.
-/

mutual

/-- The first complete tree of a list of rows. -/
def take? : Nat → List (Row × Nat) → Option (ParseTree × List (Row × Nat))
  | 0, _ => none
  | _ + 1, [] => none
  | fuel + 1, (row, count) :: rows => do
      let (children, rest) ← takeMany? fuel count rows
      return (.node row children, rest)

def takeMany? : Nat → Nat → List (Row × Nat) → Option (List ParseTree × List (Row × Nat))
  | 0, _, _ => none
  | _ + 1, 0, rows => some ([], rows)
  | fuel + 1, count + 1, rows => do
      let (t, rest) ← take? fuel rows
      let (ts, rest) ← takeMany? fuel count rest
      return (t :: ts, rest)

end

/-- The tree that rows list, from the root on. -/
def ofRows? (rows : List (Row × Nat)) : Option ParseTree :=
  (take? (2 * rows.length + 1) rows).map (·.1)

end ParseTree

end Cyclomatic
