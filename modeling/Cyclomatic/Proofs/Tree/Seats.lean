import Cyclomatic.Proofs.Tree.Reached

/-! # Seats of a function's body

A node of a function's body is laid down by what it stands as, whatever its kind
is: a case is known by its place among the cases of a multiway branch, a handler
by its place behind a guarded block. The seats of a body are its nodes with what
they stand as, from the body down to the smallest parts that are laid down on
their own.
-/

namespace Cyclomatic

namespace Range

/-- The one range is part of the other. -/
def Inside (r s : Range) : Prop := s.start ≤ r.start ∧ r.stop ≤ s.stop

/-- The one range ends before the other starts, or right there. -/
def Precedes (r s : Range) : Prop := r.stop ≤ s.start

instance (r s : Range) : Decidable (r.Inside s) :=
  inferInstanceAs (Decidable (s.start ≤ r.start ∧ r.stop ≤ s.stop))

instance (r s : Range) : Decidable (r.Precedes s) :=
  inferInstanceAs (Decidable (r.stop ≤ s.start))

end Range

/-- What a node stands as. -/
inductive Position where
  | statement
  | case
  | handler
  /-- An alternative of a ternary, or the ternary that is all there is to a statement. -/
  | operand
  deriving DecidableEq, Repr

/-- A node with what it stands as. -/
structure Seat where
  node : Tree
  position : Position

namespace Seat

def all (p : Position) (ts : List Tree) : List Seat := ts.map (⟨·, p⟩)

/-- The alternatives of a ternary. -/
def alternatives (t : Tree) : List Seat :=
  all .operand (t.consequent.toList ++ t.alternate.toList)

/-- What is laid down as part of a statement. -/
def belowStatement (t : Tree) : List Seat :=
  match t.kind with
  | .block => all .statement t.statements
  | .branch => all .statement (t.consequent.toList ++ t.alternate.toList)
  | .whileLoop | .doLoop | .forLoop => all .statement t.body.toList
  | .ternary => alternatives t
  | .switch => all .case t.cases
  | .guarded => all .statement t.body.toList ++ all .handler t.handler.toList ++
      all .statement t.finalizer.toList
  | .plain => all .operand t.choice?.toList
  | _ => []

/-- What is laid down as part of a seat, in the order in which it is laid down. -/
def next (x : Seat) : List Seat :=
  match x.position with
  | .statement => belowStatement x.node
  | .case => all .statement x.node.statements
  | .handler => all .statement x.node.body.toList
  | .operand => if x.node.kind = .ternary then alternatives x.node else []

@[simp] theorem total_all (p : Position) (ts : List Tree) :
    total (·.node.size) (all p ts) = total Tree.size ts := by
  rw [all, total_map]

/-- A node is larger than all that can be laid down as part of it. -/
theorem total_slots_lt (t : Tree) :
    total Tree.size (t.consequent.toList ++ t.alternate.toList) +
      total Tree.size (t.body.toList ++ t.handler.toList ++ t.finalizer.toList) +
      total Tree.size (t.statements ++ t.cases ++ t.operands) < t.size := by
  obtain ⟨head, c, q, a, b, h, f, v, ss, cs, os⟩ := t
  simp only [Tree.size, Tree.sizeOption_eq, Tree.sizeList_eq, total_append, Tree.consequent,
    Tree.alternate, Tree.body, Tree.handler, Tree.finalizer, Tree.statements, Tree.cases,
    Tree.operands]
  omega

/-- The ternary that a plain statement is all about is among its operands. -/
theorem total_choice?_le (t : Tree) (hkind : t.kind = .plain) :
    total Tree.size t.choice?.toList ≤ total Tree.size t.operands := by
  rw [Tree.choice?, hkind]
  dsimp only
  split
  next u hu =>
    rw [hu]
    split <;> simp
  next => simp

/-- What is laid down as part of a seat is smaller than the seat, all together. -/
theorem total_next_lt (x : Seat) : total (·.node.size) x.next < x.node.size := by
  have hslots := total_slots_lt x.node
  have hchoice := total_choice?_le x.node
  simp only [total_append] at hslots
  unfold next
  split
  next =>
    unfold belowStatement
    split <;> simp only [alternatives, total_append, total_all, total] <;> grind
  next =>
    rw [total_all]
    omega
  next =>
    rw [total_all]
    omega
  next =>
    split
    next =>
      rw [alternatives, total_all, total_append]
      omega
    next =>
      rw [total]
      omega

def descent : Descent Seat where
  next := next
  size x := x.node.size
  shrinks := total_next_lt

/-- The nodes that are laid down as part of a seat. -/
def parts (x : Seat) : List Tree := x.next.map (·.node)

@[simp] theorem map_node_all (p : Position) (ts : List Tree) :
    (all p ts).map (·.node) = ts := by
  simp [all, Function.comp_def]

theorem forall_mem_all {p : Position} {ts : List Tree} {P : Seat → Prop} :
    (∀ x ∈ all p ts, P x) ↔ ∀ t ∈ ts, P ⟨t, p⟩ :=
  List.forall_mem_map

/-- What is laid down as part of a seat stands inside it, one node after the other. -/
structure Tidy (x : Seat) : Prop where
  inside : ∀ t ∈ x.parts, t.range.Inside x.node.range
  ordered : x.parts.Pairwise fun t u => t.range.Precedes u.range

instance (x : Seat) : Decidable x.Tidy :=
  decidable_of_iff ((∀ t ∈ x.parts, t.range.Inside x.node.range) ∧
      x.parts.Pairwise fun t u => t.range.Precedes u.range)
    ⟨fun h => ⟨h.1, h.2⟩, fun h => ⟨h.inside, h.ordered⟩⟩

/-- What is outlined for a seat. A statement that is but a step of a run has no outline. -/
def phrase (x : Seat) : Tree.Phrase :=
  match x.position with
  | .statement => .statement x.node
  | .case => .statements x.node.statements
  | .handler => .handler (some x.node)
  | .operand => .operand (some x.node)

end Seat

namespace Tree

/-- The seats of a function's body. -/
def seats (t : Tree) : List Seat :=
  t.body.toList.flatMap fun b => Seat.descent.walk ⟨b, .statement⟩

/-- Every seat of a function's body is tidy. -/
def InOrder (t : Tree) : Prop := ∀ x ∈ t.seats, x.Tidy

instance (t : Tree) : Decidable t.InOrder := inferInstanceAs (Decidable (∀ x ∈ t.seats, x.Tidy))

end Tree

end Cyclomatic
