import Cyclomatic.Proofs.Flow.Marks
import Cyclomatic.Proofs.Tree.Outlining
import Cyclomatic.Proofs.Walk
import Cyclomatic.Tree.Walk

/-! # What an outline goes into

The walk over a tree visits every node of it; the outline of a function goes
into some of them, goes straight through others, and leaves the rest aside. A
walk that keeps track of this visits the decisions in the order in which they
are laid down.
-/

namespace Cyclomatic

open Cyclomatic.Flow

/-- How a node stands to the outline of the function around it. -/
inductive Standing where
  /-- A construct, a case or a handler: the outline goes into it. -/
  | entered
  /-- A straight-line statement. -/
  | passed
  | aside
  deriving DecidableEq, Repr

/-- What a slot holds, below a node that an outline goes into. -/
inductive Role where
  | statement
  | clause
  | operand
  | aside
  deriving DecidableEq, Repr

/-- What the slots of a kind hold, where an outline goes into a node of that kind. -/
@[simp] def Kind.role : Kind → Slot → Role
  | .block, .statements | .case, .statements | .branch, .consequent | .branch, .alternate
  | .whileLoop, .body | .doLoop, .body | .forLoop, .body | .guarded, .body
  | .guarded, .finalizer | .handler, .body | .function, .body => .statement
  | .switch, .cases | .guarded, .handler => .clause
  -- A plain statement is gone into only if it is nothing but a ternary.
  | .ternary, .consequent | .ternary, .alternate | .plain, .operands => .operand
  | _, _ => .aside

namespace Tree

/-- How a node stands where statements stand. -/
def standing (t : Tree) : Standing := if t.isStraight then .passed else .entered

/-- How a node stands as an alternative of a ternary. -/
def operandStanding (t : Tree) : Standing := if t.kind = .ternary then .entered else .aside

/-- How a node stands by the role it has. -/
@[simp] def standingAs (t : Tree) : Role → Standing
  | .statement => t.standing
  | .clause => .entered
  | .operand => t.operandStanding
  | .aside => .aside

/-- The cases of a multiway branch are cases, the handler of a guarded block is a handler. -/
structure ClausesInPlace (t : Tree) : Prop where
  cases : t.kind = .switch → ∀ c ∈ t.cases, c.kind = .case
  handler : t.kind = .guarded → ∀ h ∈ t.handler, h.kind = .handler

instance (t : Tree) : Decidable t.ClausesInPlace :=
  decidable_of_iff
    ((t.kind = .switch → ∀ c ∈ t.cases, c.kind = .case) ∧
      (t.kind = .guarded → ∀ h ∈ t.handler, h.kind = .handler))
    ⟨fun h => ⟨h.1, h.2⟩, fun h => ⟨h.cases, h.handler⟩⟩

end Tree

/-- A node on a walk, with how it stands. -/
structure Trail where
  node : Tree
  standing : Standing

namespace Trail

/-- Below a node that is not gone into, nothing is. -/
def next (x : Trail) : List Trail :=
  x.node.branches.map fun (slot, child) =>
    ⟨child, if x.standing = .entered then child.standingAs (x.node.kind.role slot) else .aside⟩

/-- Below a trail are the children of its node, all of them and in order. -/
theorem map_node_next (x : Trail) : x.next.map (·.node) = x.node.children := by
  simp [next, ← Tree.map_snd_branches, Function.comp_def]

def descent : Descent Trail where
  next := next
  size := fun x => x.node.size
  shrinks x := by
    rw [← total_map Tree.size, map_node_next]
    exact x.node.total_size_children_lt

/-- The decision that a node becomes, if the outline goes into it. -/
def mark? (x : Trail) : Option Mark :=
  if x.standing = .entered then (Caption.ofKind? x.node.kind).map (⟨·, x.node.place.site⟩) else none

/-- The decisions from some nodes on. -/
def marks (xs : List Trail) : List Mark := (descent.walkFrom xs).filterMap mark?

/-- From some nodes on, every clause that the outline comes to is in place. -/
def InPlace (xs : List Trail) : Prop :=
  ∀ x ∈ descent.walkFrom xs, x.standing = .entered → x.node.ClausesInPlace

/-- From some nodes on, the outline comes to no statement that leaves the function. -/
def Stays (xs : List Trail) : Prop :=
  ∀ x ∈ descent.walkFrom xs, x.standing = .passed → x.node.head.exits = false

def statements (ts : List Tree) : List Trail := ts.map fun t => ⟨t, t.standing⟩

def operands (ts : List Tree) : List Trail := ts.map fun t => ⟨t, t.operandStanding⟩

def clauses (ts : List Tree) : List Trail := ts.map (⟨·, .entered⟩)

def asides (ts : List Tree) : List Trail := ts.map (⟨·, .aside⟩)

variable {x : Trail} {xs ys : List Trail} {t : Tree} {ts us : List Tree}

@[simp] theorem marks_nil : marks [] = [] := by
  simp [marks]

@[simp] theorem marks_append : marks (xs ++ ys) = marks xs ++ marks ys := by
  simp [marks, Descent.walkFrom_append]

/-- The decisions from a node on: its own, those below it, and those of the nodes that follow. -/
theorem marks_cons : marks (x :: xs) = x.mark?.toList ++ marks x.next ++ marks xs := by
  rw [marks, Descent.walkFrom_cons, List.filterMap_cons, Descent.walkFrom_append,
    List.filterMap_append]
  cases x.mark? <;> simp [marks, descent]

theorem forall_mem_walkFrom_append {P : Trail → Prop} :
    (∀ y ∈ descent.walkFrom (xs ++ ys), P y) ↔
      (∀ y ∈ descent.walkFrom xs, P y) ∧ ∀ y ∈ descent.walkFrom ys, P y := by
  rw [Descent.walkFrom_append, List.forall_mem_append]

/-- What holds from a node on holds of it, of all below it, and of what follows. -/
theorem forall_mem_walkFrom_cons {P : Trail → Prop} :
    (∀ y ∈ descent.walkFrom (x :: xs), P y) ↔
      P x ∧ (∀ y ∈ descent.walkFrom x.next, P y) ∧ ∀ y ∈ descent.walkFrom xs, P y := by
  rw [Descent.walkFrom_cons, List.forall_mem_cons, forall_mem_walkFrom_append]
  rfl

@[simp] theorem inPlace_nil : InPlace [] := by
  simp [InPlace]

@[simp] theorem inPlace_append : InPlace (xs ++ ys) ↔ InPlace xs ∧ InPlace ys :=
  forall_mem_walkFrom_append

/-- Clauses are in place from a node on if its own are, and those below it and behind it. -/
theorem inPlace_cons : InPlace (x :: xs) ↔
    (x.standing = .entered → x.node.ClausesInPlace) ∧ InPlace x.next ∧ InPlace xs :=
  forall_mem_walkFrom_cons

@[simp] theorem stays_nil : Stays [] := by
  simp [Stays]

@[simp] theorem stays_append : Stays (xs ++ ys) ↔ Stays xs ∧ Stays ys :=
  forall_mem_walkFrom_append

/-- Nothing leaves the function from a node on if it does not itself, and nothing below it or
behind it does. -/
theorem stays_cons : Stays (x :: xs) ↔
    (x.standing = .passed → x.node.head.exits = false) ∧ Stays x.next ∧ Stays xs :=
  forall_mem_walkFrom_cons

/-! ## One node that is gone into -/

/-- The decisions of a node that is gone into: its own, if it has a caption, and those below. -/
theorem marks_entered : marks [⟨t, .entered⟩] =
    ((Caption.ofKind? t.kind).map (⟨·, t.place.site⟩)).toList ++ marks (next ⟨t, .entered⟩) := by
  rw [marks_cons, marks_nil, List.append_nil, mark?, if_pos rfl]

theorem inPlace_entered :
    InPlace [⟨t, .entered⟩] ↔ t.ClausesInPlace ∧ InPlace (next ⟨t, .entered⟩) := by
  simp [inPlace_cons]

theorem stays_entered : Stays [⟨t, .entered⟩] ↔ Stays (next ⟨t, .entered⟩) := by
  simp [stays_cons]

@[simp] theorem statements_append :
    statements (ts ++ us) = statements ts ++ statements us := List.map_append

@[simp] theorem statements_cons :
    statements (t :: ts) = ⟨t, t.standing⟩ :: statements ts := rfl

@[simp] theorem statements_nil : statements [] = [] := rfl

/-! ## Nodes that are not gone into -/

/-- Below a node that is not gone into, all stands aside. -/
theorem next_of_ne (hx : x.standing ≠ .entered) : x.next = asides x.node.children := by
  rw [next, asides, ← Tree.map_snd_branches, List.map_map]
  simp [hx, Function.comp_def]

/-- What stands aside is never gone into, and nothing below it is. -/
theorem walkFrom_asides (ts : List Tree) :
    ∀ y ∈ descent.walkFrom (asides ts), y.standing = .aside := by
  rw [Descent.walkFrom_eq_flatMap]
  intro y hy
  obtain ⟨x, hx, hy⟩ := List.mem_flatMap.mp hy
  refine descent.forall_mem_walk (P := fun z => z.standing = .aside) ?_ ?_ y hy
  · obtain ⟨u, _, rfl⟩ := List.mem_map.mp hx
    rfl
  · intro a _ ha b hb
    have hb : b ∈ asides a.node.children := by
      rw [← next_of_ne (by simp [ha])]
      exact hb
    obtain ⟨u, _, rfl⟩ := List.mem_map.mp hb
    rfl

@[simp] theorem marks_asides (ts : List Tree) : marks (asides ts) = [] := by
  refine List.filterMap_eq_nil_iff.mpr fun y hy => ?_
  rw [mark?, if_neg (by simp [walkFrom_asides ts y hy])]

@[simp] theorem inPlace_asides (ts : List Tree) : InPlace (asides ts) := by
  intro y hy hentered
  rw [walkFrom_asides ts y hy] at hentered
  cases hentered

@[simp] theorem stays_asides (ts : List Tree) : Stays (asides ts) := by
  intro y hy hpassed
  rw [walkFrom_asides ts y hy] at hpassed
  cases hpassed

/-- A straight statement is passed. -/
theorem standing_of_isStraight (ht : t.isStraight = true) : t.standing = .passed := by
  simp [Tree.standing, ht]

/-- Straight-line statements lay down no decision. -/
theorem marks_statements_of_isStraight (hstraight : ∀ t ∈ ts, t.isStraight = true) :
    marks (statements ts) = [] := by
  induction ts with
  | nil => simp
  | cons t ts ih =>
      obtain ⟨ht, hts⟩ := List.forall_mem_cons.mp hstraight
      have hne : (⟨t, t.standing⟩ : Trail).standing ≠ .entered := by
        simp [standing_of_isStraight ht]
      rw [statements_cons, marks_cons, next_of_ne hne, ih hts, mark?, if_neg hne]
      simp

/-! ## Nodes that are gone into, by their kind -/

section

variable {style : Loop}

/-- Below a node that is gone into, how a child stands is told by the role of its slot. -/
theorem next_entered : next ⟨t, .entered⟩ =
    t.kind.slots.flatMap fun slot =>
      (t.inSlot slot).map fun child => ⟨child, child.standingAs (t.kind.role slot)⟩ := by
  simp [next, Tree.branches, List.map_flatMap, Function.comp_def]

theorem next_block (hkind : t.kind = .block) :
    next ⟨t, .entered⟩ = statements t.statements := by
  simp [next_entered, hkind, Kind.slots, Tree.inSlot, statements]

theorem next_branch (hkind : t.kind = .branch) : next ⟨t, .entered⟩ =
    asides t.condition.toList ++ statements t.consequent.toList ++
      statements t.alternate.toList := by
  simp [next_entered, hkind, Kind.slots, Tree.inSlot, statements, asides]

theorem next_ternary (hkind : t.kind = .ternary) : next ⟨t, .entered⟩ =
    asides t.condition.toList ++ operands t.consequent.toList ++ operands t.alternate.toList := by
  simp [next_entered, hkind, Kind.slots, Tree.inSlot, operands, asides]

theorem next_switch (hkind : t.kind = .switch) :
    next ⟨t, .entered⟩ = asides t.condition.toList ++ clauses t.cases := by
  simp [next_entered, hkind, Kind.slots, Tree.inSlot, clauses, asides]

theorem next_case (hkind : t.kind = .case) :
    next ⟨t, .entered⟩ = asides t.condition.toList ++ statements t.statements := by
  simp [next_entered, hkind, Kind.slots, Tree.inSlot, statements, asides]

theorem next_guarded (hkind : t.kind = .guarded) : next ⟨t, .entered⟩ =
    statements t.body.toList ++ clauses t.handler.toList ++ statements t.finalizer.toList := by
  simp [next_entered, hkind, Kind.slots, Tree.inSlot, statements, clauses]

theorem next_handler (hkind : t.kind = .handler) :
    next ⟨t, .entered⟩ = asides t.operands ++ statements t.body.toList := by
  simp [next_entered, hkind, Kind.slots, Tree.inSlot, statements, asides]

theorem next_function (hkind : t.kind = .function) :
    next ⟨t, .entered⟩ = asides t.operands ++ statements t.body.toList := by
  simp [next_entered, hkind, Kind.slots, Tree.inSlot, statements, asides]

/-- A loop has its body between parts that are left aside. -/
theorem next_loop (hcaption : Caption.ofKind? t.kind = some style.caption) :
    ∃ before after, next ⟨t, .entered⟩ =
      asides before ++ statements t.body.toList ++ asides after := by
  rcases Tree.kind_of_loop_caption hcaption with ⟨hkind, _⟩ | ⟨hkind, _⟩ | ⟨hkind, _⟩
  · refine ⟨t.condition.toList, [], ?_⟩
    simp [next_entered, hkind, Kind.slots, Tree.inSlot, statements, asides]
  · refine ⟨[], t.condition.toList, ?_⟩
    simp [next_entered, hkind, Kind.slots, Tree.inSlot, statements, asides]
  · refine ⟨t.operands ++ t.condition.toList, [], ?_⟩
    simp [next_entered, hkind, Kind.slots, Tree.inSlot, statements, asides]

/-- A statement that is nothing but a ternary has that ternary below it. -/
theorem next_choice {u : Tree} (hkind : t.kind = .plain) (hchoice : t.choice? = some u) :
    next ⟨t, .entered⟩ = [⟨u, .entered⟩] := by
  have hoperands : t.operands = [u] := by
    rw [Tree.choice?, hkind] at hchoice
    simp only at hchoice
    split at hchoice
    next v heq =>
      rw [heq]
      split at hchoice
      next => rw [Option.some.inj hchoice]
      next => cases hchoice
    next => cases hchoice
  simp [next_entered, hkind, Kind.slots, Tree.inSlot, hoperands,
    Tree.operandStanding, Tree.kind_of_choice? hchoice]

end

end Trail

namespace Tree

def descent : Descent Tree where
  next := children
  size := size
  shrinks := total_size_children_lt

/-- The nodes of a tree are the nodes of the walk through its children. -/
theorem nodes_eq_walk (t : Tree) : t.nodes = descent.walk t :=
  Visit.descent.map_walk Visit.map_node_next ⟨t, none⟩

/-- The nodes of a function with how they stand, in source order. -/
def trails (t : Tree) : List Trail := Trail.descent.walk ⟨t, .entered⟩

/-- The trails of a tree are its nodes, in the same order. -/
theorem map_node_trails (t : Tree) : t.trails.map (·.node) = t.nodes := by
  rw [nodes_eq_walk]
  exact Trail.descent.map_walk Trail.map_node_next ⟨t, .entered⟩

end Tree

end Cyclomatic
