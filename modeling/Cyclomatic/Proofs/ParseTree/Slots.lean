import Cyclomatic.Proofs.ParseTree.Decisions
import Cyclomatic.Proofs.ParseTree.Origins

/-! # The slots of normalized trees

A walk follows the slots that the kind of a node lists. In a syntax tree made
from a parse tree no other slot holds anything, so that walk comes to all there
is, and the flags and names of its nodes stand where they belong.
-/

namespace Cyclomatic

/-! ## All slots of a tree -/

def Slot.all : List Slot :=
  [.condition, .consequent, .alternate, .body, .handler, .finalizer, .value, .statements, .cases,
   .operands]

example (slot : Slot) : slot ∈ Slot.all := by
  cases slot <;> decide

theorem Kind.slots_perm (kind : Kind) : kind.slots.Perm (Slot.all.filter (· ∈ kind.slots)) := by
  cases kind <;> decide

namespace Tree

/-- What all ten slots hold, whatever the kind. -/
def offspring (t : Tree) : List Tree := Slot.all.flatMap t.inSlot

theorem total_size_offspring_lt (t : Tree) : total size t.offspring < t.size := by
  obtain ⟨h, c, q, a, b, hd, f, v, ss, cs, os⟩ := t
  simp only [offspring, Slot.all, List.flatMap_cons, List.flatMap_nil, inSlot, condition, consequent,
    alternate, body, handler, finalizer, value, statements, cases, operands, size, sizeOption_eq,
    sizeList_eq, total_append, total]
  omega

def everySlot : Descent Tree where
  next := offspring
  size := size
  shrinks := total_size_offspring_lt

/-- Every node of a tree, whatever slots hold it. -/
def everyNode (t : Tree) : List Tree := everySlot.walk t

/-- Nothing is in a slot that the kind of the node does not list. -/
def Disciplined (t : Tree) : Prop := ∀ slot, slot ∉ t.kind.slots → t.inSlot slot = []

/-- A disciplined node has in its slots just its children. -/
theorem Disciplined.children_perm {t : Tree} (ht : t.Disciplined) :
    t.children.Perm t.offspring := by
  refine ((Kind.slots_perm t.kind).flatMap_right t.inSlot).trans (List.Perm.of_eq ?_)
  unfold offspring
  induction Slot.all with
  | nil => rfl
  | cons slot slots ih =>
      by_cases hslot : slot ∈ t.kind.slots
      · rw [List.filter_cons_of_pos (by simpa using hslot), List.flatMap_cons, List.flatMap_cons,
          ih]
      · rw [List.filter_cons_of_neg (by simpa using hslot), List.flatMap_cons, ht slot hslot, ih,
          List.nil_append]

/-- In a tree with nothing in other slots, the walk along the listed slots comes to every node. -/
theorem nodes_perm_everyNode {t : Tree} (ht : ∀ n ∈ t.nodes, n.Disciplined) :
    t.nodes.Perm t.everyNode := by
  rw [nodes_eq_walk] at ht ⊢
  exact descent.walk_perm fun n hn => (ht n hn).children_perm

end Tree

/-! ## Normalized trees -/

namespace ParseTree

variable {source : Bytes} {t u : ParseTree} {n : Tree}

/-- Every node of a syntax tree comes from a node of the parse tree that does more than enclose
another. -/
theorem exists_origin (hn : n ∈ (t.normalize source).nodes) :
    ∃ u ∈ t.nodes, u.sole? = none ∧ u.normalize source = n := by
  rw [nodes_normalize] at hn
  obtain ⟨u, hu, rfl⟩ := List.mem_map.mp hn
  obtain ⟨htaken, hsole⟩ := List.mem_filter.mp hu
  refine ⟨u, nodes_perm.symm.subset (List.mem_append_left _ htaken), ?_, rfl⟩
  simpa using hsole

/-- What is rewritten is disciplined: no slot is used that the kind does not list. -/
theorem disciplined_normalize (hsole : u.sole? = none) : (u.normalize source).Disciplined := by
  intro slot hslot
  rw [kind_normalize hsole] at hslot
  exact inSlot_normalize hsole hslot

/-- The statements that leave a function are told by their types. -/
theorem exits_normalize (hsole : u.sole? = none) :
    (u.normalize source).head.exits = true ↔ u.row.type ∈ Form.exit.types := by
  have hhead : (u.normalize source).head.exits = decide (u.form = .exit) := by
    rw [normalize_of_sole?_eq_none hsole]
    rfl
  rw [hhead, decide_eq_true_eq]
  constructor
  · intro hform
    have htype := mem_types_form (t := u) (by simp [hform])
    rwa [hform] at htype
  · exact form_of_mem_types

/-- Only identifiers, functions and bindings have names. -/
theorem name_normalize (hsole : u.sole? = none) (hname : (u.normalize source).head.name.isSome) :
    (u.normalize source).kind ∈ [.identifier, .function, .binding] := by
  have hhead : (u.normalize source).head.name = u.nameOf? source := by
    rw [normalize_of_sole?_eq_none hsole]
    rfl
  rw [hhead, nameOf?] at hname
  rw [kind_normalize hsole, kindOf]
  cases hform : u.form <;> simp [hform] at hname ⊢

/-! ## Clauses -/

theorem kind_normalize_of_clause
    (hclause : u.form = .case ∨ u.form = .default ∨ u.form = .handler) :
    (u.normalize source).kind = u.kindOf := by
  refine kind_normalize ?_
  rcases hclause with hform | hform | hform <;> simp [sole?, hform]

namespace ClausesFit

/-- The cases of a node are cases, if the grammar was followed. -/
theorem cases_normalize (hu : u.ClausesFit) (hsole : u.sole? = none) {c : Tree}
    (hc : c ∈ (u.normalize source).cases) : c.kind = .case := by
  by_cases hform : u.form = .switch
  · have hcases : (u.normalize source).cases = u.spread.map (normalize source) := by
      rw [normalize_of_sole?_eq_none hsole, slotsOf, hform]
      rfl
    rw [hcases, spread, hform] at hc
    obtain ⟨v, hv, rfl⟩ := List.mem_map.mp hc
    -- The cases are what is listed in the body, which is itself looked through.
    have hsub : v ∈ u.substatements := by rwa [substatements, hform]
    rcases hu.form_cases hform v hsub with hcase | hdefault
    · rw [kind_normalize_of_clause (.inl hcase), kindOf, hcase]
    · rw [kind_normalize_of_clause (.inr (.inl hdefault)), kindOf, hdefault]
  · have hcases : (u.normalize source).cases = [] := by
      rw [normalize_of_sole?_eq_none hsole, slotsOf]
      cases h : u.form <;> first | rfl | exact absurd h hform
    rw [hcases] at hc
    cases hc

/-- The handler of a node is a handler, if the grammar was followed. -/
theorem handler_normalize (hu : u.ClausesFit) (hsole : u.sole? = none) {h : Tree}
    (hh : h ∈ (u.normalize source).handler) : h.kind = .handler := by
  by_cases hform : u.form = .guarded
  · have hhandler : (u.normalize source).handler = (u.field? "handler").map (normalize source) := by
      rw [normalize_of_sole?_eq_none hsole, slotsOf, hform]
      rfl
    rw [hhandler] at hh
    obtain ⟨v, hv, rfl⟩ := Option.map_eq_some_iff.mp hh
    have hguard := hu.form_handler hform v hv
    rw [kind_normalize_of_clause (.inr (.inr hguard)), kindOf, hguard]
  · have hhandler : (u.normalize source).handler = none := by
      rw [normalize_of_sole?_eq_none hsole, slotsOf]
      cases h : u.form <;> first | rfl | exact absurd h hform
    rw [hhandler] at hh
    cases hh

end ClausesFit

/-- If the clauses of a parse tree are what the grammar has there, those of the syntax tree are in
place. -/
theorem clausesInPlace_of_fit (hfit : ∀ u ∈ t.nodes, u.ClausesFit)
    (hn : n ∈ (t.normalize source).nodes) : n.ClausesInPlace := by
  obtain ⟨u, hu, hsole, rfl⟩ := exists_origin hn
  exact
    { cases := fun _ c hc => (hfit u hu).cases_normalize hsole hc
      handler := fun _ h hh => (hfit u hu).handler_normalize hsole hh }

/-- A tree made from a parse tree has nothing in slots that the kind of a node does not list, so
walks come to all of it. Only what leaves a function is marked so, only identifiers, functions
and bindings have names, and the clauses of its multiway branches and guarded blocks are clauses
if those of the parse tree are. -/
theorem normalize_slots (source : Bytes) (t : ParseTree) :
    (∀ n ∈ (t.normalize source).everyNode, ∀ slot, slot ∉ n.kind.slots → n.inSlot slot = []) ∧
    (t.normalize source).nodes.Perm (t.normalize source).everyNode ∧
    (∀ n ∈ (t.normalize source).everyNode, n.head.exits = true →
      ∃ u ∈ t.nodes, u.normalize source = n ∧
        (u.row.type = "return_statement" ∨ u.row.type = "throw_statement")) ∧
    (∀ n ∈ (t.normalize source).everyNode, n.head.name.isSome →
      n.kind ∈ [.identifier, .function, .binding]) ∧
    ((∀ u ∈ t.nodes, u.ClausesFit) → ∀ n ∈ (t.normalize source).everyNode,
      (∀ c ∈ n.cases, c.kind = .case) ∧ ∀ h ∈ n.handler, h.kind = .handler) := by
  have hperm : (t.normalize source).nodes.Perm (t.normalize source).everyNode := by
    refine Tree.nodes_perm_everyNode fun n hn => ?_
    obtain ⟨u, _, hsole, rfl⟩ := exists_origin hn
    exact disciplined_normalize hsole
  have horigin : ∀ n ∈ (t.normalize source).everyNode,
      ∃ u ∈ t.nodes, u.sole? = none ∧ u.normalize source = n := fun n hn =>
    exists_origin (hperm.symm.subset hn)
  refine ⟨?_, hperm, ?_, ?_, ?_⟩
  · intro n hn
    obtain ⟨u, _, hsole, rfl⟩ := horigin n hn
    exact disciplined_normalize hsole
  · intro n hn hexits
    obtain ⟨u, hu, hsole, rfl⟩ := horigin n hn
    have htype := (exits_normalize hsole).mp hexits
    exact ⟨u, hu, rfl, by simpa [Form.types] using htype⟩
  · intro n hn hname
    obtain ⟨u, _, hsole, rfl⟩ := horigin n hn
    exact name_normalize hsole hname
  · intro hfit n hn
    obtain ⟨u, hu, hsole, rfl⟩ := horigin n hn
    exact ⟨fun c hc => (hfit u hu).cases_normalize hsole hc,
      fun h hh => (hfit u hu).handler_normalize hsole hh⟩

theorem nestedStatements_slots :
    (∀ u ∈ nestedStatements.nodes, u.ClausesFit) ∧
      (nestedStatements.normalize []).nodes.length = 20 ∧
      ∀ n ∈ (nestedStatements.normalize []).everyNode,
        (∀ c ∈ n.cases, c.kind = .case) ∧ ∀ h ∈ n.handler, h.kind = .handler := by
  have hfit : ∀ u ∈ nestedStatements.nodes, u.ClausesFit := by decide +kernel
  obtain ⟨_, _, _, _, hclauses⟩ := normalize_slots [] nestedStatements
  exact ⟨hfit, by decide +kernel, hclauses hfit⟩

end ParseTree

end Cyclomatic
