import Mathlib.Data.List.Perm.Subperm
import Cyclomatic.Walk

/-! # What a walk gives out

A walk with a stack lists an item before everything below it, one item of the
stack after the other. So it is told by one equation, and two walks that go in
step list the same items, and a walk that goes to fewer items lists fewer.
-/

namespace Cyclomatic.Descent

variable {α β : Type} (d : Descent α)

@[simp] theorem walkFrom_nil : d.walkFrom [] = [] := by
  rw [walkFrom]

theorem walkFrom_cons (a : α) (stack : List α) :
    d.walkFrom (a :: stack) = a :: d.walkFrom (d.next a ++ stack) := by
  rw [walkFrom]

/-- A walk from some nodes and more goes through all below the first ones before it comes to the
others. -/
theorem walkFrom_append (xs ys : List α) :
    d.walkFrom (xs ++ ys) = d.walkFrom xs ++ d.walkFrom ys := by
  fun_induction d.walkFrom xs with
  | case1 => rfl
  | case2 a stack ih =>
      rw [List.cons_append, walkFrom_cons, ← List.append_assoc, ih]
      rfl

/-- A walk from several nodes is the walks from each of them, in order. -/
theorem walkFrom_eq_flatMap (xs : List α) : d.walkFrom xs = xs.flatMap d.walk := by
  induction xs with
  | nil => simp
  | cons a xs ih =>
      rw [List.flatMap_cons, ← ih, walk, ← walkFrom_append]
      rfl

/-- An item comes before what is below it. -/
theorem walk_eq (a : α) : d.walk a = a :: (d.next a).flatMap d.walk := by
  rw [walk, walkFrom_cons, List.append_nil, walkFrom_eq_flatMap]

theorem self_mem_walk (a : α) : a ∈ d.walk a := by
  rw [walk_eq]
  exact List.mem_cons_self

theorem mem_walk_of_mem_next {a b c : α} (hb : b ∈ d.next a) (hc : c ∈ d.walk b) :
    c ∈ d.walk a := by
  rw [walk_eq]
  exact List.mem_cons_of_mem _ (List.mem_flatMap.mpr ⟨b, hb, hc⟩)

/-- What a walk meets is where it starts or is met on the walk from a node right below. -/
theorem exists_mem_walk {P : α → Prop} {a : α} :
    (∃ b ∈ d.walk a, P b) ↔ P a ∨ ∃ c ∈ d.next a, ∃ b ∈ d.walk c, P b := by
  rw [walk_eq, List.exists_mem_cons_iff]
  refine or_congr_right ⟨?_, ?_⟩
  · rintro ⟨b, hb, hP⟩
    obtain ⟨c, hc, hb⟩ := List.mem_flatMap.mp hb
    exact ⟨c, hc, b, hb, hP⟩
  · rintro ⟨c, hc, b, hb, hP⟩
    exact ⟨b, List.mem_flatMap.mpr ⟨c, hc, hb⟩, hP⟩

/-- What an item has as soon as all that comes next has it, every item has. -/
theorem induct {P : α → Prop} (hnext : ∀ a, (∀ b ∈ d.next a, P b) → P a) (a : α) : P a := by
  have hstack (stack : List α) : ∀ b ∈ stack, P b := by
    fun_induction d.walkFrom stack with
    | case1 => exact List.forall_mem_nil _
    | case2 a stack ih =>
        obtain ⟨hbelow, hrest⟩ := List.forall_mem_append.mp ih
        exact List.forall_mem_cons.mpr ⟨hnext a hbelow, hrest⟩
  exact hstack [a] a List.mem_cons_self

/-- What the first item has and each item hands on, all items have. -/
theorem forall_mem_walk {P : α → Prop} {a : α} (ha : P a)
    (hnext : ∀ b ∈ d.walk a, P b → ∀ c ∈ d.next b, P c) : ∀ b ∈ d.walk a, P b := by
  -- The rest of the walk is given out from a stack of items that have it.
  have hstack (stack : List α) (hsub : d.walkFrom stack ⊆ d.walk a) (hall : ∀ b ∈ stack, P b) :
      ∀ b ∈ d.walkFrom stack, P b := by
    fun_induction d.walkFrom stack with
    | case1 => exact hall
    | case2 b stack ih =>
        obtain ⟨hb, hstack⟩ := List.forall_mem_cons.mp hall
        obtain ⟨hmem, hrest⟩ := List.cons_subset.mp hsub
        refine List.forall_mem_cons.mpr ⟨hb, ih hrest ?_⟩
        exact List.forall_mem_append.mpr ⟨hnext b hmem hb, hstack⟩
  exact hstack [a] (List.Subset.refl _) (List.forall_mem_singleton.mpr ha)

/-- A walk from where another comes along meets nothing that the other does not. -/
theorem walk_subset {a b : α} (hb : b ∈ d.walk a) : d.walk b ⊆ d.walk a := by
  refine d.forall_mem_walk (P := fun b => d.walk b ⊆ d.walk a) (List.Subset.refl _) ?_ b hb
  intro b _ hsub c hc x hx
  exact hsub (d.mem_walk_of_mem_next hc hx)

/-- The walk below an item is listed in one piece. -/
theorem walk_isInfix {a b : α} (hb : b ∈ d.walk a) : d.walk b <:+: d.walk a := by
  refine d.forall_mem_walk (P := fun b => d.walk b <:+: d.walk a) (List.infix_refl _) ?_ b hb
  intro b _ hinfix c hc
  refine List.IsInfix.trans ?_ hinfix
  obtain ⟨before, after, hnext⟩ := List.append_of_mem hc
  rw [walk_eq d b, hnext, List.flatMap_append, List.flatMap_cons]
  exact ⟨b :: before.flatMap d.walk, after.flatMap d.walk, by simp⟩

/-- Walks that go in step list the same items. -/
theorem map_walk {e : Descent β} {f : α → β} (hstep : ∀ a, (d.next a).map f = e.next (f a))
    (a : α) : (d.walk a).map f = e.walk (f a) := by
  have hstack (stack : List α) : (d.walkFrom stack).map f = e.walkFrom (stack.map f) := by
    fun_induction d.walkFrom stack with
    | case1 => simp
    | case2 a stack ih =>
        rw [List.map_cons, List.map_cons, walkFrom_cons, ih, List.map_append, hstep]
  exact hstack [a]

/-- A walk that goes to nothing but what another one comes to lists what that one lists,
nothing more often. -/
theorem walkFrom_subperm {e : Descent α} {stack : List α}
    (hstep : ∀ a ∈ d.walkFrom stack,
      ((d.next a).flatMap e.walk).Subperm ((e.next a).flatMap e.walk)) :
    (d.walkFrom stack).Subperm (stack.flatMap e.walk) := by
  fun_induction d.walkFrom stack with
  | case1 => exact List.Subperm.refl _
  | case2 a stack ih =>
      obtain ⟨hself, hrest⟩ := List.forall_mem_cons.mp hstep
      have hbelow := ih hrest
      rw [List.flatMap_append] at hbelow
      rw [List.flatMap_cons, walk_eq, List.cons_append, List.subperm_cons]
      exact hbelow.trans (hself.append (List.Subperm.refl _))

/-- Walks that go on from each item to the same items, in whatever order, list the same items. -/
theorem walk_perm {e : Descent α} {a : α} (hstep : ∀ b ∈ d.walk a, (d.next b).Perm (e.next b)) :
    (d.walk a).Perm (e.walk a) := by
  have hstack (stack : List α) (hsub : ∀ b ∈ d.walkFrom stack, (d.next b).Perm (e.next b)) :
      (d.walkFrom stack).Perm (e.walkFrom stack) := by
    fun_induction d.walkFrom stack with
    | case1 => rw [walkFrom_nil]
    | case2 b stack ih =>
        obtain ⟨hself, hrest⟩ := List.forall_mem_cons.mp hsub
        have hbelow := ih hrest
        rw [walkFrom_eq_flatMap e] at hbelow
        rw [walkFrom_cons, walkFrom_eq_flatMap e]
        exact (hbelow.trans ((hself.append_right stack).flatMap_right _)).cons b
  exact hstack [a] hstep

/-- A walk that leaves something out at each item lists all the rest. -/
theorem flatMap_walk_perm_append {e : Descent α} {loss : α → List α}
    (hstep : ∀ a, ((e.next a).flatMap e.walk).Perm ((d.next a).flatMap e.walk ++ loss a))
    (stack : List α) :
    (stack.flatMap e.walk).Perm (d.walkFrom stack ++ (d.walkFrom stack).flatMap loss) := by
  fun_induction d.walkFrom stack with
  | case1 => exact List.Perm.refl _
  | case2 a stack ih =>
      rw [List.flatMap_append] at ih
      rw [List.flatMap_cons, walk_eq, List.flatMap_cons, List.cons_append, List.cons_append]
      refine List.Perm.cons a (((hstep a).append_right _).trans ?_)
      rw [List.append_assoc]
      refine (List.perm_append_comm_assoc _ _ _).trans ((ih.append_left _).trans ?_)
      exact List.perm_append_comm_assoc _ _ _

/-- The walk that goes as far as some items and not on from them. -/
def upTo (last : α → Bool) : Descent α where
  next a := if last a then [] else d.next a
  size := d.size
  shrinks a := by
    have hlt := d.shrinks a
    split
    next => exact Nat.lt_of_le_of_lt (Nat.zero_le _) hlt
    next => exact hlt

theorem next_upTo (last : α → Bool) (a : α) :
    (d.upTo last).next a = if last a then [] else d.next a :=
  rfl

/-- A walk lists what it lists up to some items, and then what is below these. -/
theorem flatMap_walk_perm_upTo (last : α → Bool) (stack : List α) :
    (stack.flatMap d.walk).Perm ((d.upTo last).walkFrom stack ++
      ((d.upTo last).walkFrom stack).flatMap fun a =>
        if last a then (d.next a).flatMap d.walk else []) := by
  refine flatMap_walk_perm_append (d.upTo last) (fun a => ?_) stack
  rw [next_upTo]
  split <;> simp

end Cyclomatic.Descent
