import Mathlib.Data.List.Nodup
import Cyclomatic.Proofs.Tree.Reached

/-! # Blocks of statements

The straight-line statements that control comes to fall into blocks: each of
them is a statement of exactly one, and a block goes as far as it can.
-/

namespace Cyclomatic.Tree

open Outline

/-- Consecutive statements of a list, with the address of the list and what stands before and
after them. -/
structure Stretch where
  address : Address
  before : List Tree
  first : Tree
  more : List Tree
  after : List Tree

namespace Stretch

def last (s : Stretch) : Tree := s.more.getLastD s.first

/-- The whole list that the statements are part of. -/
def list (s : Stretch) : List Tree := s.before ++ s.first :: (s.more ++ s.after)

/-- The statements as occurrences: the address of a list, and the number of a statement in it. -/
def occurrences (s : Stretch) : List (Address × Nat) :=
  (List.range (s.more.length + 1)).map fun j => (s.address, s.before.length + j)

/-- The statements are a block of a list that control comes to. The block starts where the list
does or right behind a construct, and there is a path to it. -/
structure IsBlock (root : List Tree) (s : Stretch) : Prop where
  reached : Reached root s.address s.list
  through : FallsThrough s.before
  starts : ∀ t ∈ s.before.getLast?, t.isStraight = false
  run : IsRun s.first s.more s.after s.last.head.exits

/-- The occurrences of a stretch are numbered from where it starts in its list. -/
theorem mem_occurrences {s : Stretch} {a : Address} {i : Nat} :
    (a, i) ∈ s.occurrences ↔
      a = s.address ∧ s.before.length ≤ i ∧ i < s.before.length + (s.more.length + 1) := by
  simp only [occurrences, List.mem_map, List.mem_range, Prod.mk.injEq]
  constructor
  · rintro ⟨j, hj, rfl, rfl⟩
    exact ⟨rfl, by omega, by omega⟩
  · rintro ⟨rfl, hle, hlt⟩
    exact ⟨i - s.before.length, by omega, rfl, by omega⟩

theorem nodup_occurrences (s : Stretch) : s.occurrences.Nodup :=
  List.nodup_range.map fun i j heq => by simpa using heq

end Stretch

namespace Remainder

variable {r : Remainder} {t : Tree} {ts root us : List Tree} {a : Address} {i n : Nat}
  {o : Address × Nat}

/-- The block ahead, if it is a block that is ahead. -/
def stretch? (r : Remainder) : Option Stretch :=
  match front r.ahead with
  | [] => none
  | t :: more =>
      if t.isStraight then some ⟨r.address, r.before, t, more, behind r.ahead⟩ else none

/-- The blocks that are come to, in the order in which they are gone through. -/
def stretches (r : Remainder) : List Stretch := (descent.walk r).filterMap stretch?

def occurrences (r : Remainder) : List (Address × Nat) :=
  r.stretches.flatMap Stretch.occurrences

/-- The occurrences in the block ahead. -/
def own (r : Remainder) : List (Address × Nat) := r.stretch?.toList.flatMap Stretch.occurrences

theorem stretches_eq (r : Remainder) :
    r.stretches = r.stretch?.toList ++ r.next.flatMap stretches := by
  rw [stretches, descent.walk_eq, List.filterMap_cons, List.filterMap_flatMap]
  cases r.stretch? <;> rfl

theorem occurrences_eq (r : Remainder) : r.occurrences = r.own ++ r.next.flatMap occurrences := by
  rw [occurrences, stretches_eq, List.flatMap_append, List.flatMap_assoc]
  rfl

/-- The block ahead is the front of what is ahead, at the place where the going through stands. -/
theorem stretch?_eq_some {s : Stretch} (hs : r.stretch? = some s) :
    s.address = r.address ∧ s.before = r.before ∧ front r.ahead = s.first :: s.more ∧
      s.after = behind r.ahead ∧ ∃ returns, IsRun s.first s.more s.after returns := by
  unfold stretch? at hs
  split at hs
  next => cases hs
  next t more hfront =>
    split at hs
    next ht =>
      cases hs
      refine ⟨rfl, rfl, hfront, rfl, ?_⟩
      cases hahead : r.ahead with
      | nil =>
          rw [hahead] at hfront
          cases hfront
      | cons u us =>
          rw [hahead] at hfront
          rcases front_cases u us with ⟨hu, hsingle⟩ | ⟨more', returns, hrest, hrun⟩
          · obtain ⟨rfl, _⟩ := List.cons.inj (hsingle.symm.trans hfront)
            rw [ht] at hu
            cases hu
          · obtain ⟨rfl, rfl⟩ := List.cons.inj (hrest.symm.trans hfront)
            exact ⟨returns, hrun⟩
    next => cases hs

/-- The occurrences of the block ahead are in its list, within the front. -/
theorem mem_own (ho : o ∈ r.own) : o.1 = r.address ∧ r.before.length ≤ o.2 ∧
    o.2 < r.before.length + (front r.ahead).length := by
  obtain ⟨s, hs, ho⟩ := List.mem_flatMap.mp ho
  obtain ⟨haddress, hbefore, hfront, _⟩ := stretch?_eq_some (Option.mem_toList.mp hs)
  rw [← haddress, ← hbefore, hfront, List.length_cons]
  exact Stretch.mem_occurrences.mp ho

/-! ## No occurrence twice -/

/-- An occurrence within a list from a statement on, or below one of those statements. -/
def Within (a : Address) (n : Nat) (o : Address × Nat) : Prop :=
  o.1 = a ∧ n ≤ o.2 ∨ ∃ j k rest, n ≤ j ∧ o.1 = a ++ (j, k) :: rest

theorem Within.mono {m : Nat} (ho : Within a n o) (hm : m ≤ n) : Within a m o := by
  rcases ho with ⟨ha, hn⟩ | ⟨j, k, rest, hn, ha⟩
  · exact .inl ⟨ha, by omega⟩
  · exact .inr ⟨j, k, rest, by omega, ha⟩

/-- What is within a part of a statement has an address that goes through this part. -/
theorem Within.of_part {j k : Nat} (ho : Within (a ++ [(j, k)]) n o) :
    ∃ rest, o.1 = a ++ (j, k) :: rest := by
  rcases ho with ⟨ha, _⟩ | ⟨j', k', rest, _, ha⟩
  · exact ⟨[], ha⟩
  · exact ⟨(j', k') :: rest, by rw [ha, List.append_assoc]; rfl⟩

/-- What is come to from a place on is within its list, from the next statement on. -/
theorem within_occurrences (r : Remainder) :
    ∀ o ∈ r.occurrences, Within r.address r.before.length o := by
  induction r using descent.induct with
  | hnext r ih =>
      intro o ho
      rw [occurrences_eq] at ho
      rcases List.mem_append.mp ho with ho | ho
      · obtain ⟨ha, hn, _⟩ := mem_own ho
        exact .inl ⟨ha, hn⟩
      · obtain ⟨r', hr', ho⟩ := List.mem_flatMap.mp ho
        have hwithin := ih r' hr' o ho
        rcases cases_of_mem_next hr' with ⟨t, ts, k, us, _, _, rfl⟩ | ⟨_, _, rfl⟩
        · obtain ⟨rest, ha⟩ := hwithin.of_part
          exact .inr ⟨_, k, rest, Nat.le_refl _, ha⟩
        · exact hwithin.mono (by simp [past])

theorem nodup_own (r : Remainder) : r.own.Nodup := by
  unfold own
  cases r.stretch? with
  | none => exact List.nodup_nil
  | some s => simpa using s.nodup_occurrences

/-- What is within the parts of a construct or past it is apart from what is within the others. -/
theorem pairwise_next (r : Remainder) : r.next.Pairwise fun x y => ∀ o,
    Within x.address x.before.length o → ¬ Within y.address y.before.length o := by
  unfold next
  split
  next => exact List.Pairwise.nil
  next t ts hahead =>
    rw [inner, hahead, List.pairwise_append]
    refine ⟨?_, ?_, ?_⟩
    · -- Two parts of one construct have different numbers.
      have hnumbers : t.parts.zipIdx.Pairwise fun p q => p.2 < q.2 := by
        rw [← List.pairwise_map, List.zipIdx_map_snd]
        exact List.pairwise_lt_range'
      refine List.pairwise_map.mpr (hnumbers.imp fun {p q} hlt o hp hq => ?_)
      obtain ⟨rest, ha⟩ := hp.of_part
      obtain ⟨rest', ha'⟩ := hq.of_part
      have heq := List.append_cancel_left (ha.symm.trans ha')
      simp only [List.cons.injEq, Prod.mk.injEq] at heq
      omega
    · split
      · exact List.pairwise_singleton _ _
      · exact List.Pairwise.nil
    · -- What is past the construct has greater numbers than the construct.
      intro x hx y hy o hox hoy
      obtain ⟨p, _, rfl⟩ := List.mem_map.mp hx
      obtain rfl : y = r.past := by
        split at hy
        · exact List.mem_singleton.mp hy
        · cases hy
      obtain ⟨rest, ha⟩ := hox.of_part
      obtain ⟨more, hfront, _⟩ := front_cons t ts
      rcases hoy with ⟨ha', _⟩ | ⟨j, k, rest', hj, ha'⟩
      · simp [past, ha] at ha'
      · have heq := List.append_cancel_left (ha.symm.trans ha')
        simp only [List.cons.injEq, Prod.mk.injEq] at heq
        simp only [past, hahead, hfront, List.length_append, List.length_cons] at hj
        omega

/-- No occurrence is in two blocks. -/
theorem nodup_occurrences (r : Remainder) : r.occurrences.Nodup := by
  induction r using descent.induct with
  | hnext r ih =>
      rw [occurrences_eq, List.nodup_append']
      refine ⟨r.nodup_own, List.nodup_flatMap.mpr ⟨ih, ?_⟩, ?_⟩
      · refine r.pairwise_next.imp fun {x y} hapart => ?_
        exact fun o hx hy => hapart o (within_occurrences x o hx) (within_occurrences y o hy)
      · intro o hown ho
        obtain ⟨haddress, _, hlt⟩ := mem_own hown
        obtain ⟨r', hr', ho⟩ := List.mem_flatMap.mp ho
        have hwithin := within_occurrences r' o ho
        -- Within a part the address is longer, and past the block the numbers are greater.
        rcases cases_of_mem_next hr' with ⟨t, ts, k, us, _, _, rfl⟩ | ⟨_, _, rfl⟩
        · obtain ⟨rest, ha⟩ := hwithin.of_part
          simp [ha] at haddress
        · rcases hwithin with ⟨_, hle⟩ | ⟨j, k, rest, _, ha⟩
          · simp only [past, List.length_append] at hle
            omega
          · simp [past, haddress] at ha

/-! ## Every occurrence once -/

/-- Each stretch that is come to is a block of a list that control comes to. -/
theorem isBlock_of_mem_stretches {s : Stretch} (hs : s ∈ (whole [] root).stretches) :
    s.IsBlock root := by
  obtain ⟨r, hr, hs⟩ := List.mem_filterMap.mp hs
  have hvalid := valid_of_mem_walk hr
  obtain ⟨haddress, hbefore, hfront, hafter, returns, hrun⟩ := stretch?_eq_some hs
  have hahead : r.ahead = s.first :: (s.more ++ s.after) := by
    rw [← front_append_behind r.ahead, hfront, hafter, List.cons_append]
  refine ⟨?_, ?_, ?_, ?_⟩
  · rw [Stretch.list, haddress, hbefore, ← hahead]
    exact hvalid.reached
  · rw [hbefore]
    exact hvalid.through
  · intro t ht
    cases hstraight : t.isStraight with
    | false => rfl
    | true =>
        -- Otherwise the block would have begun earlier.
        have hfirst := hvalid.apart t (hbefore ▸ ht) hstraight s.first (by simp [hahead])
        rw [hrun.straight s.first List.mem_cons_self] at hfirst
        cases hfirst
  · rw [Stretch.last, hrun.last]
    exact hrun

/-- Straight statements that do not leave the function are fallen through. -/
theorem fallsThrough_of_straight (hts : ∀ t ∈ ts, t.isStraight = true ∧ t.head.exits = false) :
    FallsThrough ts := by
  induction ts with
  | nil => exact .nil
  | cons t ts ih =>
      obtain ⟨ht, hts⟩ := List.forall_mem_cons.mp hts
      exact .straight ht.1 ht.2 (ih hts)

/-- Control falls through to each statement of a block. -/
theorem fallsThrough_take {first : Tree} {more rest : List Tree} {returns : Bool} {j : Nat}
    (hrun : IsRun first more rest returns) (hj : j ≤ more.length) :
    FallsThrough ((first :: more).take j) := by
  refine fallsThrough_of_straight fun t ht => ⟨hrun.straight t (List.mem_of_mem_take ht), ?_⟩
  apply hrun.inner t
  rw [List.dropLast_eq_take]
  exact (List.take_subset_take_left _ (by simpa using hj)) ht

/-- If there is a straight statement in the front, the front is a block. -/
theorem exists_stretch (ht : t ∈ front r.ahead) (hstraight : t.isStraight = true) :
    ∃ s, r.stretch? = some s := by
  unfold stretch?
  cases hahead : r.ahead with
  | nil =>
      rw [hahead] at ht
      cases ht
  | cons u us =>
      rw [hahead] at ht
      rcases front_cases u us with ⟨hu, hfront⟩ | ⟨more, _, hfront, hrun⟩
      · rw [hfront, List.mem_singleton] at ht
        rw [← ht, hstraight] at hu
        cases hu
      · simp [hfront, hrun.straight u List.mem_cons_self]

/-- The statements of blocks are the straight-line statements that control comes to. -/
theorem mem_occurrences_iff : (a, i) ∈ (whole [] root).occurrences ↔
    ∃ us t, Reached root a us ∧ us[i]? = some t ∧ t.isStraight = true ∧
      FallsThrough (us.take i) := by
  constructor
  · intro ho
    obtain ⟨s, hs, ho⟩ := List.mem_flatMap.mp ho
    have hblock := isBlock_of_mem_stretches hs
    obtain ⟨rfl, hle, hlt⟩ := Stretch.mem_occurrences.mp ho
    have hj : i - s.before.length < (s.first :: s.more).length := by
      rw [List.length_cons]
      omega
    refine ⟨s.list, (s.first :: s.more)[i - s.before.length], hblock.reached, ?_, ?_, ?_⟩
    · rw [Stretch.list, List.getElem?_append_right hle, ← List.cons_append,
        List.getElem?_append_left hj, List.getElem?_eq_getElem hj]
    · exact hblock.run.straight _ (List.getElem_mem hj)
    · rw [Stretch.list, List.take_append, List.take_of_length_le hle, ← List.cons_append,
        List.take_append_of_le_length (Nat.le_of_lt hj)]
      refine fallsThrough_append.mpr ⟨hblock.through, fallsThrough_take hblock.run ?_⟩
      rw [List.length_cons] at hj
      omega
  · rintro ⟨us, t, hreached, ht, hstraight, hthrough⟩
    obtain ⟨r, hr, haddress, _, hle, hfront⟩ := exists_mem_front (r := whole a us) ht hthrough
    have hwalk := descent.walk_subset (whole_mem_walk hreached) hr
    obtain ⟨s, hs⟩ := exists_stretch (List.mem_of_getElem? hfront) hstraight
    refine List.mem_flatMap.mpr ⟨s, List.mem_filterMap.mpr ⟨r, hwalk, hs⟩, ?_⟩
    obtain ⟨hsaddress, hsbefore, hsfront, _⟩ := stretch?_eq_some hs
    obtain ⟨hlt, _⟩ := List.getElem?_eq_some_iff.mp hfront
    rw [hsfront, List.length_cons, ← hsbefore] at hlt
    simp only [whole, List.length_nil, Nat.zero_add] at hle hlt
    rw [← hsbefore] at hle
    exact Stretch.mem_occurrences.mpr ⟨(hsaddress.trans haddress).symm, hle, by omega⟩

/-- If nothing leaves the function, every straight-line statement of a list that control comes to
is in one block. -/
theorem count_occurrences (hstays : ∀ s, StatementOf root s → s.head.exits = false)
    (hreached : Reached root a us) (ht : us[i]? = some t) (hstraight : t.isStraight = true) :
    (whole [] root).occurrences.count (a, i) = 1 := by
  refine List.count_eq_one_of_mem (nodup_occurrences _) (mem_occurrences_iff.mpr ?_)
  refine ⟨us, t, hreached, ht, hstraight, ?_⟩
  refine fallsThrough_of_stays (whole a (us.take i)) fun s hs => hstays s ?_
  exact hreached.statementOf (hs.mono (List.take_subset i us))

end Remainder

end Cyclomatic.Tree
