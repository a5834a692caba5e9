import Cyclomatic.Proofs.Flow.Nesting

/-! # Ways through a fragment

A way goes along the edges of a fragment, from an exit that leads to it, until
control goes on behind the fragment or leaves the function. The ways through a
combined fragment are put together from the ways through its parts.
-/

namespace Cyclomatic

open Cyclomatic.Flow

/-- How a part of a program ends: control goes on behind it or leaves the function. -/
inductive Outcome where
  | goesOn
  | leaves
  deriving DecidableEq, Repr

namespace Flow

/-- Where a way has got to. -/
def lastFrom (s : Nat) : List Nat → Nat
  | [] => s
  | i :: ids => lastFrom i ids

/-- Rounds, with the same item behind each. -/
def laps {α : Type} (mark : α) (rounds : List (List α)) : List α := rounds.flatMap (· ++ [mark])

@[simp] theorem laps_nil {α : Type} (mark : α) : laps mark [] = [] := rfl

@[simp] theorem laps_cons {α : Type} (mark : α) (round : List α) (rounds : List (List α)) :
    laps mark (round :: rounds) = round ++ mark :: laps mark rounds := by
  simp [laps]

theorem map_laps {α β : Type} (f : α → β) (mark : α) (rounds : List (List α)) :
    (laps mark rounds).map f = laps (f mark) (rounds.map (·.map f)) := by
  induction rounds with
  | nil => rfl
  | cons round rounds ih => simp [ih]

/-- Rounds between items of a list, all of them in the list, stay in the list. -/
theorem laps_subset {α : Type} {mark : α} {rounds : List (List α)} {items : List α}
    (hmark : mark ∈ items) (hrounds : ∀ round ∈ rounds, round ⊆ items) :
    laps mark rounds ⊆ items := by
  intro item hitem
  obtain ⟨round, hround, hitem⟩ := List.mem_flatMap.mp hitem
  rcases List.mem_append.mp hitem with hitem | hitem
  · exact hrounds round hround hitem
  · rwa [List.mem_singleton.mp hitem]

namespace Fragment

/-- The ways through a fragment, by the vertices they meet. A vertex at which the
function is left is the last one. -/
inductive Way (f : Fragment) : Nat → List Nat → Outcome → Prop
  | stop {s} (hs : s ∈ sources f.ends) : Way f s [] .goesOn
  | leave {s i} (hjoins : Joins f.edges s i) (hi : i ∈ f.returned) : Way f s [i] .leaves
  | step {s i ids out} (hjoins : Joins f.edges s i) (hi : i ∉ f.returned)
      (hrest : Way f i ids out) : Way f s (i :: ids) out

variable {f g y n b c : Fragment} {next innerNext s i : Nat} {ids : List Nat} {entry : List Exit}
  {out : Outcome} {v : Vertex}

/-- The first vertex of a way has an edge to it from where the way starts. -/
theorem Way.joins (hway : f.Way s (i :: ids) out) : Joins f.edges s i := by
  cases hway with
  | leave hjoins _ => exact hjoins
  | step hjoins _ _ => exact hjoins

/-- A way that goes on has got to an end of the fragment. -/
theorem Way.last_mem (hway : f.Way s ids .goesOn) : lastFrom s ids ∈ sources f.ends := by
  generalize hout : Outcome.goesOn = out at hway
  induction hway with
  | stop hs => exact hs
  | leave => cases hout
  | step _ _ _ ih => exact ih hout

/-- A way without vertices is one that has got to an end already. -/
theorem way_nil_iff : f.Way s [] out ↔ s ∈ sources f.ends ∧ out = .goesOn := by
  constructor
  · intro hway
    cases hway with
    | stop hs => exact ⟨hs, rfl⟩
  · rintro ⟨hs, rfl⟩
    exact .stop hs

/-! ## Single vertices -/

/-- Through a fragment that adds nothing there is only the way without vertices. -/
theorem way_pass_iff (hs : s ∈ sources entry) :
    (pass entry).Way s ids out ↔ ids = [] ∧ out = .goesOn := by
  constructor
  · intro hway
    cases hway with
    | stop => exact ⟨rfl, rfl⟩
    | leave _ hi => cases hi
    | step hjoins _ _ =>
        obtain ⟨e, he, _⟩ := hjoins
        cases he
  · rintro ⟨rfl, rfl⟩
    exact .stop hs

/-- No way leads through nothing. -/
theorem not_way_nothing : ¬ (nothing entry).Way s ids out := by
  intro hway
  cases hway with
  | stop hs => cases hs
  | leave _ hi => cases hi
  | step hjoins _ _ =>
      obtain ⟨e, he, _⟩ := hjoins
      cases he

theorem Before.ne_of_mem (hentry : Before entry next) (hs : s ∈ sources entry) : s ≠ next :=
  Nat.ne_of_lt (hentry s hs)

/-- A fragment with a vertex of its own in front is entered through that vertex. -/
theorem way_head_iff (hentry : Before entry next) (hs : s ∈ sources entry)
    (hconnect : connect entry next ⊆ f.edges)
    (hinside : ∀ e ∈ f.edges, e ∈ connect entry next ∨ f.Owns next e.source)
    (hends : ∀ i ∈ sources f.ends, f.Owns next i) (hreturned : next ∉ f.returned) :
    f.Way s ids out ↔ ∃ rest, ids = next :: rest ∧ f.Way next rest out := by
  have hnot : ¬ f.Owns next s := hentry.not_owns hs (Nat.le_refl _)
  have honly : ∀ i, Joins f.edges s i → i = next := by
    rintro i ⟨e, he, rfl, rfl⟩
    exact (mem_connect ((hinside e he).resolve_right hnot)).2
  constructor
  · intro hway
    cases hway with
    | stop hs => exact absurd (hends s hs) hnot
    | leave hjoins hi =>
        obtain rfl := honly _ hjoins
        exact absurd hi hreturned
    | step hjoins _ hrest =>
        obtain rfl := honly _ hjoins
        exact ⟨_, rfl, hrest⟩
  · rintro ⟨rest, rfl, hrest⟩
    exact .step ((joins_connect hs).mono hconnect) hreturned hrest

/-- One way leads through a vertex, and control goes on after it. -/
theorem way_vertex_iff (hentry : Before entry next) (hs : s ∈ sources entry) :
    (vertex next v entry).Way s ids out ↔ ids = [next] ∧ out = .goesOn := by
  rw [way_head_iff hentry hs (List.Subset.refl _) (fun e he => .inl he) owns_ends_vertex
    (by simp [vertex])]
  constructor
  · rintro ⟨rest, rfl, hrest⟩
    cases hrest with
    | stop => exact ⟨rfl, rfl⟩
    | leave _ hi => cases hi
    | step hjoins _ _ =>
        obtain ⟨e, he, hsource, _⟩ := hjoins
        exact absurd hsource (hentry.ne_of_mem (mem_connect he).1)
  · rintro ⟨rfl, rfl⟩
    exact ⟨[], rfl, .stop (by simp [vertex])⟩

/-- One way leads to a vertex where the function is left, and it ends there. -/
theorem way_leaving_iff (hs : s ∈ sources entry) :
    ((vertex next v entry).leaving next).Way s ids out ↔ ids = [next] ∧ out = .leaves := by
  have htarget : ∀ i, Joins (connect entry next) s i → i = next := by
    rintro i ⟨e, he, _, rfl⟩
    exact (mem_connect he).2
  constructor
  · intro hway
    cases hway with
    | stop hs => cases hs
    | leave hjoins _ => exact ⟨by rw [htarget _ hjoins], rfl⟩
    | step hjoins hi _ =>
        rw [htarget _ hjoins] at hi
        exact absurd (by simp [leaving, vertex]) hi
  · rintro ⟨rfl, rfl⟩
    exact .leave (joins_connect hs) (by simp [leaving, vertex])

/-! ## Alternatives -/

/-- A part of a fragment that control stays in once it is there. -/
structure Arm (y : Fragment) (next : Nat) (f : Fragment) : Prop where
  edges : y.edges ⊆ f.edges
  target : ∀ e ∈ y.edges, y.Owns next e.target
  stays : ∀ e ∈ f.edges, y.Owns next e.source → e ∈ y.edges
  ends : sources y.ends ⊆ sources f.ends
  stops : ∀ i, y.Owns next i → i ∈ sources f.ends → i ∈ sources y.ends
  returned : ∀ i, y.Owns next i → (i ∈ y.returned ↔ i ∈ f.returned)

/-- An edge of an arm stays in it. -/
theorem Arm.owns_of_joins (harm : y.Arm next f) (hjoins : Joins y.edges s i) : y.Owns next i := by
  obtain ⟨e, he, _, rfl⟩ := hjoins
  exact harm.target e he

/-- An edge that leaves a vertex of an arm is an edge of the arm. -/
theorem Arm.joins (harm : y.Arm next f) (hs : y.Owns next s) (hjoins : Joins f.edges s i) :
    Joins y.edges s i := by
  obtain ⟨e, he, rfl, rfl⟩ := hjoins
  exact ⟨e, harm.stays e he hs, rfl, rfl⟩

/-- A way through an arm is a way through the whole. -/
theorem Arm.lift (harm : y.Arm next f) (hway : y.Way s ids out) : f.Way s ids out := by
  induction hway with
  | stop hs => exact .stop (harm.ends hs)
  | leave hjoins hi =>
      exact .leave (hjoins.mono harm.edges) ((harm.returned _ (harm.owns_of_joins hjoins)).mp hi)
  | step hjoins hi _ ih =>
      exact .step (hjoins.mono harm.edges)
        (fun h => hi ((harm.returned _ (harm.owns_of_joins hjoins)).mpr h)) ih

/-- A way through the whole that starts in an arm is a way through the arm. -/
theorem Arm.restrict (harm : y.Arm next f) (hs : y.Owns next s) (hway : f.Way s ids out) :
    y.Way s ids out := by
  induction hway with
  | stop hends => exact .stop (harm.stops _ hs hends)
  | leave hjoins hi =>
      have hjoins' := harm.joins hs hjoins
      exact .leave hjoins' ((harm.returned _ (harm.owns_of_joins hjoins')).mpr hi)
  | step hjoins hi _ ih =>
      have hjoins' := harm.joins hs hjoins
      have howns := harm.owns_of_joins hjoins'
      exact .step hjoins' (fun h => hi ((harm.returned _ howns).mp h)) (ih howns)

/-- A way that steps into an arm is a way through it. -/
theorem Arm.enter (harm : y.Arm next f) (hjoins : Joins y.edges s i)
    (hway : f.Way s (i :: ids) out) : y.Way s (i :: ids) out := by
  have howns := harm.owns_of_joins hjoins
  cases hway with
  | leave _ hi => exact .leave hjoins ((harm.returned _ howns).mpr hi)
  | step _ hi hrest =>
      exact .step hjoins (fun h => hi ((harm.returned _ howns).mp h)) (harm.restrict howns hrest)

/-- The first side of a decision is an arm: the decision and the other side do not meet it. -/
theorem arm_fork_left {label : String} (hy : y.Placed (next + 1) [⟨next, label⟩])
    (hhead : (vertex next v entry).Avoids y (next + 1)) (hother : n.Avoids y (next + 1)) :
    y.Arm (next + 1) ((vertex next v entry).fork y n) where
  edges e he := List.mem_append_left _ (List.mem_append_right _ he)
  target := hy.target
  stays e he hi := by
    rcases List.mem_append.mp he with he | he
    · exact (List.mem_append.mp he).resolve_left fun he => hhead.source e he hi
    · exact absurd hi (hother.source e he)
  ends i hi := mem_ends_fork.mpr (.inl hi)
  stops i hi hends := by
    rw [mem_ends_fork] at hends
    exact hends.resolve_right fun hs => hother.ends i hs hi
  returned i hi := by
    refine ⟨List.mem_append_left _, fun hs => ?_⟩
    exact (List.mem_append.mp hs).resolve_right fun hs => hother.returned i hs hi

/-- The second side of a decision is an arm too. -/
theorem arm_fork_right {label : String} (hn : n.Placed innerNext [⟨next, label⟩])
    (hhead : (vertex next v entry).Avoids n innerNext) (hother : y.Avoids n innerNext) :
    n.Arm innerNext ((vertex next v entry).fork y n) where
  edges e he := List.mem_append_right _ he
  target := hn.target
  stays e he hi := by
    rcases List.mem_append.mp he with he | he
    · rcases List.mem_append.mp he with he | he
      · exact absurd hi (hhead.source e he)
      · exact absurd hi (hother.source e he)
    · exact he
  ends i hi := mem_ends_fork.mpr (.inr hi)
  stops i hi hends := by
    rw [mem_ends_fork] at hends
    exact hends.resolve_left fun hs => hother.ends i hs hi
  returned i hi := by
    refine ⟨List.mem_append_right _, fun hs => ?_⟩
    exact (List.mem_append.mp hs).resolve_left fun hs => hother.returned i hs hi

/-- The ways through a decision: its vertex, and then a way through one side. -/
theorem way_fork_iff {yesLabel noLabel : String} (hentry : Before entry next)
    (hs : s ∈ sources entry) (hy : y.Placed (next + 1) [⟨next, yesLabel⟩])
    (hn : n.Placed (next + 1 + y.vertices.length) [⟨next, noLabel⟩]) :
    ((vertex next v entry).fork y n).Way s ids out ↔
      ∃ rest, ids = next :: rest ∧ (y.Way next rest out ∨ n.Way next rest out) := by
  have hleft : y.Arm (next + 1) ((vertex next v entry).fork y n) :=
    arm_fork_left hy (avoids_below hentry (Nat.lt_succ_self _))
      (hn.avoids_earlier (before_singleton _ _))
  have hright : n.Arm _ ((vertex next v entry).fork y n) :=
    arm_fork_right hn (avoids_below hentry (by omega))
      (hy.avoids_later (before_singleton _ _) (Nat.le_refl _))
  have hreturned : next ∉ ((vertex next v entry).fork y n).returned := by
    intro hmem
    rcases List.mem_append.mp hmem with hmem | hmem
    · exact Nat.not_succ_le_self _ (hy.returned _ hmem).1
    · exact absurd (hn.returned _ hmem).1 (by omega)
  have hinside : ∀ e ∈ ((vertex next v entry).fork y n).edges,
      e ∈ connect entry next ∨ ((vertex next v entry).fork y n).Owns next e.source := by
    intro e he
    rw [owns_fork]
    rcases List.mem_append.mp he with he | he
    · exact (List.mem_append.mp he).imp_right fun he => (hy.source e he).imp (by simp) .inl
    · exact .inr ((hn.source e he).imp (by simp) .inr)
  rw [way_head_iff hentry hs (fun e he => List.mem_append_left _ (List.mem_append_left _ he))
    hinside (hy.owns_ends_fork hn) hreturned]
  refine exists_congr fun rest => and_congr_right fun _ => ⟨fun hway => ?_, ?_⟩
  · cases rest with
    | nil =>
        obtain ⟨hends, rfl⟩ := way_nil_iff.mp hway
        rw [mem_ends_fork] at hends
        exact hends.imp .stop .stop
    | cons i rest =>
        obtain ⟨e, he, hsource, rfl⟩ := hway.joins
        rcases List.mem_append.mp he with he | he
        · rcases List.mem_append.mp he with he | he
          · exact absurd hsource (hentry.ne_of_mem (mem_connect he).1)
          · exact .inl (hleft.enter ⟨e, he, hsource, rfl⟩ hway)
        · exact .inr (hright.enter ⟨e, he, hsource, rfl⟩ hway)
  · rintro (hway | hway)
    · exact hleft.lift hway
    · exact hright.lift hway

/-- The cases of a multiway branch are an arm of it. -/
theorem arm_select {own : List Exit} {label : String} (hentry : Before entry next)
    (hc : c.Placed (next + 1) [⟨next, label⟩]) (hown : ∀ s ∈ sources own, s = next) :
    c.Arm (next + 1) ((vertex next v entry).select c own) where
  edges := List.subset_append_right _ _
  target := hc.target
  stays e he hi := by
    refine (List.mem_append.mp he).resolve_left fun he => ?_
    exact hentry.not_owns (mem_connect he).1 (Nat.le_succ _) hi
  ends i hi := mem_ends_select.mpr (.inl hi)
  stops i hi hends := by
    rw [mem_ends_select] at hends
    refine hends.resolve_right fun hs => ?_
    obtain rfl := hown i hs
    exact Nat.not_succ_le_self _ hi.1
  returned i _ := Iff.rfl

/-- The ways through a multiway branch: its vertex, and then a way through the cases,
or nothing more if it has an end of its own. -/
theorem way_select_iff {own : List Exit} {label : String} (hentry : Before entry next)
    (hs : s ∈ sources entry) (hc : c.Placed (next + 1) [⟨next, label⟩])
    (hown : ∀ s ∈ sources own, s = next) :
    ((vertex next v entry).select c own).Way s ids out ↔
      ∃ rest, ids = next :: rest ∧
        (c.Way next rest out ∨ rest = [] ∧ next ∈ sources own ∧ out = .goesOn) := by
  have harm : c.Arm (next + 1) ((vertex next v entry).select c own) := arm_select hentry hc hown
  have hreturned : next ∉ ((vertex next v entry).select c own).returned := fun hmem =>
    Nat.not_succ_le_self _ (hc.returned _ hmem).1
  have hinside : ∀ e ∈ ((vertex next v entry).select c own).edges,
      e ∈ connect entry next ∨ ((vertex next v entry).select c own).Owns next e.source := by
    intro e he
    rw [owns_select]
    exact (List.mem_append.mp he).imp_right fun he => (hc.source e he).imp_left (by simp)
  rw [way_head_iff hentry hs (List.subset_append_left _ _) hinside (hc.owns_ends_select hown)
    hreturned]
  refine exists_congr fun rest => and_congr_right fun _ => ⟨fun hway => ?_, ?_⟩
  · cases rest with
    | nil =>
        obtain ⟨hends, rfl⟩ := way_nil_iff.mp hway
        rw [mem_ends_select] at hends
        exact hends.imp .stop fun hends => ⟨rfl, hends, rfl⟩
    | cons i rest =>
        obtain ⟨e, he, hsource, rfl⟩ := hway.joins
        rcases List.mem_append.mp he with he | he
        · exact absurd hsource (hentry.ne_of_mem (mem_connect he).1)
        · exact .inl (harm.enter ⟨e, he, hsource, rfl⟩ hway)
  · rintro (hway | ⟨rfl, hmem, rfl⟩)
    · exact harm.lift hway
    · exact .stop (mem_ends_select.mpr (.inr hmem))

/-- A case is an arm beside the later ones. -/
theorem arm_alongside_left (hf : f.Placed next entry) (hother : g.Avoids f next) :
    f.Arm next (f.alongside g) where
  edges := List.subset_append_left _ _
  target := hf.target
  stays e he hi := (List.mem_append.mp he).resolve_right fun he => hother.source e he hi
  ends i hi := mem_ends_alongside.mpr (.inl hi)
  stops i hi hends := by
    rw [mem_ends_alongside] at hends
    exact hends.resolve_right fun hs => hother.ends i hs hi
  returned i hi := by
    refine ⟨List.mem_append_left _, fun hs => ?_⟩
    exact (List.mem_append.mp hs).resolve_right fun hs => hother.returned i hs hi

theorem arm_alongside_right (hg : g.Placed innerNext entry) (hother : f.Avoids g innerNext) :
    g.Arm innerNext (f.alongside g) where
  edges := List.subset_append_right _ _
  target := hg.target
  stays e he hi := (List.mem_append.mp he).resolve_left fun he => hother.source e he hi
  ends i hi := mem_ends_alongside.mpr (.inr hi)
  stops i hi hends := by
    rw [mem_ends_alongside] at hends
    exact hends.resolve_left fun hs => hother.ends i hs hi
  returned i hi := by
    refine ⟨List.mem_append_right _, fun hs => ?_⟩
    exact (List.mem_append.mp hs).resolve_left fun hs => hother.returned i hs hi

/-- The ways through things that lie side by side are those through one of them. -/
theorem way_alongside_iff {relabelled : List Exit} (hentry : Before entry next)
    (hsame : sources relabelled = sources entry) (hf : f.Placed next relabelled)
    (hg : g.Placed (next + f.vertices.length) entry) :
    (f.alongside g).Way s ids out ↔ f.Way s ids out ∨ g.Way s ids out := by
  have hrelabelled : Before relabelled next := fun s hs => hentry s (hsame ▸ hs)
  have hleft : f.Arm next (f.alongside g) := arm_alongside_left hf (hg.avoids_earlier hentry)
  have hright : g.Arm _ (f.alongside g) :=
    arm_alongside_right hg (hf.avoids_later hrelabelled (Nat.le_refl _))
  constructor
  · intro hway
    cases ids with
    | nil =>
        obtain ⟨hends, rfl⟩ := way_nil_iff.mp hway
        rw [mem_ends_alongside] at hends
        exact hends.imp .stop .stop
    | cons i rest =>
        obtain ⟨e, he, hsource, rfl⟩ := hway.joins
        exact (List.mem_append.mp he).imp (fun he => hleft.enter ⟨e, he, hsource, rfl⟩ hway)
          (fun he => hright.enter ⟨e, he, hsource, rfl⟩ hway)
  · rintro (hway | hway)
    · exact hleft.lift hway
    · exact hright.lift hway

/-! ## One after the other -/

/-- The second of two fragments in sequence is an arm: there is no way back into the first. -/
theorem arm_andThen_right (hg : g.Placed innerNext f.ends) (hfirst : f.Avoids g innerNext) :
    g.Arm innerNext (f.andThen g) where
  edges := List.subset_append_right _ _
  target := hg.target
  stays e he hi := (List.mem_append.mp he).resolve_left fun he => hfirst.source e he hi
  ends := List.Subset.refl _
  stops i _ hends := hends
  returned i hi := by
    refine ⟨List.mem_append_right _, fun hs => ?_⟩
    exact (List.mem_append.mp hs).resolve_left fun hs => hfirst.returned i hs hi

section

variable (hentry : Before entry next) (hf : f.Placed next entry)
  (hg : g.Placed (next + f.vertices.length) f.ends)
include hg

/-- Where the first of two fragments leaves the function, the whole does, and the other way
round. -/
theorem returned_andThen_iff (hi : f.Owns next i) :
    i ∈ (f.andThen g).returned ↔ i ∈ f.returned := by
  refine ⟨fun hs => ?_, List.mem_append_left _⟩
  refine (List.mem_append.mp hs).resolve_right fun hs => ?_
  exact not_owns_of_owns_earlier (hg.returned i hs) (Nat.le_refl _) hi

include hf

/-- Out of the first fragment, control gets into the second only from an end of it. -/
theorem joins_andThen (hs : s < next + f.vertices.length) (hjoins : Joins (f.andThen g).edges s i) :
    f.Owns next i ∧ Joins f.edges s i ∨ s ∈ sources f.ends ∧ Joins g.edges s i := by
  obtain ⟨e, he, rfl, rfl⟩ := hjoins
  rcases List.mem_append.mp he with he | he
  · exact .inl ⟨hf.target e he, e, he, rfl, rfl⟩
  · refine .inr ⟨(hg.source e he).resolve_right fun hi => ?_, e, he, rfl, rfl⟩
    exact absurd hs (Nat.not_lt.mpr hi.1)

/-- A way that leaves the function in the first of two fragments does so in the whole. -/
theorem Way.andThen_leaves (hway : f.Way s ids .leaves) : (f.andThen g).Way s ids .leaves := by
  generalize hout : Outcome.leaves = out at hway
  induction hway with
  | stop => cases hout
  | leave hjoins hi =>
      exact .leave (hjoins.mono (List.subset_append_left _ _)) (List.mem_append_left _ hi)
  | step hjoins hi _ ih =>
      obtain ⟨e, he, rfl, rfl⟩ := hjoins
      have howns := hf.target e he
      exact .step ⟨e, List.mem_append_left _ he, rfl, rfl⟩
        (mt (returned_andThen_iff hg howns).mp hi) (ih hout)

include hentry

/-- A way through the first of two fragments goes on as a way through the second. -/
theorem Way.andThen {rest : List Nat} (hway : f.Way s ids .goesOn)
    (hrest : g.Way (lastFrom s ids) rest out) : (f.andThen g).Way s (ids ++ rest) out := by
  generalize hout : Outcome.goesOn = first at hway
  induction hway with
  | stop => exact (arm_andThen_right hg (hf.avoids_later hentry (Nat.le_refl _))).lift hrest
  | leave => cases hout
  | step hjoins hi _ ih =>
      obtain ⟨e, he, rfl, rfl⟩ := hjoins
      have howns := hf.target e he
      exact .step ⟨e, List.mem_append_left _ he, rfl, rfl⟩
        (mt (returned_andThen_iff hg howns).mp hi) (ih hrest hout)

/-- A way through two fragments in sequence goes through the first and then through the second, or
leaves the function in the first. -/
theorem way_andThen_split (hs : s < next + f.vertices.length) (hway : (f.andThen g).Way s ids out) :
    (∃ front rest, ids = front ++ rest ∧ f.Way s front .goesOn ∧
        g.Way (lastFrom s front) rest out) ∨
      out = .leaves ∧ f.Way s ids .leaves := by
  have harm := arm_andThen_right hg (hf.avoids_later hentry (Nat.le_refl _))
  -- The split is at the first step that leads out of the first fragment.
  induction hway with
  | @stop s hends =>
      rcases hg.ends s hends with hmem | hmem
      · exact .inl ⟨[], [], rfl, .stop hmem, .stop hends⟩
      · exact absurd hs (Nat.not_lt.mpr hmem.1)
  | @leave s i hjoins hi =>
      rcases joins_andThen hf hg hs hjoins with ⟨howns, hjoins'⟩ | ⟨hmem, hjoins'⟩
      · exact .inr ⟨rfl, .leave hjoins' ((returned_andThen_iff hg howns).mp hi)⟩
      · exact .inl ⟨[], [i], rfl, .stop hmem, harm.enter hjoins' (.leave hjoins hi)⟩
  | @step s i ids out hjoins hi hrest ih =>
      rcases joins_andThen hf hg hs hjoins with ⟨howns, hjoins'⟩ | ⟨hmem, hjoins'⟩
      · have hi' := mt (returned_andThen_iff hg howns).mpr hi
        rcases ih howns.2 with ⟨front, rest, rfl, hfront, hway⟩ | ⟨rfl, hway⟩
        · exact .inl ⟨i :: front, rest, rfl, .step hjoins' hi' hfront, hway⟩
        · exact .inr ⟨rfl, .step hjoins' hi' hway⟩
      · exact .inl ⟨[], i :: ids, rfl, .stop hmem, harm.enter hjoins' (.step hjoins hi hrest)⟩

/-- The ways through one fragment and then another: a way through the first and one
through the second, or a way on which the function is left in the first. -/
theorem way_andThen_iff (hs : s ∈ sources entry) : (f.andThen g).Way s ids out ↔
    (∃ front rest, ids = front ++ rest ∧ f.Way s front .goesOn ∧
        g.Way (lastFrom s front) rest out) ∨
      out = .leaves ∧ f.Way s ids .leaves := by
  constructor
  · exact way_andThen_split hentry hf hg (Nat.lt_of_lt_of_le (hentry s hs) (Nat.le_add_right _ _))
  · rintro (⟨front, rest, rfl, hfront, hrest⟩ | ⟨rfl, hway⟩)
    · exact hfront.andThen hentry hf hg hrest
    · exact hway.andThen_leaves hf hg

end

/-! ## Around a loop -/

/-- A way that leaves the function in the body of a loop leaves it in the loop. -/
theorem Way.cycle_leaves (hway : b.Way s ids .leaves) :
    ((vertex next v entry).cycle next b).Way s ids .leaves := by
  generalize hout : Outcome.leaves = out at hway
  have hedges : b.edges ⊆ ((vertex next v entry).cycle next b).edges := fun e he =>
    List.mem_append_left _ (List.mem_append_right _ he)
  induction hway with
  | stop => cases hout
  | leave hjoins hi => exact .leave (hjoins.mono hedges) hi
  | step hjoins hi _ ih => exact .step (hjoins.mono hedges) hi (ih hout)

section

variable {label : String} (hentry : Before entry next) (hb : b.Placed (next + 1) [⟨next, label⟩])
include hb

/-- The function is not left at the decision of a loop. -/
theorem loop_not_mem_returned : next ∉ b.returned := fun hmem =>
  Nat.not_succ_le_self _ (hb.returned _ hmem).1

/-- A lap: through the body and back to the loop. -/
theorem Way.lap {rest : List Nat} (hway : b.Way s ids .goesOn)
    (hrest : ((vertex next v entry).cycle next b).Way next rest out) :
    ((vertex next v entry).cycle next b).Way s (ids ++ next :: rest) out := by
  generalize hout : Outcome.goesOn = first at hway
  have hedges : b.edges ⊆ ((vertex next v entry).cycle next b).edges := fun e he =>
    List.mem_append_left _ (List.mem_append_right _ he)
  induction hway with
  | @stop s hs =>
      have hback : s ∈ b.backSources := mem_backSources.mpr (.inl hs)
      have hjoins : Joins ((vertex next v entry).cycle next b).edges s next :=
        ⟨_, List.mem_append_right _ (List.mem_map_of_mem hback), rfl, rfl⟩
      have hnot : next ∉ b.returned := loop_not_mem_returned hb
      exact .step hjoins hnot hrest
  | leave => cases hout
  | step hjoins hi _ ih => exact .step (hjoins.mono hedges) hi (ih hout)

include hentry

/-- Around a loop, control goes on in the body or back to the loop. -/
theorem joins_cycle (hs : next ≤ s)
    (hjoins : Joins ((vertex next v entry).cycle next b).edges s i) :
    b.Owns (next + 1) i ∧ Joins b.edges s i ∨ s ∈ b.backSources ∧ i = next := by
  obtain ⟨e, he, rfl, rfl⟩ := hjoins
  rcases List.mem_append.mp he with he | he
  · rcases List.mem_append.mp he with he | he
    · exact absurd hs (Nat.not_le.mpr (hentry _ (mem_connect he).1))
    · exact .inl ⟨hb.target e he, e, he, rfl, rfl⟩
  · obtain ⟨source, hsource, rfl⟩ := List.mem_map.mp he
    exact .inr ⟨hsource, rfl⟩

/-- The first lap of a way around a loop. Control does not go back from a vertex at
which the function is left. -/
theorem way_cycle_split (hs : next ≤ s) (hreturned : s ∉ b.returned)
    (hway : ((vertex next v entry).cycle next b).Way s ids out) :
    (∃ lap rest, ids = lap ++ next :: rest ∧ b.Way s lap .goesOn ∧
        ((vertex next v entry).cycle next b).Way next rest out) ∨
      (s = next ∧ ids = [] ∧ out = .goesOn) ∨ out = .leaves ∧ b.Way s ids .leaves := by
  induction hway with
  | @stop s hends => exact .inr (.inl ⟨by simpa [cycle] using hends, rfl, rfl⟩)
  | @leave s i hjoins hi =>
      rcases joins_cycle hentry hb hs hjoins with ⟨_, hjoins'⟩ | ⟨_, rfl⟩
      · exact .inr (.inr ⟨rfl, .leave hjoins' hi⟩)
      · have hmem : i ∈ b.returned := hi
        exact absurd hmem (loop_not_mem_returned hb)
  | @step s i ids out hjoins hi hrest ih =>
      rcases joins_cycle hentry hb hs hjoins with ⟨howns, hjoins'⟩ | ⟨hback, rfl⟩
      · have hle : next ≤ i := Nat.le_of_succ_le howns.1
        rcases ih hle hi with ⟨lap, rest, rfl, hlap, hway⟩ | ⟨rfl, _⟩ | ⟨rfl, hway⟩
        · exact .inl ⟨i :: lap, rest, rfl, .step hjoins' hi hlap, hway⟩
        · exact absurd howns.1 (Nat.not_succ_le_self _)
        · exact .inr (.inr ⟨rfl, .step hjoins' hi hway⟩)
      · refine .inl ⟨[], ids, rfl, .stop ?_, hrest⟩
        -- Where the function is left, the way would have ended.
        exact (mem_backSources.mp hback).resolve_right fun h => hreturned h.2

/-- Every way around a loop is made of laps. -/
theorem exists_laps (hway : ((vertex next v entry).cycle next b).Way next ids out) :
    ∃ rounds last, ids = laps next rounds ++ last ∧ (∀ round ∈ rounds, b.Way next round .goesOn) ∧
      (last = [] ∧ out = .goesOn ∨ out = .leaves ∧ b.Way next last .leaves) := by
  -- What is left after the first lap is shorter than the way.
  induction hlength : ids.length using Nat.strongRecOn generalizing ids with
  | _ length ih =>
      rcases way_cycle_split hentry hb (Nat.le_refl _) (loop_not_mem_returned hb) hway with
        ⟨round, rest, rfl, hround, hrest⟩ | ⟨_, rfl, rfl⟩ | ⟨rfl, hlast⟩
      · have hlt : rest.length < length := by
          rw [← hlength, List.length_append, List.length_cons]
          omega
        obtain ⟨rounds, last, rfl, hrounds, hend⟩ := ih _ hlt hrest rfl
        refine ⟨round :: rounds, last, by simp, ?_, hend⟩
        intro x hx
        rcases List.mem_cons.mp hx with rfl | hx
        · exact hround
        · exact hrounds x hx
      · exact ⟨[], [], rfl, nofun, .inl ⟨rfl, rfl⟩⟩
      · exact ⟨[], ids, rfl, nofun, .inr ⟨rfl, hlast⟩⟩

omit hentry in
/-- Rounds of the body, each of which goes on, come before any way through the loop. -/
theorem way_of_laps {rounds : List (List Nat)} {last : List Nat}
    (hrounds : ∀ round ∈ rounds, b.Way next round .goesOn)
    (hlast : ((vertex next v entry).cycle next b).Way next last out) :
    ((vertex next v entry).cycle next b).Way next (laps next rounds ++ last) out := by
  induction rounds with
  | nil => exact hlast
  | cons round rounds ih =>
      have hrest := ih fun x hx => hrounds x (List.mem_cons_of_mem _ hx)
      simpa using (hrounds round List.mem_cons_self).lap hb hrest

/-- The ways through a loop: its vertex, any number of laps, and possibly a way on which
the function is left in the body. -/
theorem way_cycle_iff (hs : s ∈ sources entry) :
    ((vertex next v entry).cycle next b).Way s ids out ↔
      ∃ rounds last, ids = next :: (laps next rounds ++ last) ∧
        (∀ round ∈ rounds, b.Way next round .goesOn) ∧
        (last = [] ∧ out = .goesOn ∨ out = .leaves ∧ b.Way next last .leaves) := by
  have hinside : ∀ e ∈ ((vertex next v entry).cycle next b).edges,
      e ∈ connect entry next ∨ ((vertex next v entry).cycle next b).Owns next e.source := by
    intro e he
    rw [owns_cycle]
    rcases List.mem_append.mp he with he | he
    · exact (List.mem_append.mp he).imp_right fun he => (hb.source e he).imp_left (by simp)
    · obtain ⟨source, hsource, rfl⟩ := List.mem_map.mp he
      exact .inr (hb.backSources hsource)
  have hnot : next ∉ b.returned := loop_not_mem_returned hb
  rw [way_head_iff hentry hs (fun e he => List.mem_append_left _ (List.mem_append_left _ he))
    hinside owns_ends_cycle hnot]
  constructor
  · rintro ⟨rest, rfl, hrest⟩
    obtain ⟨rounds, last, rfl, hrounds, hend⟩ := exists_laps hentry hb hrest
    exact ⟨rounds, last, rfl, hrounds, hend⟩
  · rintro ⟨rounds, last, rfl, hrounds, hend⟩
    refine ⟨_, rfl, way_of_laps hb hrounds ?_⟩
    rcases hend with ⟨rfl, rfl⟩ | ⟨rfl, hlast⟩
    · exact .stop (by simp [cycle])
    · exact hlast.cycle_leaves

end

end Fragment

end Flow

end Cyclomatic
