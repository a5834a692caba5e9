import Mathlib.Data.List.Basic
import Cyclomatic.Proofs.Flow.Emission

/-! # Where a fragment lies

A fragment owns a stretch of consecutive numbers. Its edges lead into that
stretch, from inside it or from the exits the fragment was entered from, and
whatever it leaves open starts at one of the two.
-/

namespace Cyclomatic

open Cyclomatic.Flow

namespace Flow

theorem mem_unique {α : Type} [DecidableEq α] {x : α} {xs : List α} :
    x ∈ unique xs ↔ x ∈ xs := by
  induction xs with
  | nil => simp [unique]
  | cons y ys ih =>
      by_cases heq : x = y
      · simp [unique, heq]
      · simp [unique, heq, ih]

/-- Doubles are left out, so that no edge to the exit is drawn twice. -/
theorem nodup_unique {α : Type} [DecidableEq α] (xs : List α) : (unique xs).Nodup := by
  induction xs with
  | nil => exact List.nodup_nil
  | cons y ys ih =>
      refine List.nodup_cons.mpr ⟨?_, ih.filter _⟩
      simp

theorem unique_eq_nil_iff {α : Type} [DecidableEq α] {xs : List α} :
    unique xs = [] ↔ xs = [] := by
  cases xs <;> simp [unique]

/-- What is left is one element exactly if there is no other among those that were given. -/
theorem unique_eq_singleton_iff {α : Type} [DecidableEq α] {x : α} {xs : List α} :
    unique xs = [x] ↔ xs ≠ [] ∧ ∀ y ∈ xs, y = x := by
  constructor
  · intro h
    refine ⟨?_, fun y hy => ?_⟩
    · rintro rfl
      cases h
    · rw [← mem_unique, h] at hy
      exact List.mem_singleton.mp hy
  · rintro ⟨hne, hall⟩
    have hnodup := nodup_unique xs
    cases hu : unique xs with
    | nil => exact absurd (unique_eq_nil_iff.mp hu) hne
    | cons y ys =>
        have hmem : ∀ z ∈ y :: ys, z = x := fun z hz => hall z (mem_unique.mp (hu ▸ hz))
        rw [hu, List.nodup_cons] at hnodup
        cases ys with
        | nil => rw [hmem y (by simp)]
        | cons z zs =>
            refine absurd ?_ hnodup.1
            rw [hmem y (by simp), hmem z (by simp)]
            exact List.mem_cons_self

/-- The vertices from which exits lead on. -/
def sources (exits : List Exit) : List Nat := exits.map (·.source)

@[simp] theorem sources_nil : sources [] = [] := rfl

@[simp] theorem sources_cons (x : Exit) (xs : List Exit) :
    sources (x :: xs) = x.source :: sources xs := rfl

@[simp] theorem sources_append (xs ys : List Exit) :
    sources (xs ++ ys) = sources xs ++ sources ys := List.map_append

@[simp] theorem sources_eq_nil_iff {xs : List Exit} : sources xs = [] ↔ xs = [] :=
  List.map_eq_nil_iff

theorem mem_sources_unique {s : Nat} {xs : List Exit} :
    s ∈ sources (unique xs) ↔ s ∈ sources xs := by
  simp [sources, mem_unique]

theorem sources_map_exit (ids : List Nat) : sources (ids.map (⟨·, ""⟩)) = ids := by
  simp [sources, Function.comp_def]

/-- Renaming the label of exits keeps their vertices. -/
@[simp] theorem sources_caseEntry (text : Range → String) (test : Option Range)
    (entry : List Exit) : sources (Outline.caseEntry text test entry) = sources entry := by
  simp [sources, Outline.caseEntry, Function.comp_def]

/-- An edge that exits are connected by leads from one of them to the target. -/
theorem mem_connect {e : Edge} {exits : List Exit} {target : Nat} (he : e ∈ connect exits target) :
    e.source ∈ sources exits ∧ e.target = target := by
  obtain ⟨x, hx, rfl⟩ := List.mem_map.mp he
  exact ⟨List.mem_map_of_mem hx, rfl⟩

namespace Fragment

variable {f g y n b h c head : Fragment} {next i : Nat} {entry : List Exit}

/-- The numbers a fragment gives to its vertices. -/
def Owns (f : Fragment) (next i : Nat) : Prop := next ≤ i ∧ i < next + f.vertices.length

instance (f : Fragment) (next i : Nat) : Decidable (f.Owns next i) :=
  inferInstanceAs (Decidable (next ≤ i ∧ i < next + f.vertices.length))

@[simp] theorem length_vertex (id : Nat) (v : Vertex) (entry : List Exit) :
    (vertex id v entry).vertices.length = 1 := rfl

/-- The second fragment is laid down after all of the first, and so their vertices add up. -/
@[simp] theorem length_andThen :
    (f.andThen g).vertices.length = f.vertices.length + g.vertices.length :=
  List.length_append

/-- A decision with two sides has the vertices of the decision and those of both sides. -/
@[simp] theorem length_fork : (head.fork y n).vertices.length =
    head.vertices.length + y.vertices.length + n.vertices.length := by
  simp [fork, Nat.add_assoc]

@[simp] theorem length_cycle :
    (head.cycle next b).vertices.length = head.vertices.length + b.vertices.length :=
  List.length_append

@[simp] theorem length_select (own : List Exit) :
    (head.select c own).vertices.length = head.vertices.length + c.vertices.length :=
  List.length_append

@[simp] theorem length_alongside :
    (f.alongside g).vertices.length = f.vertices.length + g.vertices.length :=
  List.length_append

/-- A handler adds its vertices to those of the block it guards, whether or not it is ever
entered. -/
@[simp] theorem length_protect :
    (b.protect h).vertices.length = b.vertices.length + h.vertices.length :=
  List.length_append

/-- The vertices of a final part follow those of what it ends, however control comes to it. -/
@[simp] theorem vertices_finish : (f.finish g).vertices = f.vertices ++ g.vertices := by
  unfold finish
  split <;> rfl

@[simp] theorem edges_finish : (f.finish g).edges = f.edges ++ g.edges := by
  unfold finish
  split <;> rfl

/-- What a handler around a guarded block would be entered from does not depend on the final
part. -/
@[simp] theorem entered_finish : (f.finish g).entered = f.entered := by
  unfold finish
  split <;> rfl

/-- A guarded block always counts as something that was laid down, even if all its parts are
empty. -/
@[simp] theorem idle_finish : (f.finish g).idle = false := by
  unfold finish
  split <;> rfl

theorem owns_vertex {v : Vertex} : (vertex next v entry).Owns next i ↔ i = next := by
  simp only [Owns, length_vertex]
  omega

/-- A number of two fragments in sequence belongs to the one or to the other, which starts where
the first one ends. -/
theorem owns_andThen :
    (f.andThen g).Owns next i ↔ f.Owns next i ∨ g.Owns (next + f.vertices.length) i := by
  simp only [Owns, length_andThen]
  omega

/-- The numbers of a decision with two sides: first its own, then those of the one side, then those
of the other. -/
theorem owns_fork {v : Vertex} : ((vertex next v entry).fork y n).Owns next i ↔
    i = next ∨ y.Owns (next + 1) i ∨ n.Owns (next + 1 + y.vertices.length) i := by
  simp only [Owns, length_fork, length_vertex]
  omega

/-- The numbers of a loop: its own, and then those of its body. -/
theorem owns_cycle {v : Vertex} : ((vertex next v entry).cycle next b).Owns next i ↔
    i = next ∨ b.Owns (next + 1) i := by
  simp only [Owns, length_cycle, length_vertex]
  omega

/-- The numbers of a multiway branch: its own, and then those of its cases. -/
theorem owns_select {v : Vertex} {own : List Exit} :
    ((vertex next v entry).select c own).Owns next i ↔ i = next ∨ c.Owns (next + 1) i := by
  simp only [Owns, length_select, length_vertex]
  omega

/-- Fragments that are entered from the same exits still have their numbers one after the other. -/
theorem owns_alongside :
    (f.alongside g).Owns next i ↔ f.Owns next i ∨ g.Owns (next + f.vertices.length) i := by
  simp only [Owns, length_alongside]
  omega

/-- The numbers of a handler follow those of the block it guards. -/
theorem owns_protect :
    (b.protect h).Owns next i ↔ b.Owns next i ∨ h.Owns (next + b.vertices.length) i := by
  simp only [Owns, length_protect]
  omega

/-- The numbers of a final part follow those of what it ends. -/
theorem owns_finish :
    (f.finish g).Owns next i ↔ f.Owns next i ∨ g.Owns (next + f.vertices.length) i := by
  simp only [Owns, vertices_finish, List.length_append]
  omega

/-- Control goes on after a decision where it goes on after one of its sides. -/
theorem mem_ends_fork {s : Nat} :
    s ∈ sources (head.fork y n).ends ↔ s ∈ sources y.ends ∨ s ∈ sources n.ends := by
  rw [fork, mem_sources_unique, sources_append, List.mem_append]

/-- Control goes on after a multiway branch where it goes on after a case, or past all of them. -/
theorem mem_ends_select {s : Nat} {own : List Exit} :
    s ∈ sources (head.select c own).ends ↔ s ∈ sources c.ends ∨ s ∈ sources own := by
  rw [select, mem_sources_unique, sources_append, List.mem_append]

theorem mem_ends_alongside {s : Nat} :
    s ∈ sources (f.alongside g).ends ↔ s ∈ sources f.ends ∨ s ∈ sources g.ends := by
  rw [alongside, sources_append, List.mem_append]

/-- Control goes on after a guarded block where it goes on after the block or after its handler. -/
theorem mem_ends_protect {s : Nat} :
    s ∈ sources (b.protect h).ends ↔ s ∈ sources b.ends ∨ s ∈ sources h.ends := by
  rw [protect, mem_sources_unique, sources_append, List.mem_append]

/-- A loop is gone back to from the ends of its body, or, if there are none, from where the body
leaves the function. -/
theorem mem_backSources {s : Nat} :
    s ∈ b.backSources ↔ s ∈ sources b.ends ∨ b.ends = [] ∧ s ∈ b.returned := by
  rw [backSources, mem_unique]
  cases hends : b.ends <;> simp [sources]

/-- A fragment in its place: numbered from `next` on and entered from `entry`. -/
structure Placed (f : Fragment) (next : Nat) (entry : List Exit) : Prop where
  numbered : f.vertices.map (·.1) = List.range' next f.vertices.length
  target : ∀ e ∈ f.edges, f.Owns next e.target
  source : ∀ e ∈ f.edges, e.source ∈ sources entry ∨ f.Owns next e.source
  ends : ∀ s ∈ sources f.ends, s ∈ sources entry ∨ f.Owns next s
  returned : ∀ s ∈ f.returned, f.Owns next s
  entered : ∀ s ∈ sources f.entered, s ∈ sources entry ∨ f.Owns next s
  covers : sources entry ⊆ sources f.entered
  idle : f.idle = true → f = .pass entry

/-- A fragment that adds nothing hands its exits on, and so it is placed wherever it stands. -/
theorem placed_pass : (pass entry).Placed next entry where
  numbered := rfl
  target := by simp [pass]
  source := by simp [pass]
  ends s hs := .inl hs
  returned := by simp [pass]
  entered s hs := .inl hs
  covers := List.Subset.refl _
  idle _ := rfl

/-- Nothing is placed wherever it stands: it has no vertices, and nothing leads on from it. -/
theorem placed_nothing : (nothing entry).Placed next entry where
  numbered := rfl
  target := by simp [nothing]
  source := by simp [nothing]
  ends := by simp [nothing]
  returned := by simp [nothing]
  entered s hs := .inl hs
  covers := List.Subset.refl _
  idle := by simp [nothing]

/-- Control goes on from a vertex at the vertex itself. -/
theorem owns_ends_vertex {v : Vertex} :
    ∀ s ∈ sources (vertex next v entry).ends, (vertex next v entry).Owns next s := by
  intro s hs
  exact owns_vertex.mpr (by simpa [vertex] using hs)

/-- One vertex that all exits of the entry lead to is placed. -/
theorem placed_vertex (v : Vertex) : (vertex next v entry).Placed next entry where
  numbered := rfl
  target e he := owns_vertex.mpr (mem_connect he).2
  source e he := .inl (mem_connect he).1
  ends s hs := .inr (owns_ends_vertex s hs)
  returned := by simp [vertex]
  entered s hs := .inl hs
  covers := List.Subset.refl _
  idle := by simp [vertex]

/-- A vertex of a fragment may be marked as one where the function is left. -/
theorem Placed.leaving (hf : f.Placed next entry) (hidle : f.idle = false) (hi : f.Owns next i) :
    (f.leaving i).Placed next entry where
  numbered := hf.numbered
  target := hf.target
  source := hf.source
  ends := by simp [Fragment.leaving]
  returned s hs := by
    rcases List.mem_append.mp hs with hs | hs
    · exact hf.returned s hs
    · obtain rfl := List.mem_singleton.mp hs
      exact hi
  entered := hf.entered
  covers := hf.covers
  idle hidle' := by simp [Fragment.leaving, hidle] at hidle'

/-- Two fragments in sequence are placed if the second one starts at the next number and from the
ends of the first. If the first one is idle, the second takes over its entry. -/
theorem Placed.andThen (hf : f.Placed next entry)
    (hg : g.Placed (next + f.vertices.length) f.ends) : (f.andThen g).Placed next entry where
  numbered := by
    simp only [Fragment.andThen, List.map_append, List.length_append, hf.numbered, hg.numbered,
      List.range'_append_1]
  target e he := by
    rw [owns_andThen]
    exact (List.mem_append.mp he).imp (hf.target e) (hg.target e)
  source e he := by
    rw [owns_andThen]
    rcases List.mem_append.mp he with he | he
    · exact (hf.source e he).imp_right .inl
    · rcases hg.source e he with hs | hs
      · exact (hf.ends _ hs).imp_right .inl
      · exact .inr (.inr hs)
  ends s hs := by
    rw [owns_andThen]
    rcases hg.ends s hs with hs | hs
    · exact (hf.ends s hs).imp_right .inl
    · exact .inr (.inr hs)
  returned s hs := by
    rw [owns_andThen]
    exact (List.mem_append.mp hs).imp (hf.returned s) (hg.returned s)
  entered s hs := by
    rw [owns_andThen]
    by_cases hidle : f.idle = true
    · rw [Fragment.andThen, if_pos hidle] at hs
      rcases hg.entered s hs with hs | hs
      · exact (hf.ends s hs).imp_right .inl
      · exact .inr (.inr hs)
    · rw [Fragment.andThen, if_neg hidle] at hs
      exact (hf.entered s hs).imp_right .inl
  covers := by
    by_cases hidle : f.idle = true
    · rw [Fragment.andThen, if_pos hidle]
      have hends : f.ends = entry := by rw [hf.idle hidle]; rfl
      simpa only [hends] using hg.covers
    · rw [Fragment.andThen, if_neg hidle]
      exact hf.covers
  idle hidle := by
    obtain ⟨hfidle, hgidle⟩ : f.idle = true ∧ g.idle = true := by
      simpa [Fragment.andThen] using hidle
    obtain rfl := hf.idle hfidle
    obtain rfl := hg.idle hgidle
    rfl

/-- Ends after a fragment that keeps nothing of its entry open lie in the two. -/
theorem Placed.owns_ends_andThen (hf : ∀ s ∈ sources f.ends, f.Owns next s)
    (hg : g.Placed (next + f.vertices.length) f.ends) :
    ∀ s ∈ sources (f.andThen g).ends, (f.andThen g).Owns next s := by
  intro s hs
  rw [owns_andThen]
  exact (hg.ends s hs).imp_left (hf s)

/-- Control goes on after a decision at vertices of the whole: even a side that adds nothing ends
at the decision. -/
theorem Placed.owns_ends_fork {v : Vertex} {yesLabel noLabel : String}
    (hy : y.Placed (next + 1) [⟨next, yesLabel⟩])
    (hn : n.Placed (next + 1 + y.vertices.length) [⟨next, noLabel⟩]) :
    ∀ s ∈ sources ((vertex next v entry).fork y n).ends,
      ((vertex next v entry).fork y n).Owns next s := by
  intro s hs
  rw [owns_fork]
  rw [mem_ends_fork] at hs
  rcases hs with hs | hs
  · exact (hy.ends s hs).imp (by simp) .inl
  · exact (hn.ends s hs).imp (by simp) .inr

/-- A decision with two placed sides is placed. Both sides start at the decision, each under its
label. -/
theorem Placed.fork {v : Vertex} {yesLabel noLabel : String}
    (hy : y.Placed (next + 1) [⟨next, yesLabel⟩])
    (hn : n.Placed (next + 1 + y.vertices.length) [⟨next, noLabel⟩]) :
    ((vertex next v entry).fork y n).Placed next entry where
  numbered := by
    simp only [Fragment.fork, vertex, List.map_append, List.length_append, hy.numbered, hn.numbered,
      List.map_cons, List.map_nil, List.length_singleton, ← List.range'_append_1, List.range'_one]
    congr 2
    omega
  target e he := by
    rw [owns_fork]
    rcases List.mem_append.mp he with he | he
    · exact (List.mem_append.mp he).imp (fun h => (mem_connect h).2) (.inl ∘ hy.target e)
    · exact .inr (.inr (hn.target e he))
  source e he := by
    rw [owns_fork]
    rcases List.mem_append.mp he with he | he
    · rcases List.mem_append.mp he with he | he
      · exact .inl (mem_connect he).1
      · rcases hy.source e he with hs | hs
        · exact .inr (.inl (by simpa using hs))
        · exact .inr (.inr (.inl hs))
    · rcases hn.source e he with hs | hs
      · exact .inr (.inl (by simpa using hs))
      · exact .inr (.inr (.inr hs))
  ends s hs := .inr (hy.owns_ends_fork hn s hs)
  returned s hs := by
    rw [owns_fork]
    exact .inr ((List.mem_append.mp hs).imp (hy.returned s) (hn.returned s))
  entered s hs := .inl hs
  covers := List.Subset.refl _
  idle := by simp [Fragment.fork]

/-- A loop goes back from its body or from itself. -/
theorem Placed.backSources {label : String} (hb : b.Placed (next + 1) [⟨next, label⟩]) {s : Nat}
    (hs : s ∈ b.backSources) : s = next ∨ b.Owns (next + 1) s := by
  rcases mem_backSources.mp hs with hs | ⟨_, hs⟩
  · exact (hb.ends s hs).imp_left (by simp)
  · exact .inr (hb.returned s hs)

/-- Control goes on after a loop at its decision. -/
theorem owns_ends_cycle {v : Vertex} :
    ∀ s ∈ sources ((vertex next v entry).cycle next b).ends,
      ((vertex next v entry).cycle next b).Owns next s := by
  intro s hs
  exact owns_cycle.mpr (.inl (by simpa [cycle] using hs))

/-- A loop around a placed body is placed; the edges back to its decision come from inside the
body. -/
theorem Placed.cycle {v : Vertex} {label : String} (hb : b.Placed (next + 1) [⟨next, label⟩]) :
    ((vertex next v entry).cycle next b).Placed next entry where
  numbered := by
    simp only [Fragment.cycle, vertex, List.map_append, List.length_append, hb.numbered,
      List.map_cons, List.map_nil, List.length_singleton, ← List.range'_append_1, List.range'_one]
  target e he := by
    rw [owns_cycle]
    rcases List.mem_append.mp he with he | he
    · exact (List.mem_append.mp he).imp (fun h => (mem_connect h).2) (hb.target e)
    · obtain ⟨s, _, rfl⟩ := List.mem_map.mp he
      exact .inl rfl
  source e he := by
    rw [owns_cycle]
    rcases List.mem_append.mp he with he | he
    · rcases List.mem_append.mp he with he | he
      · exact .inl (mem_connect he).1
      · exact .inr ((hb.source e he).imp_left (by simp))
    · obtain ⟨s, hs, rfl⟩ := List.mem_map.mp he
      exact .inr (hb.backSources hs)
  ends s hs := .inr (owns_ends_cycle s hs)
  returned s hs := owns_cycle.mpr (.inr (hb.returned s hs))
  entered s hs := .inl hs
  covers := List.Subset.refl _
  idle := by simp [Fragment.cycle]

/-- Control goes on after a multiway branch at vertices of the whole, if what leads past all cases
is the branch itself. -/
theorem Placed.owns_ends_select {v : Vertex} {own : List Exit} {label : String}
    (hc : c.Placed (next + 1) [⟨next, label⟩]) (hown : ∀ s ∈ sources own, s = next) :
    ∀ s ∈ sources ((vertex next v entry).select c own).ends,
      ((vertex next v entry).select c own).Owns next s := by
  intro s hs
  rw [owns_select]
  rw [mem_ends_select] at hs
  rcases hs with hs | hs
  · exact (hc.ends s hs).imp_left (by simp)
  · exact .inl (hown s hs)

/-- A multiway branch with placed cases is placed. Its own ends stand for the way past all cases. -/
theorem Placed.select {v : Vertex} {own : List Exit} {label : String}
    (hc : c.Placed (next + 1) [⟨next, label⟩]) (hown : ∀ s ∈ sources own, s = next) :
    ((vertex next v entry).select c own).Placed next entry where
  numbered := by
    simp only [Fragment.select, vertex, List.map_append, List.length_append, hc.numbered,
      List.map_cons, List.map_nil, List.length_singleton, ← List.range'_append_1, List.range'_one]
  target e he := by
    rw [owns_select]
    exact (List.mem_append.mp he).imp (fun h => (mem_connect h).2) (hc.target e)
  source e he := by
    rw [owns_select]
    rcases List.mem_append.mp he with he | he
    · exact .inl (mem_connect he).1
    · exact .inr ((hc.source e he).imp_left (by simp))
  ends s hs := .inr (hc.owns_ends_select hown s hs)
  returned s hs := owns_select.mpr (.inr (hc.returned s hs))
  entered s hs := .inl hs
  covers := List.Subset.refl _
  idle := by simp [Fragment.select]

/-- Cases lie side by side: they are entered from the same vertices. -/
theorem Placed.alongside {relabelled : List Exit} (hf : f.Placed next relabelled)
    (hsame : sources relabelled = sources entry) (hg : g.Placed (next + f.vertices.length) entry) :
    (f.alongside g).Placed next entry where
  numbered := by
    simp only [Fragment.alongside, List.map_append, List.length_append, hf.numbered, hg.numbered,
      List.range'_append_1]
  target e he := by
    rw [owns_alongside]
    exact (List.mem_append.mp he).imp (hf.target e) (hg.target e)
  source e he := by
    rw [owns_alongside, ← hsame]
    rcases List.mem_append.mp he with he | he
    · exact (hf.source e he).imp_right .inl
    · exact (hsame ▸ hg.source e he).imp_right .inr
  ends s hs := by
    rw [owns_alongside, ← hsame]
    rw [mem_ends_alongside] at hs
    rcases hs with hs | hs
    · exact (hf.ends s hs).imp_right .inl
    · exact (hsame ▸ hg.ends s hs).imp_right .inr
  returned s hs := by
    rw [owns_alongside]
    exact (List.mem_append.mp hs).imp (hf.returned s) (hg.returned s)
  entered s hs := by
    rw [owns_alongside, ← hsame]
    exact (hf.entered s hs).imp_right .inl
  covers := hsame ▸ hf.covers
  idle := by simp [Fragment.alongside]

/-- A guarded block with its handler is placed. The handler starts from what the block was entered
from, which may lie before the block. -/
theorem Placed.protect (hb : b.Placed next entry)
    (hh : h.Placed (next + b.vertices.length) b.entered) : (b.protect h).Placed next entry where
  numbered := by
    simp only [Fragment.protect, List.map_append, List.length_append, hb.numbered, hh.numbered,
      List.range'_append_1]
  target e he := by
    rw [owns_protect]
    exact (List.mem_append.mp he).imp (hb.target e) (hh.target e)
  source e he := by
    rw [owns_protect]
    rcases List.mem_append.mp he with he | he
    · exact (hb.source e he).imp_right .inl
    · rcases hh.source e he with hs | hs
      · exact (hb.entered _ hs).imp_right .inl
      · exact .inr (.inr hs)
  ends s hs := by
    rw [owns_protect]
    rw [mem_ends_protect] at hs
    rcases hs with hs | hs
    · exact (hb.ends s hs).imp_right .inl
    · rcases hh.ends s hs with hs | hs
      · exact (hb.entered _ hs).imp_right .inl
      · exact .inr (.inr hs)
  returned s hs := by
    rw [owns_protect]
    exact (List.mem_append.mp hs).imp (hb.returned s) (hh.returned s)
  entered s hs := by
    rw [owns_protect]
    by_cases hidle : b.idle = true
    · rw [Fragment.protect, if_pos hidle, sources_append, List.mem_append] at hs
      rcases hs with hs | hs
      · exact (hb.entered s hs).imp_right .inl
      · rcases hh.ends s hs with hs | hs
        · exact (hb.entered _ hs).imp_right .inl
        · exact .inr (.inr hs)
    · rw [Fragment.protect, if_neg hidle] at hs
      exact (hb.entered s hs).imp_right .inl
  covers := by
    by_cases hidle : b.idle = true
    · rw [Fragment.protect, if_pos hidle, sources_append]
      exact fun s hs => List.mem_append_left _ (hb.covers hs)
    · rw [Fragment.protect, if_neg hidle]
      exact hb.covers
  idle := by simp [Fragment.protect]

/-- A final part after which nothing goes on is entered from where the function is left. -/
theorem finalEntry_of_nil (hends : f.ends = []) : f.finalEntry = f.returned.map (⟨·, ""⟩) := by
  simp [finalEntry, hends]

/-- If control can fall through, the final part is entered from there alone. -/
theorem finalEntry_of_ne_nil (hends : f.ends ≠ []) : f.finalEntry = f.ends := by
  simp [finalEntry, hends]

/-- Control does not go on after a final part that is only gone through on the way out. -/
theorem ends_finish_of_nil (hends : f.ends = []) : (f.finish g).ends = [] := by
  simp [finish, hends]

/-- Where control can fall through to a final part, it goes on after it as the final part says. -/
theorem ends_finish_of_ne_nil (hends : f.ends ≠ []) : (f.finish g).ends = g.ends := by
  simp [finish, hends]

/-- A function that was about to be left is left where its final part ends. -/
theorem mem_returned_finish_of_nil (hends : f.ends = []) {s : Nat} :
    s ∈ (f.finish g).returned ↔ s ∈ g.returned ∨ s ∈ sources g.ends := by
  by_cases hs : s ∈ g.returned
  · simp [finish, hends, hs]
  · simp [finish, hends, hs, mem_unique, sources]

/-- Places where the function is left before a final part keep their way out if control can also
fall through. -/
theorem returned_finish_of_ne_nil (hends : f.ends ≠ []) :
    (f.finish g).returned = f.returned ++ g.returned := by
  simp [finish, hends]

/-- A final part is entered from inside what it ends, or from before it if that can be passed
through. -/
theorem Placed.finalEntry (hf : f.Placed next entry) {s : Nat} (hs : s ∈ sources f.finalEntry) :
    s ∈ sources entry ∨ f.Owns next s := by
  by_cases hends : f.ends = []
  · rw [finalEntry_of_nil hends, sources_map_exit] at hs
    exact .inr (hf.returned s hs)
  · rw [finalEntry_of_ne_nil hends] at hs
    exact hf.ends s hs

/-- A final part behind a placed fragment is placed. -/
theorem Placed.finish (hf : f.Placed next entry)
    (hg : g.Placed (next + f.vertices.length) f.finalEntry) :
    (f.finish g).Placed next entry where
  numbered := by
    simp only [vertices_finish, List.map_append, List.length_append, hf.numbered, hg.numbered,
      List.range'_append_1]
  target e he := by
    rw [owns_finish]
    rw [edges_finish] at he
    exact (List.mem_append.mp he).imp (hf.target e) (hg.target e)
  source e he := by
    rw [owns_finish]
    rw [edges_finish] at he
    rcases List.mem_append.mp he with he | he
    · exact (hf.source e he).imp_right .inl
    · rcases hg.source e he with hs | hs
      · exact (hf.finalEntry hs).imp_right .inl
      · exact .inr (.inr hs)
  ends s hs := by
    rw [owns_finish]
    by_cases hends : f.ends = []
    · rw [ends_finish_of_nil hends] at hs
      cases hs
    · rw [ends_finish_of_ne_nil hends] at hs
      rcases hg.ends s hs with hs | hs
      · exact (hf.finalEntry hs).imp_right .inl
      · exact .inr (.inr hs)
  returned s hs := by
    rw [owns_finish]
    by_cases hends : f.ends = []
    · rcases (mem_returned_finish_of_nil hends).mp hs with hs | hs
      · exact .inr (hg.returned s hs)
      · -- A final part that adds nothing leaves the returns where they were.
        rcases hg.ends s hs with hs | hs
        · rw [finalEntry_of_nil hends, sources_map_exit] at hs
          exact .inl (hf.returned s hs)
        · exact .inr hs
    · rw [returned_finish_of_ne_nil hends] at hs
      exact (List.mem_append.mp hs).imp (hf.returned s) (hg.returned s)
  entered s hs := by
    rw [owns_finish]
    rw [entered_finish] at hs
    exact (hf.entered s hs).imp_right .inl
  covers := by
    rw [entered_finish]
    exact hf.covers
  idle hidle := by
    rw [idle_finish] at hidle
    cases hidle

end Fragment

end Flow

namespace Outline

open Fragment

variable {text : Range → String} {p : Part} {next : Nat} {entry : List Exit} {f : Fragment}

/-- A straight run is placed, whether or not it leaves the function. -/
theorem placed_runFragment (r : Run) : (runFragment text r next entry).Placed next entry := by
  unfold runFragment
  split
  · exact (placed_vertex _).leaving rfl (owns_vertex.mpr rfl)
  · exact placed_vertex _

@[simp] theorem length_runFragment (r : Run) :
    (runFragment text r next entry).vertices.length = 1 := by
  unfold runFragment
  split <;> rfl

@[simp] theorem idle_runFragment (r : Run) : (runFragment text r next entry).idle = false := by
  unfold runFragment
  split <;> rfl

theorem ends_runFragment {r : Run} (hreturns : r.returns = false) :
    (runFragment text r next entry).ends = [⟨next, ""⟩] := by
  simp [runFragment, hreturns, Fragment.vertex]

/-- Nothing follows a run at which the function is left. -/
theorem Emits.eq_pass_of_returns {r : Run} {rest : Outline .sequence} {n : Nat} {g : Fragment}
    (hrest : Emits text rest n (runFragment text r next entry).ends g)
    (hreturns : r.returns = true) : g = .pass [] := by
  have hends : (runFragment text r next entry).ends = [] := by
    simp [runFragment, hreturns, Fragment.leaving]
  rw [hends] at hrest
  exact hrest.eq_pass_of_nil

/-- Control goes on after a straight run at its own vertex. -/
theorem owns_ends_runFragment (r : Run) : ∀ s ∈ sources (runFragment text r next entry).ends,
    (runFragment text r next entry).Owns next s := by
  unfold runFragment
  split
  · simp [Fragment.leaving]
  · exact owns_ends_vertex

/-- The way past all cases of a multiway branch starts at the branch. -/
theorem mem_sources_switchEnds {cases : Outline .cases} {s : Nat}
    (hs : s ∈ sources (switchEnds cases next)) : s = next := by
  unfold switchEnds at hs
  split at hs <;> simp_all

/-- Whatever is laid down lies where it was asked to. -/
theorem Emits.placed {o : Outline p} (hf : Emits text o next entry f) : f.Placed next entry := by
  induction hf with
  | done => exact placed_pass
  | unreached => exact placed_pass
  | @run r _ _ _ _ _ _ ih =>
      refine (placed_runFragment r).andThen ?_
      rw [length_runFragment]
      exact ih
  | step _ _ _ ihFirst ihRest => exact ihFirst.andThen ihRest
  | nested _ ih => exact ih
  | branch _ _ ihYes ihNo => exact ihYes.fork ihNo
  | loop _ ih => exact ih.cycle
  | choice _ _ ihYes ihNo => exact ihYes.fork ihNo
  | switch _ ih => exact ih.select fun s => mem_sources_switchEnds
  | guarded _ _ _ ihBody ihHandler ihFinal => exact (ihBody.protect ihHandler).finish ihFinal
  | noCase => exact placed_nothing
  | case _ _ _ ihBody ihRest =>
      refine ((placed_vertex _).andThen ihBody).alongside (sources_caseEntry _ _ _) ?_
      rw [length_andThen, ← Nat.add_assoc]
      exact ihRest
  | noHandler => exact placed_nothing
  | «catch» _ _ ih => exact (placed_vertex _).andThen ih
  | absent => exact placed_pass
  | leaf => exact placed_vertex _
  | ternary _ _ ihYes ihNo => exact ihYes.fork ihNo

end Outline

end Cyclomatic
