import Cyclomatic.Proofs.Flow.Reach

/-! # Fragments inside fragments

To lay a part of an outline down is to lay down its own parts. Each of these
becomes a fragment inside the fragment of the whole, and the edges that the
whole adds meet it only where control may get into it or out of it.
-/

namespace Cyclomatic

open Cyclomatic.Flow

namespace Flow.Fragment

/-- The vertices at which control may get out of a fragment: its outlets and, under
a handler, what that handler is reached from. -/
def gates (f : Fragment) (watched : Bool) : List Nat :=
  f.outlets ++ if watched then sources f.entered else []

/-- A fragment inside another. Each comes with its first number and with whether a
handler is reached from it. -/
structure Sits (inner : Fragment) (innerNext : Nat) (innerWatched : Bool)
    (outer : Fragment) (next : Nat) (watched : Bool) : Prop where
  owns : ∀ i, inner.Owns innerNext i → outer.Owns next i
  outside : ∀ e ∈ outer.edges, e ∈ inner.edges ∨ ¬ inner.Owns innerNext e.target ∧
    (inner.Owns innerNext e.source → e.source ∈ inner.gates innerWatched)
  gates : ∀ s ∈ outer.gates watched, inner.Owns innerNext s → s ∈ inner.gates innerWatched

variable {f g y n b h c inner middle outer : Fragment} {next innerNext middleNext : Nat}
  {entry : List Exit} {watched innerWatched middleWatched : Bool} {s : Nat}

/-- Control gets out of a fragment where it goes on after it, where the function is left and, under
a handler, from where the fragment was entered. -/
theorem mem_gates : s ∈ f.gates watched ↔
    s ∈ sources f.ends ∨ s ∈ f.returned ∨ watched = true ∧ s ∈ sources f.entered := by
  unfold gates
  rw [List.mem_append, mem_outlets, or_assoc]
  cases watched <;> simp

theorem Sits.refl (f : Fragment) (next : Nat) (watched : Bool) :
    f.Sits next watched f next watched where
  owns _ hi := hi
  outside _ he := .inl he
  gates _ hs _ := hs

/-- What is inside a fragment is inside everything that the fragment is inside of. An edge of the
outermost one that meets the innermost one is an edge of the middle one, or meets it at a gate. -/
theorem Sits.trans (hinner : inner.Sits innerNext innerWatched middle middleNext middleWatched)
    (houter : middle.Sits middleNext middleWatched outer next watched) :
    inner.Sits innerNext innerWatched outer next watched where
  owns i hi := houter.owns i (hinner.owns i hi)
  outside e he := by
    rcases houter.outside e he with he | ⟨htarget, hsource⟩
    · exact hinner.outside e he
    · refine .inr ⟨fun hi => htarget (hinner.owns _ hi), fun hi => ?_⟩
      exact hinner.gates _ (hsource (hinner.owns _ hi)) hi
  gates s hs hi := hinner.gates s (houter.gates s hs (hinner.owns s hi)) hi

/-- Exits that stand before a number. -/
def Before (entry : List Exit) (next : Nat) : Prop := ∀ s ∈ sources entry, s < next

/-- Exits from before a number are from before all later ones. -/
theorem Before.mono (hentry : Before entry next) (hle : next ≤ innerNext) :
    Before entry innerNext := fun s hs => Nat.lt_of_lt_of_le (hentry s hs) hle

/-- The exit of a vertex comes from before the number after it. -/
theorem before_singleton (next : Nat) (label : String) : Before [⟨next, label⟩] (next + 1) := by
  intro s hs
  obtain rfl : s = next := by simpa using hs
  exact Nat.lt_succ_self _

/-- Exits from before a fragment are not inside it, nor inside what is laid down later. -/
theorem Before.not_owns (hentry : Before entry next) (hs : s ∈ sources entry)
    (hle : next ≤ innerNext) : ¬ f.Owns innerNext s := by
  have hlt := hentry s hs
  unfold Owns
  omega

/-- What stands before a fragment or in it stands before what follows the fragment. -/
theorem Before.after (hentry : Before entry next)
    (hs : s ∈ sources entry ∨ f.Owns next s) : s < next + f.vertices.length := by
  rcases hs with hs | hs
  · exact Nat.lt_of_lt_of_le (hentry s hs) (Nat.le_add_right _ _)
  · exact hs.2

/-- A number of a fragment is not one of what is laid down after it. -/
theorem not_owns_of_owns_later (hs : f.Owns next s)
    (hle : next + f.vertices.length ≤ innerNext) : ¬ g.Owns innerNext s := by
  unfold Owns at hs ⊢
  omega

/-- A number of a fragment is not one of what was laid down before it. -/
theorem not_owns_of_owns_earlier (hs : g.Owns innerNext s)
    (hle : next + f.vertices.length ≤ innerNext) : ¬ f.Owns next s := by
  unfold Owns at hs ⊢
  omega

/-! ## Neighbours -/

/-- No edge of a fragment meets the vertices of another, and control does not get into it or
out of it at one of them. -/
structure Avoids (g f : Fragment) (next : Nat) : Prop where
  target : ∀ e ∈ g.edges, ¬ f.Owns next e.target
  source : ∀ e ∈ g.edges, ¬ f.Owns next e.source
  ends : ∀ s ∈ sources g.ends, ¬ f.Owns next s
  returned : ∀ s ∈ g.returned, ¬ f.Owns next s
  entered : ∀ s ∈ sources g.entered, ¬ f.Owns next s

/-- Edges of a fragment that avoids another meet it nowhere, and so they are no way around its
gates. -/
theorem Avoids.outside {e : Edge} {p : Prop} (havoids : g.Avoids f next) (he : e ∈ g.edges) :
    ¬ f.Owns next e.target ∧ (f.Owns next e.source → p) :=
  ⟨havoids.target e he, fun hi => absurd hi (havoids.source e he)⟩

/-- A placed fragment avoids another if neither its entry nor its own numbers are among those of
the other. -/
theorem Placed.avoids (hg : g.Placed next entry)
    (hentry : ∀ s ∈ sources entry, ¬ f.Owns innerNext s)
    (howns : ∀ s, g.Owns next s → ¬ f.Owns innerNext s) : g.Avoids f innerNext where
  target e he := howns _ (hg.target e he)
  source e he := (hg.source e he).elim (hentry _) (howns _)
  ends s hs := (hg.ends s hs).elim (hentry s) (howns s)
  returned s hs := howns s (hg.returned s hs)
  entered s hs := (hg.entered s hs).elim (hentry s) (howns s)

/-- What follows a fragment avoids it, unless it is entered from there. -/
theorem Placed.avoids_earlier (hg : g.Placed (next + f.vertices.length) entry)
    (hentry : Before entry next) : g.Avoids f next :=
  hg.avoids (fun _ hs => hentry.not_owns hs (Nat.le_refl _))
    fun _ hs => not_owns_of_owns_earlier hs (Nat.le_refl _)

/-- A fragment avoids what is laid down later. -/
theorem Placed.avoids_later (hf : f.Placed next entry) (hentry : Before entry next)
    (hle : next + f.vertices.length ≤ innerNext) : f.Avoids g innerNext :=
  hf.avoids (fun _ hs => hentry.not_owns hs (Nat.le_of_add_right_le hle))
    fun _ hs => not_owns_of_owns_later hs hle

/-! ## One after the other -/

/-- The first of two fragments in sequence sits in the whole: what follows starts from its ends. -/
theorem sits_andThen_left (hf : f.Placed next entry)
    (hg : g.Placed (next + f.vertices.length) f.ends) :
    f.Sits next watched (f.andThen g) next watched where
  owns i hi := owns_andThen.mpr (.inl hi)
  outside e he := by
    rcases List.mem_append.mp he with he | he
    · exact .inl he
    · refine .inr ⟨not_owns_of_owns_earlier (hg.target e he) (Nat.le_refl _), fun hi => ?_⟩
      rcases hg.source e he with hs | hs
      · exact mem_gates.mpr (.inl hs)
      · exact absurd hi (not_owns_of_owns_earlier hs (Nat.le_refl _))
  gates s hs hi := by
    rw [mem_gates] at hs ⊢
    rcases hs with hs | hs | ⟨hwatched, hs⟩
    · rcases hg.ends s hs with hs | hs
      · exact .inl hs
      · exact absurd hi (not_owns_of_owns_earlier hs (Nat.le_refl _))
    · rcases List.mem_append.mp hs with hs | hs
      · exact .inr (.inl hs)
      · exact absurd hi (not_owns_of_owns_earlier (hg.returned s hs) (Nat.le_refl _))
    · by_cases hidle : f.idle = true
      · -- An idle fragment has no vertices, so it does not own `s`.
        rw [hf.idle hidle] at hi
        exact absurd hi.2 (by simpa [pass] using hi.1)
      · rw [Fragment.andThen, if_neg hidle] at hs
        exact .inr (.inr ⟨hwatched, hs⟩)

/-- The second of two fragments in sequence sits in the whole. An enclosing handler is entered from
its exits only if the first fragment is idle. -/
theorem sits_andThen_right (hentry : Before entry next) (hf : f.Placed next entry) :
    g.Sits (next + f.vertices.length) (watched && f.idle) (f.andThen g) next watched := by
  have hfirst : f.Avoids g (next + f.vertices.length) := hf.avoids_later hentry (Nat.le_refl _)
  refine ⟨fun i hi => owns_andThen.mpr (.inr hi), fun e he => ?_, fun s hs hi => ?_⟩
  · exact (List.mem_append.mp he).symm.imp_right hfirst.outside
  · rw [mem_gates] at hs ⊢
    rcases hs with hs | hs | ⟨hwatched, hs⟩
    · exact .inl hs
    · exact .inr (.inl ((List.mem_append.mp hs).resolve_left fun hs => hfirst.returned s hs hi))
    · by_cases hidle : f.idle = true
      · rw [Fragment.andThen, if_pos hidle] at hs
        exact .inr (.inr ⟨by simp [hwatched, hidle], hs⟩)
      · rw [Fragment.andThen, if_neg hidle] at hs
        exact absurd hi (hfirst.entered s hs)

/-! ## Below a decision

What is laid down below a decision is entered from the decision alone. -/

section

variable {v : Vertex} {yesLabel noLabel : String} {own : List Exit}

/-- The vertex before a fragment avoids it. -/
theorem avoids_below (hentry : Before entry next) (hlt : next < innerNext) :
    (vertex next v entry).Avoids b innerNext :=
  (placed_vertex v).avoids_later hentry hlt

/-- A decision, and then what is laid down from it. -/
theorem sits_below (hentry : Before entry next) :
    b.Sits (next + 1) false ((vertex next v entry).andThen b) next watched := by
  have hsits : b.Sits (next + 1) (watched && false) ((vertex next v entry).andThen b) next
      watched :=
    sits_andThen_right hentry (placed_vertex v)
  rwa [Bool.and_false] at hsits

/-- The first side of a decision sits in the whole. The other side starts at the decision and so
does not meet it. -/
theorem sits_fork_left (hentry : Before entry next)
    (hn : n.Placed (next + 1 + y.vertices.length) [⟨next, noLabel⟩]) :
    y.Sits (next + 1) false ((vertex next v entry).fork y n) next watched := by
  have hhead : (vertex next v entry).Avoids y (next + 1) := avoids_below hentry (Nat.lt_succ_self _)
  have hother : n.Avoids y (next + 1) := hn.avoids_earlier (before_singleton _ _)
  refine ⟨fun i hi => owns_fork.mpr (.inr (.inl hi)), fun e he => ?_, fun s hs hi => ?_⟩
  · rcases List.mem_append.mp he with he | he
    · exact (List.mem_append.mp he).symm.imp_right hhead.outside
    · exact .inr (hother.outside he)
  · rw [mem_gates] at hs ⊢
    rcases hs with hs | hs | ⟨_, hs⟩
    · rw [mem_ends_fork] at hs
      exact .inl (hs.resolve_right fun hs => hother.ends s hs hi)
    · exact .inr (.inl ((List.mem_append.mp hs).resolve_right fun hs => hother.returned s hs hi))
    · exact absurd hi (hhead.entered s hs)

/-- The second side of a decision sits in the whole, as the first one does. -/
theorem sits_fork_right (hentry : Before entry next) (hy : y.Placed (next + 1) [⟨next, yesLabel⟩]) :
    n.Sits (next + 1 + y.vertices.length) false ((vertex next v entry).fork y n) next watched := by
  have hhead : (vertex next v entry).Avoids n (next + 1 + y.vertices.length) :=
    avoids_below hentry (by omega)
  have hother : y.Avoids n (next + 1 + y.vertices.length) :=
    hy.avoids_later (before_singleton _ _) (Nat.le_refl _)
  refine ⟨fun i hi => owns_fork.mpr (.inr (.inr hi)), fun e he => ?_, fun s hs hi => ?_⟩
  · rcases List.mem_append.mp he with he | he
    · exact .inr ((List.mem_append.mp he).elim hhead.outside hother.outside)
    · exact .inl he
  · rw [mem_gates] at hs ⊢
    rcases hs with hs | hs | ⟨_, hs⟩
    · rw [mem_ends_fork] at hs
      exact .inl (hs.resolve_left fun hs => hother.ends s hs hi)
    · exact .inr (.inl ((List.mem_append.mp hs).resolve_left fun hs => hother.returned s hs hi))
    · exact absurd hi (hhead.entered s hs)

/-- A loop is gone back to from gates of its body. -/
theorem mem_gates_of_mem_backSources (hs : s ∈ b.backSources) : s ∈ b.gates watched := by
  rw [mem_gates]
  exact (mem_backSources.mp hs).imp id fun hs => .inl hs.2

/-- The body of a loop sits in the loop: the edges back to the decision leave it at gates. -/
theorem sits_cycle (hentry : Before entry next) :
    b.Sits (next + 1) false ((vertex next v entry).cycle next b) next watched := by
  have hhead : (vertex next v entry).Avoids b (next + 1) := avoids_below hentry (Nat.lt_succ_self _)
  refine ⟨fun i hi => owns_cycle.mpr (.inr hi), fun e he => ?_, fun s hs hi => ?_⟩
  · rcases List.mem_append.mp he with he | he
    · exact (List.mem_append.mp he).symm.imp_right hhead.outside
    · obtain ⟨s, hs, rfl⟩ := List.mem_map.mp he
      exact .inr ⟨fun hi => absurd hi.1 (Nat.not_succ_le_self _),
        fun _ => mem_gates_of_mem_backSources hs⟩
  · rw [mem_gates] at hs ⊢
    rcases hs with hs | hs | ⟨_, hs⟩
    · exact absurd hi ((before_singleton next falseLabel).not_owns hs (Nat.le_refl _))
    · exact .inr (.inl hs)
    · exact absurd hi (hhead.entered s hs)

/-- The cases of a multiway branch sit in the branch. -/
theorem sits_select (hentry : Before entry next) (hown : ∀ s ∈ sources own, s = next) :
    c.Sits (next + 1) false ((vertex next v entry).select c own) next watched := by
  have hhead : (vertex next v entry).Avoids c (next + 1) := avoids_below hentry (Nat.lt_succ_self _)
  refine ⟨fun i hi => owns_select.mpr (.inr hi), fun e he => ?_, fun s hs hi => ?_⟩
  · exact (List.mem_append.mp he).symm.imp_right hhead.outside
  · rw [mem_gates] at hs ⊢
    rcases hs with hs | hs | ⟨_, hs⟩
    · rw [mem_ends_select] at hs
      rcases hs with hs | hs
      · exact .inl hs
      · obtain rfl := hown s hs
        exact absurd hi.1 (Nat.not_succ_le_self _)
    · exact .inr (.inl hs)
    · exact absurd hi (hhead.entered s hs)

end

/-! ## Side by side -/

/-- A case sits beside the later ones: these start from the same exits and do not meet it. -/
theorem sits_alongside_left (hentry : Before entry next)
    (hg : g.Placed (next + f.vertices.length) entry) :
    f.Sits next watched (f.alongside g) next watched := by
  have hother : g.Avoids f next := hg.avoids_earlier hentry
  refine ⟨fun i hi => owns_alongside.mpr (.inl hi), fun e he => ?_, fun s hs hi => ?_⟩
  · exact (List.mem_append.mp he).imp_right hother.outside
  · rw [mem_gates] at hs ⊢
    rcases hs with hs | hs | hs
    · rw [mem_ends_alongside] at hs
      exact .inl (hs.resolve_right fun hs => hother.ends s hs hi)
    · exact .inr (.inl ((List.mem_append.mp hs).resolve_right fun hs => hother.returned s hs hi))
    · exact .inr (.inr hs)

/-- The later cases sit beside the first one, which may be entered under another label. -/
theorem sits_alongside_right {relabelled : List Exit} (hentry : Before entry next)
    (hsame : sources relabelled = sources entry) (hf : f.Placed next relabelled) :
    g.Sits (next + f.vertices.length) false (f.alongside g) next watched := by
  have hrelabelled : Before relabelled next := fun s hs => hentry s (hsame ▸ hs)
  have hother : f.Avoids g (next + f.vertices.length) :=
    hf.avoids_later hrelabelled (Nat.le_refl _)
  refine ⟨fun i hi => owns_alongside.mpr (.inr hi), fun e he => ?_, fun s hs hi => ?_⟩
  · exact (List.mem_append.mp he).symm.imp_right hother.outside
  · rw [mem_gates] at hs ⊢
    rcases hs with hs | hs | ⟨_, hs⟩
    · rw [mem_ends_alongside] at hs
      exact .inl (hs.resolve_left fun hs => hother.ends s hs hi)
    · exact .inr (.inl ((List.mem_append.mp hs).resolve_left fun hs => hother.returned s hs hi))
    · exact absurd hi (hother.entered s hs)

/-! ## Under a handler and before a final part -/

/-- A body under a handler: the handler is entered from the body's entry and possibly
from its own handlers. -/
theorem sits_protect_left (hb : b.Placed next entry)
    (hh : h.Placed (next + b.vertices.length) b.entered)
    (hends : ∀ s ∈ sources h.ends, h.Owns (next + b.vertices.length) s)
    (hwatched : watched = true → innerWatched = true)
    (hhandler : h.edges ≠ [] → innerWatched = true) :
    b.Sits next innerWatched (b.protect h) next watched where
  owns i hi := owns_protect.mpr (.inl hi)
  outside e he := by
    rcases List.mem_append.mp he with he | he
    · exact .inl he
    · refine .inr ⟨not_owns_of_owns_earlier (hh.target e he) (Nat.le_refl _), fun hi => ?_⟩
      rcases hh.source e he with hs | hs
      · exact mem_gates.mpr (.inr (.inr ⟨hhandler (List.ne_nil_of_mem he), hs⟩))
      · exact absurd hi (not_owns_of_owns_earlier hs (Nat.le_refl _))
  gates s hs hi := by
    rw [mem_gates] at hs ⊢
    rcases hs with hs | hs | ⟨hw, hs⟩
    · rw [mem_ends_protect] at hs
      refine .inl (hs.resolve_right fun hs => ?_)
      exact not_owns_of_owns_earlier (hends s hs) (Nat.le_refl _) hi
    · refine .inr (.inl ((List.mem_append.mp hs).resolve_right fun hs => ?_))
      exact not_owns_of_owns_earlier (hh.returned s hs) (Nat.le_refl _) hi
    · -- The ends of the handler are among these exits only if the body has no vertex.
      by_cases hidle : b.idle = true
      · rw [hb.idle hidle] at hi
        exact absurd hi.2 (by simpa [pass] using hi.1)
      · rw [Fragment.protect, if_neg hidle] at hs
        exact .inr (.inr ⟨hwatched hw, hs⟩)

/-- A handler sits in the guarded block. It is not under the handler that it is itself. -/
theorem sits_protect_right (hentry : Before entry next) (hb : b.Placed next entry) :
    h.Sits (next + b.vertices.length) false (b.protect h) next watched := by
  have hbody : b.Avoids h (next + b.vertices.length) := hb.avoids_later hentry (Nat.le_refl _)
  refine ⟨fun i hi => owns_protect.mpr (.inr hi), fun e he => ?_, fun s hs hi => ?_⟩
  · exact (List.mem_append.mp he).symm.imp_right hbody.outside
  · rw [mem_gates] at hs ⊢
    rcases hs with hs | hs | ⟨_, hs⟩
    · rw [mem_ends_protect] at hs
      exact .inl (hs.resolve_left fun hs => hbody.ends s hs hi)
    · exact .inr (.inl ((List.mem_append.mp hs).resolve_left fun hs => hbody.returned s hs hi))
    · by_cases hidle : b.idle = true
      · rw [Fragment.protect, if_pos hidle, sources_append, List.mem_append] at hs
        exact .inl (hs.resolve_left fun hs => hbody.entered s hs hi)
      · rw [Fragment.protect, if_neg hidle] at hs
        exact absurd hi (hbody.entered s hs)

/-- A final part is entered from outlets of what it ends. -/
theorem mem_outlets_of_mem_finalEntry (hs : s ∈ sources f.finalEntry) : s ∈ f.outlets := by
  rw [mem_outlets]
  by_cases hends : f.ends = []
  · rw [finalEntry_of_nil hends, sources_map_exit] at hs
    exact .inr hs
  · rw [finalEntry_of_ne_nil hends] at hs
    exact .inl hs

theorem mem_gates_of_mem_outlets (hs : s ∈ f.outlets) : s ∈ f.gates watched :=
  List.mem_append_left _ hs

/-- Control gets out of a protected part with a final part at an outlet of one of them. -/
theorem mem_outlets_finish (hs : s ∈ (f.finish g).outlets) :
    s ∈ g.outlets ∨ f.ends ≠ [] ∧ s ∈ f.returned := by
  rw [mem_outlets] at hs ⊢
  by_cases hends : f.ends = []
  · rw [ends_finish_of_nil hends, mem_returned_finish_of_nil hends] at hs
    exact .inl (hs.resolve_left (by simp)).symm
  · rw [ends_finish_of_ne_nil hends, returned_finish_of_ne_nil hends, List.mem_append] at hs
    rcases hs with hs | hs | hs
    · exact .inl (.inl hs)
    · exact .inr ⟨hends, hs⟩
    · exact .inl (.inr hs)

/-- What a final part ends sits in the whole: the final part starts at its outlets. -/
theorem sits_finish_left (hg : g.Placed (next + f.vertices.length) f.finalEntry) :
    f.Sits next watched (f.finish g) next watched where
  owns i hi := owns_finish.mpr (.inl hi)
  outside e he := by
    rw [edges_finish] at he
    rcases List.mem_append.mp he with he | he
    · exact .inl he
    · refine .inr ⟨not_owns_of_owns_earlier (hg.target e he) (Nat.le_refl _), fun hi => ?_⟩
      rcases hg.source e he with hs | hs
      · exact mem_gates_of_mem_outlets (mem_outlets_of_mem_finalEntry hs)
      · exact absurd hi (not_owns_of_owns_earlier hs (Nat.le_refl _))
  gates s hs hi := by
    rcases List.mem_append.mp hs with hs | hs
    · rcases mem_outlets_finish hs with hs | ⟨_, hs⟩
      · rcases mem_outlets.mp hs with hs | hs
        · rcases hg.ends s hs with hs | hs
          · exact mem_gates_of_mem_outlets (mem_outlets_of_mem_finalEntry hs)
          · exact absurd hi (not_owns_of_owns_earlier hs (Nat.le_refl _))
        · exact absurd hi (not_owns_of_owns_earlier (hg.returned s hs) (Nat.le_refl _))
      · exact mem_gates_of_mem_outlets (mem_outlets.mpr (.inr hs))
    · rw [entered_finish] at hs
      exact List.mem_append_right _ hs

/-- A final part sits in the guarded block, behind what it ends. -/
theorem sits_finish_right (hentry : Before entry next) (hf : f.Placed next entry) :
    g.Sits (next + f.vertices.length) false (f.finish g) next watched := by
  have hfirst : f.Avoids g (next + f.vertices.length) := hf.avoids_later hentry (Nat.le_refl _)
  refine ⟨fun i hi => owns_finish.mpr (.inr hi), fun e he => ?_, fun s hs hi => ?_⟩
  · rw [edges_finish] at he
    exact (List.mem_append.mp he).symm.imp_right hfirst.outside
  · rcases List.mem_append.mp hs with hs | hs
    · rcases mem_outlets_finish hs with hs | ⟨_, hs⟩
      · exact mem_gates_of_mem_outlets hs
      · exact absurd hi (hfirst.returned s hs)
    · rw [entered_finish] at hs
      have hs' : s ∈ sources f.entered := by
        cases watched with
        | false => cases hs
        | true => exact hs
      exact absurd hi (hfirst.entered s hs')

end Flow.Fragment

namespace Outline

open Fragment

/-- A part that is to be laid down from some exits; `watched` tells whether an
enclosing handler is entered from the same exits. -/
structure Call where
  {part : Part}
  outline : Outline part
  next : Nat
  entry : List Exit
  watched : Bool

/-- To lay down the one part is also to lay down the other, as a part of it. What no
exit leads to is not called for. -/
inductive Calls (text : Range → String) : Call → Call → Prop
  | runRest {r rest next entry watched} (hreturns : r.returns = false) :
      Calls text ⟨.run r rest, next, entry, watched⟩ ⟨rest, next + 1, [⟨next, ""⟩], false⟩
  | stepFirst {line construct rest next entry watched} :
      Calls text ⟨.step line construct rest, next, entry, watched⟩ ⟨construct, next, entry, watched⟩
  | stepRest {line construct rest next entry watched f}
      (hfirst : construct.emit text next entry = .ok f) (hends : f.ends ≠ []) :
      Calls text ⟨.step line construct rest, next, entry, watched⟩
        ⟨rest, next + f.vertices.length, f.ends, watched && f.idle⟩
  | nested {inner next entry watched} :
      Calls text ⟨.nested inner, next, entry, watched⟩ ⟨inner, next, entry, watched⟩
  | branchYes {d yes no next entry watched} :
      Calls text ⟨.branch d yes no, next, entry, watched⟩
        ⟨yes, next + 1, [⟨next, trueLabel⟩], false⟩
  | branchNo {d yes no next entry watched y}
      (hyes : yes.emit text (next + 1) [⟨next, trueLabel⟩] = .ok y) :
      Calls text ⟨.branch d yes no, next, entry, watched⟩
        ⟨no, next + 1 + y.vertices.length, [⟨next, falseLabel⟩], false⟩
  | loopBody {style d body next entry watched} :
      Calls text ⟨.loop style d body, next, entry, watched⟩
        ⟨body, next + 1, [⟨next, trueLabel⟩], false⟩
  | switchCases {d cases next entry watched} :
      Calls text ⟨.switch d cases, next, entry, watched⟩ ⟨cases, next + 1, [⟨next, ""⟩], false⟩
  | caseBody {kind d test body rest next entry watched} :
      Calls text ⟨.case kind d test body rest, next, entry, watched⟩
        ⟨body, next + 1, [⟨next, ""⟩], false⟩
  | caseRest {kind d test body rest next entry watched b}
      (hbody : body.emit text (next + 1) [⟨next, ""⟩] = .ok b) :
      Calls text ⟨.case kind d test body rest, next, entry, watched⟩
        ⟨rest, next + 1 + b.vertices.length, entry, false⟩
  | guardedBody {body handler final next entry watched} :
      Calls text ⟨.guarded body handler final, next, entry, watched⟩
        ⟨body, next, entry, watched || !handler.isVoid⟩
  | guardedHandler {body handler final next entry watched b}
      (hbody : body.emit text next entry = .ok b) :
      Calls text ⟨.guarded body handler final, next, entry, watched⟩
        ⟨handler, next + b.vertices.length, b.entered, false⟩
  | guardedFinal {body handler final next entry watched b h}
      (hbody : body.emit text next entry = .ok b)
      (hhandler : handler.emit text (next + b.vertices.length) b.entered = .ok h) :
      Calls text ⟨.guarded body handler final, next, entry, watched⟩
        ⟨final, next + (b.protect h).vertices.length, (b.protect h).finalEntry, false⟩
  | catchBody {kind d body next entry watched} :
      Calls text ⟨.catch kind d body, next, entry, watched⟩ ⟨body, next + 1, [⟨next, ""⟩], false⟩

/-- The parts that are laid down, at any depth, when a part is. -/
abbrev Visits (text : Range → String) : Call → Call → Prop := Relation.ReflTransGen (Calls text)

/-- A part that some exit leads to, from outside. -/
structure Call.Live (c : Call) : Prop where
  entered : c.entry ≠ []
  before : Before c.entry c.next

/-- The fragment that a call gives. -/
abbrev Call.Gives (c : Call) (text : Range → String) (f : Fragment) : Prop :=
  Emits text c.outline c.next c.entry f

variable {text : Range → String} {p : Part} {next : Nat} {entry : List Exit} {f g : Fragment}

/-- What a part is laid down as is told by its outline, the next number and the entry. -/
theorem Emits.unique {o : Outline p} (hf : Emits text o next entry f)
    (hg : o.emit text next entry = .ok g) : f = g :=
  Except.ok.inj ((emit_eq_ok_of_emits hf).symm.trans hg)

/-- The label of a case changes nothing about where its exits come from. -/
theorem before_caseEntry (hentry : Before entry next) (test : Option Range) :
    Before (caseEntry text test entry) next := by
  intro s hs
  rw [sources_caseEntry] at hs
  exact hentry s hs

/-- A handler lets control go on at its own vertices only. -/
theorem Emits.owns_ends_handler {handler : Outline .handler} (hf : Emits text handler next entry f) :
    ∀ s ∈ sources f.ends, f.Owns next s := by
  cases hf with
  | noHandler => exact List.forall_mem_nil _
  | «catch» _ hbody => exact hbody.placed.owns_ends_andThen owns_ends_vertex

/-- A handler that adds an edge is one that is there. -/
theorem Emits.edges_of_isVoid {handler : Outline .handler} (hf : Emits text handler next entry f)
    (hedges : f.edges ≠ []) : handler.isVoid = false := by
  cases hf with
  | noHandler => exact absurd rfl hedges
  | «catch» => rfl

/-- What one part calls for lies inside what the part itself gives. -/
theorem Calls.sits {c c' : Call} (hcall : Calls text c c') (hlive : c.Live) (hf : c.Gives text f) :
    ∃ f', c'.Gives text f' ∧ c'.Live ∧ f'.Sits c'.next c'.watched f c.next c.watched := by
  obtain ⟨hentry, hbefore⟩ := hlive
  cases hcall with
  | @runRest r rest next entry watched hreturns =>
      cases hf with
      | unreached => exact absurd rfl hentry
      | @run _ _ _ _ g _ hrest =>
          have hsits : g.Sits _ _ ((runFragment text r next entry).andThen g) next watched :=
            sits_andThen_right hbefore (placed_runFragment r)
          rw [length_runFragment, idle_runFragment, Bool.and_false] at hsits
          exact ⟨g, ends_runFragment hreturns ▸ hrest, ⟨by simp, before_singleton _ _⟩, hsits⟩
  | stepFirst =>
      cases hf with
      | unreached => exact absurd rfl hentry
      | step _ hfirst hrest =>
          exact ⟨_, hfirst, ⟨hentry, hbefore⟩, sits_andThen_left hfirst.placed hrest.placed⟩
  | stepRest hemit hends =>
      cases hf with
      | unreached => exact absurd rfl hentry
      | step _ hfirst hrest =>
          obtain rfl := hfirst.unique hemit
          refine ⟨_, hrest, ⟨hends, fun s hs => ?_⟩, sits_andThen_right hbefore hfirst.placed⟩
          exact hbefore.after (hfirst.placed.ends s hs)
  | nested =>
      cases hf with
      | nested hinner => exact ⟨_, hinner, ⟨hentry, hbefore⟩, .refl _ _ _⟩
  | branchYes =>
      cases hf with
      | branch hyes hno =>
          exact ⟨_, hyes, ⟨by simp, before_singleton _ _⟩, sits_fork_left hbefore hno.placed⟩
  | branchNo hemit =>
      cases hf with
      | branch hyes hno =>
          obtain rfl := hyes.unique hemit
          refine ⟨_, hno, ⟨by simp, ?_⟩, sits_fork_right hbefore hyes.placed⟩
          exact (before_singleton _ _).mono (Nat.le_add_right _ _)
  | loopBody =>
      cases hf with
      | loop hbody => exact ⟨_, hbody, ⟨by simp, before_singleton _ _⟩, sits_cycle hbefore⟩
  | switchCases =>
      cases hf with
      | switch hcases =>
          exact ⟨_, hcases, ⟨by simp, before_singleton _ _⟩,
            sits_select hbefore fun s => mem_sources_switchEnds⟩
  | @caseBody kind d test body rest next entry watched =>
      cases hf with
      | @case _ caption _ _ _ _ _ _ b r _ hbody hrest =>
          have hcase : ((decisionFragment text caption d next
              (caseEntry text test entry)).andThen b).Sits next watched
              (((decisionFragment text caption d next
                (caseEntry text test entry)).andThen b).alongside r) next watched := by
            apply sits_alongside_left hbefore
            rw [length_andThen, ← Nat.add_assoc]
            exact hrest.placed
          exact ⟨b, hbody, ⟨by simp, before_singleton _ _⟩,
            (sits_below (before_caseEntry hbefore test)).trans hcase⟩
  | @caseRest kind d test body rest next entry watched _ hemit =>
      cases hf with
      | @case _ caption _ _ _ _ _ _ b r _ hbody hrest =>
          obtain rfl := hbody.unique hemit
          have hsits : r.Sits _ false (((decisionFragment text caption d next
              (caseEntry text test entry)).andThen b).alongside r) next watched :=
            sits_alongside_right hbefore (sources_caseEntry text test entry)
              ((placed_vertex _).andThen hbody.placed)
          rw [length_andThen, ← Nat.add_assoc] at hsits
          refine ⟨r, hrest, ⟨hentry, hbefore.mono ?_⟩, hsits⟩
          exact Nat.le_add_right_of_le (Nat.le_succ _)
  | @guardedBody body handler final next entry watched =>
      cases hf with
      | guarded hbody hhandler hfinal =>
          refine ⟨_, hbody, ⟨hentry, hbefore⟩, ?_⟩
          refine .trans (sits_protect_left hbody.placed hhandler.placed
            hhandler.owns_ends_handler ?_ ?_) (sits_finish_left hfinal.placed)
          · intro hwatched
            exact Bool.or_eq_true_iff.mpr (.inl hwatched)
          · intro hedges
            simp [hhandler.edges_of_isVoid hedges]
  | guardedHandler hemit =>
      cases hf with
      | guarded hbody hhandler hfinal =>
          obtain rfl := hbody.unique hemit
          refine ⟨_, hhandler, ⟨hbody.entered_ne_nil hentry, fun s hs => ?_⟩, ?_⟩
          · exact hbefore.after (hbody.placed.entered s hs)
          · exact (sits_protect_right hbefore hbody.placed).trans (sits_finish_left hfinal.placed)
  | guardedFinal hemit hemit' =>
      cases hf with
      | guarded hbody hhandler hfinal =>
          obtain rfl := hbody.unique hemit
          obtain rfl := hhandler.unique hemit'
          have hplaced := hbody.placed.protect hhandler.placed
          have hb := hbody.foretells hentry
          have hh := hhandler.foretells (hbody.entered_ne_nil hentry)
          refine ⟨_, hfinal, ⟨hb.finalEntry_ne_nil hh, fun s hs => ?_⟩,
            sits_finish_right hbefore hplaced⟩
          exact hbefore.after (hplaced.finalEntry hs)
  | @catchBody kind d body next entry watched =>
      cases hf with
      | @«catch» _ caption _ _ _ _ b _ hbody =>
          refine ⟨b, hbody, ⟨by simp, before_singleton _ _⟩, ?_⟩
          exact sits_below hbefore

/-- So does what is laid down at any depth. -/
theorem Visits.sits {c c' : Call} (hvisit : Visits text c c') (hlive : c.Live)
    (hf : c.Gives text f) :
    ∃ f', c'.Gives text f' ∧ c'.Live ∧ f'.Sits c'.next c'.watched f c.next c.watched := by
  induction hvisit with
  | refl => exact ⟨f, hf, hlive, .refl _ _ _⟩
  | tail _ hcall ih =>
      obtain ⟨middle, hmiddle, hliveMiddle, hsits⟩ := ih
      obtain ⟨inner, hinner, hliveInner, hsitsInner⟩ := hcall.sits hliveMiddle hmiddle
      exact ⟨inner, hinner, hliveInner, hsitsInner.trans hsits⟩

end Outline

end Cyclomatic
