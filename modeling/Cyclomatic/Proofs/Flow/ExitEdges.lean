import Cyclomatic.Proofs.Flow.Closing
import Cyclomatic.Proofs.Tree.Sketch

/-! # Edges to the exit

Every place where control ends has one edge to the exit and nothing else has
one, except that the entry has none when control also ends elsewhere. Control
ends at the entry when the body of a function can be passed through without a
vertex, so the exception is met by the bodies that can be passed through and
yet lay something down: those with a handler around nothing.
-/

namespace Cyclomatic

open Cyclomatic.Flow Cyclomatic.Flow.Fragment

namespace Flow

variable {f : Fragment} {next i s : Nat} {entry : List Exit}

/-- Control inside a fragment stays inside it. -/
theorem Fragment.Placed.owns_of_leads (hf : f.Placed next entry) (hi : f.Owns next i)
    (h : Leads f.edges i s) : f.Owns next s := by
  rcases h.cases_tail with rfl | ⟨_, _, e, he, _, rfl⟩
  · exact hi
  · exact hf.target e he

namespace Graph

variable {source : Bytes} {t : Tree} {g : Graph} {body : Fragment} {s : Nat}

/-- Nothing that the body leaves open is lost: each of it has an edge to the exit,
nothing else has one, and none has two. -/
structure KeepsExits (g : Graph) (body : Fragment) : Prop where
  kept : ∀ s ∈ body.outlets, Joins g.edges s (exitId body)
  only : ∀ e ∈ g.edges, e.target = exitId body → e.source ∈ body.outlets
  once : ((g.edges.filter (·.target = exitId body)).map (·.source)).Nodup

/-- No outlet has two edges to the exit. -/
theorem nodup_sources_exitEdges {ends : List Nat} (hends : ends.Nodup) (exit : Nat) :
    ((exitEdges ends exit).map (·.source)).Nodup := by
  unfold exitEdges
  split
  · simp
  · rw [List.map_map]
    exact (List.map_id _).symm ▸ hends.filter _

/-- The entry has an edge to the exit only if it is the one outlet there is. -/
theorem eq_of_mem_exitEdges_of_source {ends : List Nat} {exit : Nat} {e : Edge}
    (he : e ∈ exitEdges ends exit) (hsource : e.source = 0) : ends = [0] := by
  unfold exitEdges at he
  split at he
  next heq => exact heq
  next =>
    obtain ⟨s, hs, rfl⟩ := List.mem_map.mp he
    obtain rfl : s = 0 := hsource
    simp at hs

theorem exitEdges_filter (ends : List Nat) (exit : Nat) :
    (exitEdges ends exit).filter (·.target = exit) = exitEdges ends exit := by
  rw [List.filter_eq_self]
  intro e he
  simpa using (mem_exitEdges he).2

section

variable (hbody : BodyOf source t body)
include hbody

/-- Nothing inside the body leads to the exit; such edges come with the exit. -/
theorem target_ne_exitId {e : Edge} (he : e ∈ body.edges) : e.target ≠ exitId body := by
  have htarget := (hbody.placed.target e he).2
  exact Nat.ne_of_lt htarget

/-- No vertex of a graph has two edges to the exit. -/
theorem once_close :
    (((close body).edges.filter (·.target = exitId body)).map (·.source)).Nodup := by
  have hinner : body.edges.filter (·.target = exitId body) = [] := by
    rw [List.filter_eq_nil_iff]
    intro e he htarget
    exact target_ne_exitId hbody he (of_decide_eq_true htarget)
  rw [edges_close, List.filter_append, hinner, List.nil_append, exitEdges_filter]
  exact nodup_sources_exitEdges (nodup_unique _) _

/-- Whatever has an edge to the exit is an outlet of the body. -/
theorem only_close :
    ∀ e ∈ (close body).edges, e.target = exitId body → e.source ∈ body.outlets := by
  intro e he htarget
  rcases mem_edges_close he with he | ⟨hsource, _⟩
  · exact absurd htarget (target_ne_exitId hbody he)
  · exact hsource

/-- The entry is joined to the exit only if control ends nowhere else. -/
theorem joins_entry_exit_iff (hentry : 0 ∈ body.outlets) :
    Joins (close body).edges 0 (exitId body) ↔ ∀ s ∈ body.outlets, s = 0 := by
  constructor
  · rintro ⟨e, he, hsource, htarget⟩
    rw [edges_close, List.mem_append] at he
    rcases he with he | he
    · exact absurd htarget (target_ne_exitId hbody he)
    · exact (unique_eq_singleton_iff.mp (eq_of_mem_exitEdges_of_source he hsource)).2
  · intro hall
    have hends : unique body.outlets = [0] :=
      unique_eq_singleton_iff.mpr ⟨List.ne_nil_of_mem hentry, hall⟩
    exact (joins_exitEdges (mem_unique.mpr hentry) (.inr hends)).mono (List.subset_append_right _ _)

/-- Control ends at the entry exactly if the body can be passed through. -/
theorem entry_mem_outlets_iff : 0 ∈ body.outlets ↔ (Outline.ofFunction t).passes = true := by
  constructor
  · intro hmem
    by_contra hpasses
    have howns : body.Owns 1 0 := by
      rcases mem_outlets.mp hmem with hs | hs
      · exact hbody.owns_ends_of_not_passes (by simp) (by simpa using hpasses) 0 hs
      · exact hbody.placed.returned 0 hs
    exact absurd howns.1 (by omega)
  · intro hpasses
    have hends := hbody.ends_of_passes hpasses (List.mem_singleton.mpr rfl)
    exact mem_outlets.mpr (.inl (List.mem_map_of_mem hends))

/-- Control ends at a vertex of the body exactly if the body has any. -/
theorem exists_owned_outlet_iff :
    (∃ s ∈ body.outlets, s ≠ 0) ↔ (Outline.ofFunction t).laid ≠ 0 := by
  rw [← (foretells_body hbody).length]
  constructor
  · rintro ⟨s, hs, hs0⟩
    have howns := (mem_outlets_bounds hbody hs).resolve_left hs0
    unfold Owns at howns
    omega
  · intro hlaid
    have hfirst : body.Owns 1 1 := ⟨Nat.le_refl 1, by omega⟩
    obtain ⟨s, hs, hlead⟩ := hbody.leaves (.inl (by simp)) hfirst
    have howns := hbody.placed.owns_of_leads hfirst hlead
    exact ⟨s, hs, Nat.ne_of_gt howns.1⟩

/-- What the body leaves open is kept unless control ends both at the entry and elsewhere. -/
theorem keepsExits_close_iff : (close body).KeepsExits body ↔
    ¬ (0 ∈ body.outlets ∧ ∃ s ∈ body.outlets, s ≠ 0) := by
  constructor
  · rintro hkeeps ⟨hentry, s, hs, hs0⟩
    exact hs0 ((joins_entry_exit_iff hbody hentry).mp (hkeeps.kept 0 hentry) s hs)
  · intro hnot
    refine ⟨fun s hs => ?_, only_close hbody, once_close hbody⟩
    by_cases hs0 : s = 0
    · subst hs0
      rw [joins_entry_exit_iff hbody hs]
      intro u hu
      by_contra hu0
      exact hnot ⟨hs, u, hu, hu0⟩
    · exact joins_exit hs hs0

/-- An outlet has an edge to the exit, but the entry has one only if the body lays nothing down. -/
theorem joins_exit_iff : Joins (close body).edges s (exitId body) ↔
    s ∈ body.outlets ∧ (s = 0 → (Outline.ofFunction t).laid = 0) := by
  have hentry : (∀ u ∈ body.outlets, u = 0) ↔ (Outline.ofFunction t).laid = 0 := by
    rw [← not_iff_not, ← ne_eq (Outline.laid _), ← exists_owned_outlet_iff hbody]
    simp
  constructor
  · intro hjoins
    have hmem : s ∈ body.outlets := by
      obtain ⟨e, he, rfl, htarget⟩ := hjoins
      exact only_close hbody e he htarget
    refine ⟨hmem, ?_⟩
    rintro rfl
    exact hentry.mp ((joins_entry_exit_iff hbody hmem).mp hjoins)
  · rintro ⟨hmem, hlaid⟩
    by_cases hs0 : s = 0
    · subst hs0
      exact (joins_entry_exit_iff hbody hmem).mpr (hentry.mpr (hlaid rfl))
    · exact joins_exit hmem hs0

end

/-- The exit is joined to what the body leaves open, once each; the entry, where it
is left open, is joined only if the body lays nothing down. So nothing is lost
unless the body can be passed through and yet lays something down. -/
theorem keepsExits_iff_not_passes (hg : ofFunction source t = .ok g) :
    ∃ body, (Outline.ofFunction t).emit (Range.text source) 1 [⟨0, ""⟩] = .ok body ∧
      g = close body ∧
      (∀ s, Joins g.edges s (exitId body) ↔
        s ∈ body.outlets ∧ (s = 0 → (Outline.ofFunction t).laid = 0)) ∧
      ((g.edges.filter (·.target = exitId body)).map (·.source)).Nodup ∧
      (g.KeepsExits body ↔
        ¬ ((Outline.ofFunction t).passes = true ∧ (Outline.ofFunction t).laid ≠ 0)) := by
  obtain ⟨body, hbody, rfl⟩ := ofFunction_eq_ok_iff.mp hg
  refine ⟨body, Outline.emit_eq_ok_of_emits hbody, rfl, fun s => joins_exit_iff hbody,
    once_close hbody, ?_⟩
  rw [keepsExits_close_iff hbody, entry_mem_outlets_iff hbody, exists_owned_outlet_iff hbody]

/-- A loop that may leave the function, and then a guarded block that may. -/
def loopThenGuard : Tree :=
  Sketch.function [Sketch.loop [Sketch.branch [Sketch.leave] []],
    Sketch.guarded [Sketch.leave] (some [Sketch.statement]) none]

theorem loopThenGuard_keepsExits :
    ∃ g body, ofFunction [] loopThenGuard = .ok g ∧ g = close body ∧ g.KeepsExits body := by
  have hg : ofFunction [] loopThenGuard = .ok _ := rfl
  obtain ⟨body, _, hclose, _, _, hkeeps⟩ := keepsExits_iff_not_passes hg
  exact ⟨_, body, hg, hclose, hkeeps.mpr (by decide)⟩

/-- A handler around nothing. -/
def emptyGuard : Tree := Sketch.function [Sketch.guarded [] (some [Sketch.statement]) none]

/-- Control ends at the entry and behind the handler, and the entry is not joined
to the exit. -/
theorem emptyGuard_entry_lost :
    ∃ body, BodyOf [] emptyGuard body ∧ ofFunction [] emptyGuard = .ok (close body) ∧
      ⟨0, ""⟩ ∈ body.ends ∧ ¬ Joins (close body).edges 0 (exitId body) := by
  refine ⟨_, Outline.emits_of_emit_eq_ok rfl, rfl, ?_, ?_⟩
  · decide
  · decide

end Graph

end Flow

end Cyclomatic
