import Cyclomatic.Proofs.Flow.Reach

/-! # Closing a graph

A graph is a fragment between an entry and an exit. The exit is entered from
the places where control ends; the entry itself is one of them only if there is
no other.
-/

namespace Cyclomatic

open Cyclomatic.Flow Cyclomatic.Flow.Fragment

namespace Flow

/-- A vertex that stands for part of a function's body. -/
def Vertex.isInner : Vertex → Bool
  | .entry | .exit => false
  | .decision .. | .operand .. | .block .. => true

end Flow

namespace Outline

variable {text : Range → String} {p : Part} {next : Nat} {entry : List Exit} {f : Fragment}

/-- The body of a function has neither an entry nor an exit of its own. -/
theorem Emits.isInner {o : Outline p} (hf : Emits text o next entry f) :
    ∀ v ∈ f.vertices, v.2.isInner = true := by
  induction hf with
  | done | absent | unreached | noCase | noHandler => exact List.forall_mem_nil _
  | run _ _ ih =>
      refine List.forall_mem_append.mpr ⟨?_, ih⟩
      unfold runFragment
      split <;> exact List.forall_mem_singleton.mpr rfl
  | step _ _ _ ihFirst ihRest => exact List.forall_mem_append.mpr ⟨ihFirst, ihRest⟩
  | nested _ ih => exact ih
  | branch _ _ ihYes ihNo | choice _ _ ihYes ihNo | ternary _ _ ihYes ihNo =>
      refine List.forall_mem_append.mpr ⟨List.forall_mem_append.mpr ⟨?_, ihYes⟩, ihNo⟩
      exact List.forall_mem_singleton.mpr rfl
  | loop _ ih | switch _ ih | «catch» _ _ ih =>
      exact List.forall_mem_append.mpr ⟨List.forall_mem_singleton.mpr rfl, ih⟩
  | guarded _ _ _ ihBody ihHandler ihFinal =>
      rw [vertices_finish]
      exact List.forall_mem_append.mpr ⟨List.forall_mem_append.mpr ⟨ihBody, ihHandler⟩, ihFinal⟩
  | case _ _ _ ihBody ihRest =>
      refine List.forall_mem_append.mpr ⟨List.forall_mem_append.mpr ⟨?_, ihBody⟩, ihRest⟩
      exact List.forall_mem_singleton.mpr rfl
  | leaf => exact List.forall_mem_singleton.mpr rfl

end Outline

namespace Flow.Graph

/-- The number of the exit. -/
def exitId (body : Fragment) : Nat := 1 + body.vertices.length

/-- The fragment a function's graph is closed around. -/
def BodyOf (source : Bytes) (t : Tree) (body : Fragment) : Prop :=
  Outline.Emits (Range.text source) (Outline.ofFunction t) 1 [⟨0, ""⟩] body

variable {source : Bytes} {t : Tree} {g : Graph} {body : Fragment} {s i exit : Nat}
  {ends : List Nat} {e : Edge} {v : Nat × Vertex}

/-- A function has a graph exactly if its body can be laid down. The graph is the body between an
entry and an exit. -/
theorem ofFunction_eq_ok_iff :
    ofFunction source t = .ok g ↔ ∃ body, BodyOf source t body ∧ g = close body := by
  constructor
  · intro h
    obtain ⟨body, hbody, hg⟩ := Outline.bind_eq_ok_iff.mp h
    cases hg
    exact ⟨body, Outline.emit_eq_ok_iff.mp hbody, rfl⟩
  · rintro ⟨body, hbody, rfl⟩
    exact Outline.bind_eq_ok_iff.mpr ⟨body, Outline.emit_eq_ok_iff.mpr hbody, rfl⟩

/-- The edges of a graph: those of the body, and then one from each of its outlets to the exit. -/
theorem edges_close :
    (close body).edges = body.edges ++ exitEdges (unique body.outlets) (exitId body) := rfl

theorem mem_exitEdges (he : e ∈ exitEdges ends exit) : e.source ∈ ends ∧ e.target = exit := by
  unfold exitEdges at he
  split at he
  next heq =>
    obtain rfl := List.mem_singleton.mp he
    simp [heq]
  next =>
    obtain ⟨s, hs, rfl⟩ := List.mem_map.mp he
    exact ⟨List.mem_of_mem_filter hs, rfl⟩

/-- Each outlet has an edge to the exit, but for the entry, which has one only if it is the only
outlet. -/
theorem joins_exitEdges (hs : s ∈ ends) (hentry : s ≠ 0 ∨ ends = [0]) :
    Joins (exitEdges ends exit) s exit := by
  unfold exitEdges
  split
  next heq =>
    rw [heq, List.mem_singleton] at hs
    exact ⟨_, List.mem_singleton.mpr rfl, hs.symm, rfl⟩
  next hne =>
    have hs0 : s ≠ 0 := hentry.resolve_right hne
    exact ⟨_, List.mem_map_of_mem (List.mem_filter.mpr ⟨hs, by simpa using hs0⟩), rfl, rfl⟩

/-- An edge of a graph is one of the body, or leads from an outlet to the exit. -/
theorem mem_edges_close (he : e ∈ (close body).edges) :
    e ∈ body.edges ∨ e.source ∈ body.outlets ∧ e.target = exitId body := by
  rw [edges_close] at he
  refine (List.mem_append.mp he).imp_right fun he => ?_
  obtain ⟨hsource, htarget⟩ := mem_exitEdges he
  exact ⟨mem_unique.mp hsource, htarget⟩

theorem joins_exit (hs : s ∈ body.outlets) (hs0 : s ≠ 0) :
    Joins (close body).edges s (exitId body) :=
  (joins_exitEdges (mem_unique.mpr hs) (.inl hs0)).mono (List.subset_append_right _ _)

/-! ## Around the body of a function -/

section

variable (hbody : BodyOf source t body)
include hbody

/-- The vertices of a graph are numbered from zero on, in their order. -/
theorem numbered_close :
    (close body).vertices.map (·.1) = List.range (body.vertices.length + 2) := by
  have hplaced := (Outline.Emits.placed hbody).numbered
  simp only [close, List.map_append, List.map_cons, List.map_nil, hplaced]
  rw [List.range_eq_range', List.cons_append, List.range'_succ,
    ← List.range'_append_1 (s := 0 + 1), List.range'_one, Nat.add_comm 1]

theorem foretells_body : (Outline.ofFunction t).Foretells body :=
  Outline.Emits.foretells hbody (by simp)

/-- An outlet is the entry or belongs to the body. -/
theorem mem_outlets_bounds (hs : s ∈ body.outlets) : s = 0 ∨ body.Owns 1 s := by
  rcases mem_outlets.mp hs with hs | hs
  · exact (hbody.placed.ends s hs).imp_left (by simp)
  · exact .inr (hbody.placed.returned s hs)

/-- Control always ends somewhere: what cannot be gone through is left in a place of its own. -/
theorem outlets_ne_nil : body.outlets ≠ [] := by
  obtain ⟨s, hs⟩ := (foretells_body hbody).exists_outlet
  exact List.ne_nil_of_mem (mem_outlets.mpr hs)

/-- Unless control ends nowhere but at the entry, it ends at a vertex of the body. -/
theorem exists_inner_outlet (hends : unique body.outlets ≠ [0]) :
    ∃ s ∈ body.outlets, s ≠ 0 := by
  by_contra hnone
  refine hends (unique_eq_singleton_iff.mpr ⟨outlets_ne_nil hbody, fun s hs => ?_⟩)
  by_contra hs0
  exact hnone ⟨s, hs, hs0⟩

/-- Every vertex of the body is reached from the entry. -/
theorem leads_from_entry (hi : body.Owns 1 i) : Leads (close body).edges 0 i := by
  obtain ⟨s, hs, hlead⟩ := hbody.reached (.inl (by simp)) hi
  obtain rfl : s = 0 := by simpa using hs
  exact hlead.mono (List.subset_append_left _ _)

/-- Control gets from the entry to the exit, through the body or past it. -/
theorem entry_leads_to_exit : Leads (close body).edges 0 (exitId body) := by
  by_cases hends : unique body.outlets = [0]
  · refine .single ((joins_exitEdges ?_ (.inr hends)).mono (List.subset_append_right _ _))
    simp [hends]
  · obtain ⟨s, hs, hs0⟩ := exists_inner_outlet hbody hends
    have hinner := (mem_outlets_bounds hbody hs).resolve_left hs0
    exact (leads_from_entry hbody hinner).tail (joins_exit hs hs0)

/-- Control gets from every vertex of the body to the exit. -/
theorem leads_to_exit (hi : body.Owns 1 i) : Leads (close body).edges i (exitId body) := by
  obtain ⟨s, hs, hlead⟩ := hbody.leaves (.inl (by simp)) hi
  have hlead' : Leads (close body).edges i s := hlead.mono (List.subset_append_left _ _)
  -- The entry may be an outlet without an edge to the exit.
  by_cases hs0 : s = 0
  · subst hs0
    exact hlead'.trans (entry_leads_to_exit hbody)
  · exact hlead'.tail (joins_exit hs hs0)

/-- A vertex of a closed graph is the entry, or lies in the body, or is the exit. -/
theorem vertex_cases (hv : v ∈ (close body).vertices) :
    v = (0, .entry) ∨ v.2.isInner = true ∧ body.Owns 1 v.1 ∨ v = (exitId body, .exit) := by
  simp only [close, List.cons_append, List.mem_cons, List.mem_append, List.not_mem_nil,
    or_false] at hv
  rcases hv with hv | hv | hv
  · exact .inl hv
  · have hmem : v.1 ∈ body.vertices.map (·.1) := List.mem_map_of_mem hv
    rw [hbody.placed.numbered, List.mem_range'_1] at hmem
    exact .inr (.inl ⟨hbody.isInner v hv, hmem⟩)
  · exact .inr (.inr hv)

/-- The entry is the vertex with number zero and no other. -/
theorem vertex_entry_iff (hv : v ∈ (close body).vertices) : v.2 = .entry ↔ v.1 = 0 := by
  rcases vertex_cases hbody hv with rfl | ⟨hinner, howns⟩ | rfl
  · simp
  · refine iff_of_false (fun h => ?_) (fun h => ?_)
    · rw [h] at hinner
      cases hinner
    · exact absurd howns.1 (by omega)
  · refine iff_of_false nofun (fun h => ?_)
    change 1 + body.vertices.length = 0 at h
    omega

/-- The exit is the vertex with the last number and no other. -/
theorem vertex_exit_iff (hv : v ∈ (close body).vertices) : v.2 = .exit ↔ v.1 = exitId body := by
  rcases vertex_cases hbody hv with rfl | ⟨hinner, howns⟩ | rfl
  · refine iff_of_false nofun (fun h => ?_)
    change 0 = 1 + body.vertices.length at h
    omega
  · refine iff_of_false (fun h => ?_) (fun h => ?_)
    · rw [h] at hinner
      cases hinner
    · exact absurd howns.2 (by rw [h, exitId]; omega)
  · simp

theorem entry_leads_to_vertex (hv : v ∈ (close body).vertices) :
    Leads (close body).edges 0 v.1 := by
  rcases vertex_cases hbody hv with rfl | ⟨_, howns⟩ | rfl
  · exact .refl
  · exact leads_from_entry hbody howns
  · exact entry_leads_to_exit hbody

theorem vertex_leads_to_exit (hv : v ∈ (close body).vertices) :
    Leads (close body).edges v.1 (exitId body) := by
  rcases vertex_cases hbody hv with rfl | ⟨_, howns⟩ | rfl
  · exact entry_leads_to_exit hbody
  · exact leads_to_exit hbody howns
  · exact .refl

/-- No edge leads into the entry or out of the exit. -/
theorem bounds_of_mem_edges (he : e ∈ (close body).edges) :
    e.source < exitId body ∧ 0 < e.target ∧ e.target ≤ exitId body := by
  unfold exitId
  rcases mem_edges_close he with he | ⟨hsource, htarget⟩
  · have htarget := hbody.placed.target e he
    unfold Owns at htarget
    rcases hbody.placed.source e he with hsource | hsource
    · have hzero : e.source = 0 := by simpa using hsource
      omega
    · unfold Owns at hsource
      omega
  · rw [htarget, exitId]
    rcases mem_outlets_bounds hbody hsource with hsource | hsource
    · omega
    · unfold Owns at hsource
      omega

end

end Flow.Graph

end Cyclomatic
