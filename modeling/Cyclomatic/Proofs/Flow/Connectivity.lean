import Mathlib
import Cyclomatic.Analysis
import Cyclomatic.Proofs.Flow.Closing
import Cyclomatic.Proofs.Tree.Sketch

/-! # Diagrams have one entry and one exit

The nodes of a function's diagram are numbered without gaps, from the only
entry to the only exit. Control gets from the entry to every node and from
every node to the exit, whatever the function is made of.
-/

namespace Cyclomatic

open Cyclomatic.Flow Cyclomatic.Flow.Fragment

namespace Diagram

/-- Different numbers have different names, since a number can be read off its digits. -/
theorem vertexName_injective {i j : Nat} (h : vertexName i = vertexName j) : i = j := by
  unfold vertexName at h
  exact Nat.repr_injective (String.append_right_inj _ |>.mp h)

/-- One step along an edge of a diagram. -/
def Step (d : Diagram) (a b : String) : Prop := b ∈ d.successors a

/-- The nodes are numbered in order; the first is the only entry and the last the
only exit; every node lies on a way from the one to the other. -/
structure SingleEntryExit (d : Diagram) : Prop where
  length : 2 ≤ d.nodes.length
  ids : d.nodes.map (·.id) = (List.range d.nodes.length).map vertexName
  entry_iff : ∀ n ∈ d.nodes, n.kind = .entry ↔ n.id = vertexName 0
  exit_iff : ∀ n ∈ d.nodes, n.kind = .exit ↔ n.id = vertexName (d.nodes.length - 1)
  not_into_entry : ∀ e ∈ d.edges, e.target ≠ vertexName 0
  not_from_exit : ∀ e ∈ d.edges, e.source ≠ vertexName (d.nodes.length - 1)
  ends_mem : ∀ e ∈ d.edges, e.source ∈ d.nodes.map (·.id) ∧ e.target ∈ d.nodes.map (·.id)
  from_entry : ∀ n ∈ d.nodes, Relation.ReflTransGen d.Step (vertexName 0) n.id
  to_exit : ∀ n ∈ d.nodes, Relation.ReflTransGen d.Step n.id (vertexName (d.nodes.length - 1))

variable {g : Graph} {name path : Option String}

/-- An edge between two vertices is a step between their nodes. -/
theorem step_ofGraph {a b : Nat} (h : Joins g.edges a b) :
    (ofGraph g name path).Step (vertexName a) (vertexName b) := by
  obtain ⟨e, he, rfl, rfl⟩ := h
  refine List.mem_map.mpr ⟨ofEdge e, List.mem_filter.mpr ⟨List.mem_map_of_mem he, ?_⟩, rfl⟩
  simp [ofEdge]

/-- A way through a graph is a way through its diagram. -/
theorem leads_ofGraph {a b : Nat} (h : Leads g.edges a b) :
    Relation.ReflTransGen (ofGraph g name path).Step (vertexName a) (vertexName b) :=
  Relation.ReflTransGen.lift vertexName (fun _ _ => step_ofGraph) _ _ h

@[simp] theorem ofVertex_id (i : Nat) (v : Vertex) : (ofVertex i v).id = vertexName i := by
  cases v <;> rfl

theorem ofVertex_kind_eq_entry_iff {i : Nat} {v : Vertex} :
    (ofVertex i v).kind = .entry ↔ v = .entry := by
  cases v <;> simp [ofVertex]

theorem ofVertex_kind_eq_exit_iff {i : Nat} {v : Vertex} :
    (ofVertex i v).kind = .exit ↔ v = .exit := by
  cases v <;> simp [ofVertex]

theorem vertexName_inj {i j : Nat} : vertexName i = vertexName j ↔ i = j :=
  ⟨vertexName_injective, fun h => h ▸ rfl⟩

section

open Flow.Graph

variable {source : Bytes} {t : Tree} {body : Fragment} (hbody : BodyOf source t body)
include hbody

/-- The nodes of a diagram are named by their numbers, from the entry to the exit. -/
theorem ids_ofGraph_close : (ofGraph (close body) name path).nodes.map (·.id) =
    (List.range (exitId body + 1)).map vertexName := by
  have hlength : exitId body + 1 = body.vertices.length + 2 := by
    unfold exitId
    omega
  rw [hlength, ← numbered_close hbody]
  simp [ofGraph, Function.comp_def]

theorem length_ofGraph_close : (ofGraph (close body) name path).nodes.length = exitId body + 1 := by
  rw [← List.length_map (f := (·.id)), ids_ofGraph_close hbody, List.length_map, List.length_range]

/-- The diagram of what was laid down has one entry and one exit, and all its nodes lie between
them. -/
theorem singleEntryExit_close : (ofGraph (close body) name path).SingleEntryExit := by
  have hlength : (ofGraph (close body) name path).nodes.length = exitId body + 1 :=
    length_ofGraph_close hbody
  have hids : (ofGraph (close body) name path).nodes.map (·.id) =
      (List.range (exitId body + 1)).map vertexName := ids_ofGraph_close hbody
  have hlast : (ofGraph (close body) name path).nodes.length - 1 = exitId body := by omega
  refine ⟨?_, ?_, ?_, ?_, ?_, ?_, ?_, ?_, ?_⟩
  · rw [hlength]
    unfold exitId
    omega
  · rw [hlength, hids]
  · intro n hn
    obtain ⟨v, hv, rfl⟩ := List.mem_map.mp hn
    rw [ofVertex_kind_eq_entry_iff, ofVertex_id, vertexName_inj]
    exact vertex_entry_iff hbody hv
  · intro n hn
    obtain ⟨v, hv, rfl⟩ := List.mem_map.mp hn
    rw [ofVertex_kind_eq_exit_iff, ofVertex_id, vertexName_inj, hlast]
    exact vertex_exit_iff hbody hv
  · intro edge hedge
    obtain ⟨e, he, rfl⟩ := List.mem_map.mp hedge
    have hbounds := bounds_of_mem_edges hbody he
    exact fun h => absurd (vertexName_injective h) (by omega)
  · intro edge hedge
    obtain ⟨e, he, rfl⟩ := List.mem_map.mp hedge
    have hbounds := bounds_of_mem_edges hbody he
    rw [hlast]
    exact fun h => absurd (vertexName_injective h) (by omega)
  · intro edge hedge
    obtain ⟨e, he, rfl⟩ := List.mem_map.mp hedge
    have hbounds := bounds_of_mem_edges hbody he
    rw [hids]
    constructor
    · exact List.mem_map_of_mem (List.mem_range.mpr (by omega))
    · exact List.mem_map_of_mem (List.mem_range.mpr (by omega))
  · intro n hn
    obtain ⟨v, hv, rfl⟩ := List.mem_map.mp hn
    rw [ofVertex_id]
    exact leads_ofGraph (entry_leads_to_vertex hbody hv)
  · intro n hn
    obtain ⟨v, hv, rfl⟩ := List.mem_map.mp hn
    rw [ofVertex_id, hlast]
    exact leads_ofGraph (vertex_leads_to_exit hbody hv)

end

/-- Every diagram of a function has one entry and one exit, and all its nodes
lie between them. -/
theorem diagram_singleEntryExit {source : Bytes} {t : Tree} {d : Diagram}
    (hd : (Analysis.diagram source t name path).result = .ok d) : d.SingleEntryExit := by
  unfold Analysis.diagram at hd
  dsimp only at hd
  split at hd
  next g hg =>
    obtain ⟨body, hbody, rfl⟩ := Graph.ofFunction_eq_ok_iff.mp hg
    cases hd
    exact singleEntryExit_close hbody
  next => cases hd

/-- A loop around guarded blocks that leave the function, with a final part that can
be passed through. -/
def guardedLoop : Tree :=
  Sketch.function [Sketch.loop [Sketch.guarded
    [Sketch.guarded [Sketch.leave] none (some [Sketch.branch [Sketch.leave] []])]
    (some [Sketch.statement, Sketch.leave]) (some [Sketch.guarded [] (some []) none])]]

theorem guardedLoop_singleEntryExit :
    ∃ d, (Analysis.diagram [] guardedLoop none none).result = .ok d ∧ d.SingleEntryExit := by
  have hd : (Analysis.diagram [] guardedLoop none none).result = .ok _ := rfl
  exact ⟨_, hd, diagram_singleEntryExit hd⟩

end Diagram

end Cyclomatic
