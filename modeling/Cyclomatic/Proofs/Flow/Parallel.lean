import Cyclomatic.Proofs.Flow.Connectivity
import Cyclomatic.Proofs.Flow.ExitEdges
import Cyclomatic.Proofs.Flow.Nesting

/-! # No edge twice

Edges that lead to different vertices differ, and whatever is laid down leads to
vertices of its own. So an edge could be there twice only if a vertex were
entered twice from one exit, or a loop were gone back to twice from one vertex.
Neither happens: no list of exits from which control goes on has an exit twice,
not even the one that a handler inside a guarded block adds to.
-/

namespace Cyclomatic

open Cyclomatic.Flow

namespace Flow

/-- Different exits give different edges to one vertex. -/
theorem nodup_connect {exits : List Exit} (hexits : exits.Nodup) (target : Nat) :
    (connect exits target).Nodup := by
  refine hexits.map fun x y heq => ?_
  obtain ⟨source, label⟩ := x
  obtain ⟨source', label'⟩ := y
  simpa using heq

/-- Edges without doubles stay so beside others that lead elsewhere. -/
theorem nodup_append_of_targets {first second : List Edge} (hfirst : first.Nodup)
    (hsecond : second.Nodup) (hapart : ∀ e ∈ first, ∀ e' ∈ second, e.target ≠ e'.target) :
    (first ++ second).Nodup := by
  apply List.nodup_append.mpr
  refine ⟨hfirst, hsecond, ?_⟩
  intro e he e' he' heq
  exact hapart e he e' he' (congrArg Edge.target heq)

/-- Exits without doubles stay so beside others that start elsewhere. -/
theorem nodup_append_of_sources {first second : List Exit} (hfirst : first.Nodup)
    (hsecond : second.Nodup) (hapart : ∀ s ∈ sources first, s ∉ sources second) :
    (first ++ second).Nodup := by
  apply List.nodup_append.mpr
  refine ⟨hfirst, hsecond, ?_⟩
  rintro x hx _ hx' rfl
  exact hapart x.source (List.mem_map_of_mem hx) (List.mem_map_of_mem hx')

namespace Fragment

variable {f g y n b h c : Fragment} {next i s : Nat} {entry own : List Exit}

/-- Nothing that a fragment lists is listed twice. -/
structure Distinct (f : Fragment) : Prop where
  edges : f.edges.Nodup
  ends : f.ends.Nodup
  returned : f.returned.Nodup
  entered : f.entered.Nodup

theorem distinct_pass (hentry : entry.Nodup) : (pass entry).Distinct :=
  ⟨List.nodup_nil, hentry, List.nodup_nil, hentry⟩

theorem distinct_nothing (hentry : entry.Nodup) : (nothing entry).Distinct :=
  ⟨List.nodup_nil, List.nodup_nil, List.nodup_nil, hentry⟩

/-- A vertex has one edge for each exit that leads to it. -/
theorem distinct_vertex (v : Vertex) (hentry : entry.Nodup) : (vertex next v entry).Distinct :=
  ⟨nodup_connect hentry next, List.nodup_singleton _, List.nodup_nil, hentry⟩

/-- What is laid down one after the other has different targets, whatever it is entered from. -/
theorem Placed.targets_ne {entry' : List Exit} {next' : Nat} (hf : f.Placed next entry)
    (hg : g.Placed next' entry') (hle : next + f.vertices.length ≤ next') :
    ∀ e ∈ f.edges, ∀ e' ∈ g.edges, e.target ≠ e'.target := by
  intro e he e' he' heq
  have howns := hg.target e' he'
  rw [← heq] at howns
  exact not_owns_of_owns_later (hf.target e he) hle howns

/-- The function is not left at one vertex in two fragments. -/
theorem Placed.returned_disjoint {entry' : List Exit} {next' : Nat} (hf : f.Placed next entry)
    (hg : g.Placed next' entry') (hle : next + f.vertices.length ≤ next') :
    f.returned.Disjoint g.returned := by
  intro s hs hs'
  exact not_owns_of_owns_later (hf.returned s hs) hle (hg.returned s hs')

/-- Two fragments in sequence list nothing twice: their edges lead to different vertices, and they
leave the function at different ones. -/
theorem Distinct.andThen (hf : f.Distinct) (hg : g.Distinct) (hfp : f.Placed next entry)
    (hgp : g.Placed (next + f.vertices.length) f.ends) : (f.andThen g).Distinct where
  edges := nodup_append_of_targets hf.edges hg.edges (hfp.targets_ne hgp (Nat.le_refl _))
  ends := hg.ends
  returned := hf.returned.append hg.returned (hfp.returned_disjoint hgp (Nat.le_refl _))
  entered := by
    unfold Fragment.andThen
    dsimp only
    split
    · exact hg.entered
    · exact hf.entered

section

variable {v : Vertex} {label yesLabel noLabel : String}

/-- Nothing below a decision leads to the decision, except back edges. -/
theorem Placed.target_ne_head (hb : b.Placed (next + 1) entry) :
    ∀ e ∈ b.edges, e.target ≠ next := by
  intro e he heq
  have howns := hb.target e he
  rw [heq] at howns
  exact Nat.not_succ_le_self next howns.1

/-- The edges of a vertex and of what is below it are all different. -/
theorem nodup_below (hentry : entry.Nodup) (hb : b.edges.Nodup)
    (hbp : b.Placed (next + 1) [⟨next, label⟩]) :
    ((vertex next v entry).edges ++ b.edges).Nodup := by
  apply nodup_append_of_targets (nodup_connect hentry next) hb
  intro e he e' he' heq
  rw [(mem_connect he).2] at heq
  exact hbp.target_ne_head e' he' heq.symm

/-- A decision with two sides lists nothing twice. Sides that add nothing both end at the decision,
and there their labels tell them apart. -/
theorem Distinct.fork (hentry : entry.Nodup) (hy : y.Distinct) (hn : n.Distinct)
    (hyp : y.Placed (next + 1) [⟨next, yesLabel⟩])
    (hnp : n.Placed (next + 1 + y.vertices.length) [⟨next, noLabel⟩]) :
    ((vertex next v entry).fork y n).Distinct where
  edges := by
    apply nodup_append_of_targets (nodup_below hentry hy.edges hyp) hn.edges
    intro e he e' he'
    rcases List.mem_append.mp he with he | he
    · have howns := (hnp.target e' he').1
      rw [(mem_connect he).2]
      omega
    · exact hyp.targets_ne hnp (Nat.le_refl _) e he e' he'
  ends := nodup_unique _
  returned := hy.returned.append hn.returned (hyp.returned_disjoint hnp (Nat.le_refl _))
  entered := hentry

/-- The edges back to a loop come from the loop itself or its body, those into it from outside. -/
theorem Distinct.cycle (hentry : entry.Nodup) (hbefore : Before entry next) (hb : b.Distinct)
    (hbp : b.Placed (next + 1) [⟨next, label⟩]) :
    ((vertex next v entry).cycle next b).Distinct where
  edges := by
    have hback : (b.backSources.map fun source => (⟨source, next, loopLabel⟩ : Edge)).Nodup :=
      (nodup_unique _).map fun s s' heq => congrArg Edge.source heq
    apply (nodup_below hentry hb.edges hbp).append hback
    intro e he hback
    obtain ⟨s, hs, rfl⟩ := List.mem_map.mp hback
    rcases List.mem_append.mp he with he | he
    · have hlt := hbefore s (mem_connect he).1
      rcases hbp.backSources hs with rfl | howns
      · exact Nat.lt_irrefl _ hlt
      · exact absurd howns.1 (by omega)
    · exact hbp.target_ne_head _ he rfl
  ends := List.nodup_singleton _
  returned := hb.returned
  entered := hentry

/-- A multiway branch lists nothing twice if its cases do not. -/
theorem Distinct.select (hentry : entry.Nodup) (hc : c.Distinct)
    (hcp : c.Placed (next + 1) [⟨next, label⟩]) :
    ((vertex next v entry).select c own).Distinct where
  edges := nodup_below hentry hc.edges hcp
  ends := nodup_unique _
  returned := hc.returned
  entered := hentry

end

/-- Cases have no end in common: the ends of each are its own. -/
theorem Distinct.alongside {relabelled : List Exit} (hf : f.Distinct) (hg : g.Distinct)
    (hfp : f.Placed next relabelled) (hgp : g.Placed (next + f.vertices.length) entry)
    (hbefore : Before entry next) (hfends : ∀ s ∈ sources f.ends, f.Owns next s) :
    (f.alongside g).Distinct where
  edges := nodup_append_of_targets hf.edges hg.edges (hfp.targets_ne hgp (Nat.le_refl _))
  ends := by
    apply nodup_append_of_sources hf.ends hg.ends
    intro s hs hs'
    exact (hgp.avoids_earlier hbefore).ends s hs' (hfends s hs)
  returned := hf.returned.append hg.returned (hfp.returned_disjoint hgp (Nat.le_refl _))
  entered := hf.entered

/-- The exits that the ends of a handler may be added to lead to the guarded block from before
it. -/
theorem Distinct.protect (hb : b.Distinct) (hh : h.Distinct) (hbp : b.Placed next entry)
    (hhp : h.Placed (next + b.vertices.length) b.entered) (hbefore : Before entry next)
    (hhends : ∀ s ∈ sources h.ends, h.Owns (next + b.vertices.length) s) :
    (b.protect h).Distinct where
  edges := nodup_append_of_targets hb.edges hh.edges (hbp.targets_ne hhp (Nat.le_refl _))
  ends := nodup_unique _
  returned := hb.returned.append hh.returned (hbp.returned_disjoint hhp (Nat.le_refl _))
  entered := by
    unfold Fragment.protect
    dsimp only
    split
    · apply nodup_append_of_sources hb.entered hh.ends
      intro s hs hs'
      exact absurd (hbefore.after (hbp.entered s hs)) (Nat.not_lt.mpr (hhends s hs').1)
    · exact hb.entered

/-- What a final part is entered from is not listed twice. -/
theorem Distinct.finalEntry (hf : f.Distinct) : f.finalEntry.Nodup := by
  unfold Fragment.finalEntry
  split
  · exact hf.returned.map fun s s' heq => congrArg Exit.source heq
  · exact hf.ends

/-- A final part lists nothing twice behind what it ends. -/
theorem Distinct.finish (hf : f.Distinct) (hg : g.Distinct) (hfp : f.Placed next entry)
    (hgp : g.Placed (next + f.vertices.length) f.finalEntry) : (f.finish g).Distinct where
  edges := by
    rw [edges_finish]
    exact nodup_append_of_targets hf.edges hg.edges (hfp.targets_ne hgp (Nat.le_refl _))
  ends := by
    by_cases hends : f.ends = []
    · rw [ends_finish_of_nil hends]
      exact List.nodup_nil
    · rw [ends_finish_of_ne_nil hends]
      exact hg.ends
  returned := by
    by_cases hends : f.ends = []
    · -- The ends of the final part are added without those that are there already.
      have hreturned : (f.finish g).returned = g.returned ++
          (unique (g.ends.map (·.source))).filter (!g.returned.contains ·) := by
        simp [Fragment.finish, hends]
      rw [hreturned]
      apply hg.returned.append ((nodup_unique _).filter _)
      intro s hs hs'
      simp [hs] at hs'
    · rw [returned_finish_of_ne_nil hends]
      exact hf.returned.append hg.returned (hfp.returned_disjoint hgp (Nat.le_refl _))
  entered := by
    rw [entered_finish]
    exact hf.entered

end Fragment

end Flow

namespace Outline

open Fragment

variable {text : Range → String} {p : Part} {next : Nat} {entry : List Exit} {f : Fragment}

/-- A straight run lists nothing twice. -/
theorem distinct_runFragment (r : Run) (hentry : entry.Nodup) :
    (runFragment text r next entry).Distinct := by
  unfold runFragment
  split
  · exact ⟨nodup_connect hentry next, List.nodup_nil, List.nodup_singleton _, hentry⟩
  · exact distinct_vertex _ hentry

/-- The cases of a multiway branch are entered under labels of their own, so that two exits of
one vertex would become the same exit. -/
theorem nodup_caseEntry (hentry : (sources entry).Nodup) (test : Option Range) :
    (caseEntry text test entry).Nodup := by
  apply List.Nodup.of_map (f := Exit.source)
  change (sources (caseEntry text test entry)).Nodup
  rwa [sources_caseEntry]

/-- What is laid down from different exits, all of which stand before it, lists nothing twice. -/
theorem Emits.distinct {o : Outline p} (hf : Emits text o next entry f) (hentry : entry.Nodup)
    (hcases : p = .cases → (sources entry).Nodup) (hbefore : Before entry next) : f.Distinct := by
  -- Below a decision there is one exit only, and it stands before all that follows.
  have hbelow (n : Nat) (label : String) :
      [(⟨n, label⟩ : Exit)].Nodup ∧ (sources [⟨n, label⟩]).Nodup :=
    ⟨List.nodup_singleton _, List.nodup_singleton n⟩
  induction hf with
  | done | absent => exact distinct_pass hentry
  | unreached => exact distinct_pass hentry
  | noCase | noHandler => exact distinct_nothing hentry
  | leaf => exact distinct_vertex _ hentry
  | @run r rest next entry g _ hrest ih =>
      have hfirst : (runFragment text r next entry).Distinct := distinct_runFragment r hentry
      have hplaced : (runFragment text r next entry).Placed next entry := placed_runFragment r
      apply hfirst.andThen (ih hfirst.ends nofun ?_) hplaced
      · rw [length_runFragment]
        exact hrest.placed
      · intro s hs
        have howns := (owns_ends_runFragment r s hs).2
        rwa [length_runFragment] at howns
  | step _ hfirst hrest ihFirst ihRest =>
      have hdistinct := ihFirst hentry nofun hbefore
      refine hdistinct.andThen (ihRest hdistinct.ends nofun ?_) hfirst.placed hrest.placed
      intro s hs
      exact hbefore.after (hfirst.placed.ends s hs)
  | nested _ ih => exact ih hentry nofun hbefore
  | @branch d yes no next entry y n hyes hno ihYes ihNo
  | @choice d yes no next entry y n hyes hno ihYes ihNo
  | @ternary d yes no next entry y n hyes hno ihYes ihNo =>
      have hy := ihYes (hbelow next _).1 nofun (before_singleton next _)
      have hn := ihNo (hbelow next _).1 nofun
        ((before_singleton next _).mono (Nat.le_add_right _ _))
      exact hy.fork hentry hn hyes.placed hno.placed
  | @loop style d body next entry b hbody ih =>
      have hb := ih (hbelow next _).1 nofun (before_singleton next _)
      exact hb.cycle hentry hbefore hbody.placed
  | @switch d cases next entry c hc ih =>
      have hdistinct := ih (hbelow next _).1 (fun _ => (hbelow next "").2) (before_singleton next _)
      exact hdistinct.select hentry hc.placed
  | guarded hbody hhandler hfinal ihBody ihHandler ihFinal =>
      have hb := ihBody hentry nofun hbefore
      have hh := ihHandler hb.entered nofun fun s hs =>
        hbefore.after (hbody.placed.entered s hs)
      have hguarded := hb.protect hh hbody.placed hhandler.placed hbefore hhandler.owns_ends_handler
      have hplaced := hbody.placed.protect hhandler.placed
      refine hguarded.finish (ihFinal hguarded.finalEntry nofun ?_) hplaced hfinal.placed
      intro s hs
      exact hbefore.after (hplaced.finalEntry hs)
  | @case kind caption d test body rest next entry b r _ hbody hrest ihBody ihRest =>
      have hlabelled : (caseEntry text test entry).Nodup := nodup_caseEntry (hcases rfl) test
      have hhead : (vertex next (decisionVertex text caption d)
          (caseEntry text test entry)).Distinct := distinct_vertex _ hlabelled
      have hplaced : (vertex next (decisionVertex text caption d)
          (caseEntry text test entry)).Placed next (caseEntry text test entry) := placed_vertex _
      have hb := ihBody (hbelow next _).1 nofun (before_singleton next _)
      have hr := ihRest hentry hcases (hbefore.mono (by omega))
      refine (hhead.andThen hb hplaced hbody.placed).alongside hr (hplaced.andThen hbody.placed) ?_
        hbefore (hbody.placed.owns_ends_andThen owns_ends_vertex)
      rw [length_andThen, ← Nat.add_assoc]
      exact hrest.placed
  | @«catch» kind caption d body next entry b _ hbody ih =>
      have hb := ih (hbelow next _).1 nofun (before_singleton next _)
      exact (distinct_vertex _ hentry).andThen hb (placed_vertex _) hbody.placed

end Outline

namespace Flow.Graph

variable {source : Bytes} {t : Tree} {body : Fragment}

/-- No edge of a graph is there twice, those to the exit included. -/
theorem nodup_edges_close (hbody : BodyOf source t body) : (close body).edges.Nodup := by
  have hdistinct := hbody.distinct (List.nodup_singleton _) (fun _ => List.nodup_singleton 0)
    (Fragment.before_singleton 0 "")
  rw [edges_close]
  apply nodup_append_of_targets hdistinct.edges
  · exact (nodup_sources_exitEdges (nodup_unique _) _).of_map
  · intro e he e' he'
    rw [(mem_exitEdges he').2]
    exact target_ne_exitId hbody he

end Flow.Graph

namespace Diagram

open Cyclomatic.Tree

/-- Different edges are shown as different ones. -/
theorem ofEdge_injective : Function.Injective ofEdge := by
  rintro ⟨source, target, label⟩ ⟨source', target', label'⟩ heq
  simp only [ofEdge, Edge.mk.injEq, vertexName_inj] at heq
  obtain ⟨rfl, rfl, rfl⟩ := heq
  rfl

/-- No two edges of a function's diagram have the same source, target and label. -/
theorem diagram_edges_nodup {source : Bytes} {t : Tree} {name path : Option String} {d : Diagram}
    (hd : (Analysis.diagram source t name path).result = .ok d) : d.edges.Nodup := by
  unfold Analysis.diagram at hd
  dsimp only at hd
  split at hd
  next g hg =>
    obtain ⟨body, hbody, rfl⟩ := Graph.ofFunction_eq_ok_iff.mp hg
    cases hd
    exact (Graph.nodup_edges_close hbody).map ofEdge_injective
  next => cases hd

/-- A case whose test has the text of the first four bytes. -/
def fourByteCase (ss : List Tree) : Tree :=
  .ofSlots { kind := .case, type := "case" }
    { condition := some
        (.ofSlots { kind := .identifier, type := "test", place := { endByte := 4 } } {})
      statements := ss }

/-- A branch with nothing on either side, a multiway branch with three cases under one label, and
a final part that is come to from two places where the function is left. -/
def crossroads : Tree :=
  Sketch.function
    [Sketch.branch [] [],
      .ofSlots { kind := .switch, type := "switch" }
        { cases := [fourByteCase [], fourByteCase [Sketch.statement], fourByteCase []] },
      Sketch.guarded [Sketch.branch [Sketch.leave] [Sketch.leave]] none (some [Sketch.statement])]

theorem crossroads_edges_nodup :
    ∃ d, (Analysis.diagram [76, 79, 79, 80] crossroads none none).result = .ok d ∧
      d.edges.Nodup ∧ d.edges.countP (·.label == "LOOP") = 3 ∧
      d.edges.countP (·.source == "node_1") = 2 ∧ d.edges.countP (·.target == "node_10") = 2 := by
  have hd : (Analysis.diagram [76, 79, 79, 80] crossroads none none).result = .ok _ := rfl
  exact ⟨_, hd, diagram_edges_nodup hd, by cbv, by cbv, by cbv⟩

end Diagram

end Cyclomatic
