import Cyclomatic.Proofs.Flow.Closing
import Cyclomatic.Proofs.Flow.Inset
import Cyclomatic.Proofs.Flow.Leaks
import Cyclomatic.Proofs.Tree.Sketch

/-! # Where handlers are entered from

An exception may leave a guarded block from wherever the block was entered, so
its handler is entered from those exits, in their order, and from those that
leak out of the block.
-/

namespace Cyclomatic

open Cyclomatic.Flow Cyclomatic.Flow.Fragment

namespace Flow.Graph

open Outline

variable {source : Bytes} {t : Tree} {g : Graph} {body caught final : Outline .sequence}
  {kind : Kind} {d : Decision} {next : Nat} {entry : List Exit} {watched : Bool}

/-- The edges into a vertex of the body are those that the body was laid down with. -/
theorem into_close {whole : Fragment} {i : Nat} (hi : whole.Owns 1 i) :
    into (close whole).edges i = into whole.edges i := by
  have hexit : into (exitEdges (unique whole.outlets) (exitId whole)) i = [] := by
    apply List.filter_eq_nil_iff.mpr
    intro e he htarget
    have heq : e.target = i := of_decide_eq_true htarget
    rw [(mem_exitEdges he).2] at heq
    exact absurd hi.2 (by rw [← heq, exitId]; omega)
  rw [edges_close, into_append, hexit, List.append_nil]

/-- Further exits show as further edges. -/
theorem connect_append_eq_iff {exits leaked : List Exit} {i : Nat} :
    connect (exits ++ leaked) i = connect exits i ↔ leaked = [] := by
  unfold connect
  rw [List.map_append, List.append_right_eq_self, List.map_eq_nil_iff]

/-- A handler is entered from the exits that its guarded block was entered from, in order,
and then from those that leak out of the block; there are none exactly if the block does
not open with a handler around nothing. -/
theorem handler_entered_iff (hg : ofFunction source t = .ok g)
    (hvisit : Visits (Range.text source) ⟨Outline.ofFunction t, 1, [⟨0, ""⟩], false⟩
      ⟨.guarded body (.catch kind d caught) final, next, entry, watched⟩) :
    ∃ b caption leaked, body.emit (Range.text source) next entry = .ok b ∧
      captionOf kind = .ok caption ∧
      (next + b.vertices.length, decisionVertex (Range.text source) caption d) ∈ g.vertices ∧
      into g.edges (next + b.vertices.length) =
        connect (entry ++ leaked) (next + b.vertices.length) ∧
      (∀ x ∈ leaked, b.Owns next x.source) ∧
      (into g.edges (next + b.vertices.length) = connect entry (next + b.vertices.length) ↔
        body.leaks = false) := by
  obtain ⟨whole, hwhole, rfl⟩ := ofFunction_eq_ok_iff.mp hg
  have hroot : Call.Live ⟨Outline.ofFunction t, 1, [⟨0, ""⟩], false⟩ :=
    ⟨by simp, before_singleton 0 ""⟩
  obtain ⟨guardedFragment, hgives, hlive, _⟩ := hvisit.sits hroot hwhole
  cases hgives with
  | @guarded _ _ _ _ _ b h f hbody hhandler hfinal =>
      obtain ⟨leaked, hleaks⟩ := hbody.leaksTo (by simp) hlive.entered
      -- The handler is itself laid down, from the exits that the body was entered from.
      have hcatch : Visits _ _ _ := hvisit.tail (.guardedHandler (emit_eq_ok_of_emits hbody))
      have hinset := hcatch.inset hroot hwhole hhandler
      obtain ⟨h', hh', _, hsits⟩ := hcatch.sits hroot hwhole
      obtain rfl := hhandler.unique (emit_eq_ok_of_emits hh')
      cases hhandler with
      | @«catch» _ caption _ _ _ _ handled hcaption hhandled =>
          let head := decisionFragment (Range.text source) caption d (next + b.vertices.length)
            b.entered
          have hhead : head.Inset (next + b.vertices.length) (head.andThen handled) :=
            inset_andThen_left hhandled.placed
          have howns : (head.andThen handled).Owns (next + b.vertices.length)
              (next + b.vertices.length) := owns_andThen.mpr (.inl (owns_vertex.mpr rfl))
          have hedges : into (close whole).edges (next + b.vertices.length) =
              connect (entry ++ leaked) (next + b.vertices.length) := by
            rw [into_close (hsits.owns _ howns), hinset.into _ howns,
              hhead.into _ (owns_vertex.mpr rfl), ← hleaks.entered]
            exact into_connect _ _
          refine ⟨b, caption, leaked, emit_eq_ok_of_emits hbody, hcaption, ?_, hedges,
            hleaks.owns, ?_⟩
          · have hvertex := hinset.vertices (List.mem_append_left _ (List.mem_singleton.mpr rfl))
            exact List.mem_append_left _ (List.mem_cons_of_mem _ hvertex)
          · rw [hedges, connect_append_eq_iff]
            exact hleaks.nil_iff

/-- A guarded block that opens with a guarded block around a statement. -/
def guardInGuard : Tree :=
  Sketch.function [Sketch.statement, Sketch.guarded
    [Sketch.guarded [Sketch.statement] (some [Sketch.statement]) none] (some []) none]

theorem guardInGuard_handler_entered :
    ∃ g, ofFunction [] guardInGuard = .ok g ∧ into g.edges 5 = connect [⟨1, ""⟩] 5 := by
  have hg : ofFunction [] guardInGuard = .ok _ := rfl
  obtain ⟨b, caption, leaked, hb, _, _, _, _, hiff⟩ :=
    handler_entered_iff hg (.tail (.single (.runRest rfl)) .stepFirst)
  refine ⟨_, hg, ?_⟩
  cases hb
  exact hiff.mpr rfl

/-- A guarded block that opens with a handler around nothing. -/
def guardAroundNothing : Tree :=
  Sketch.function [Sketch.guarded [Sketch.guarded [] (some [Sketch.statement]) none]
    (some [Sketch.statement]) none]

/-- The outer handler is entered from behind the inner one as well. -/
theorem guardAroundNothing_leaks :
    ∃ (g : Graph) (body caught final : Outline .sequence) (kind : Kind) (d : Decision)
        (entry : List Exit) (b : Fragment),
      ofFunction [] guardAroundNothing = .ok g ∧
      Visits (Range.text []) ⟨Outline.ofFunction guardAroundNothing, 1, [⟨0, ""⟩], false⟩
        ⟨.guarded body (.catch kind d caught) final, 1, entry, false⟩ ∧
      body.emit (Range.text []) 1 entry = .ok b ∧
      entry = [⟨0, ""⟩] ∧ into g.edges (1 + b.vertices.length) =
        connect [⟨0, ""⟩, ⟨2, ""⟩] (1 + b.vertices.length) := by
  refine ⟨_, _, _, _, _, _, _, _, rfl, .single .stepFirst, rfl, rfl, ?_⟩
  decide

end Flow.Graph

end Cyclomatic
