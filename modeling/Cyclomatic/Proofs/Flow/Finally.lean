import Cyclomatic.Proofs.Flow.Closing
import Cyclomatic.Proofs.Flow.Leaks
import Cyclomatic.Proofs.Tree.Sketch

/-! # Final parts are not bypassed

Control that is in a guarded block or its handler gets to the exit through the
final part. The one way around it is a place where the function is left, and
that way is open only if control can also fall through to the final part.
-/

namespace Cyclomatic

open Cyclomatic.Flow Cyclomatic.Flow.Fragment

namespace Outline

variable {text : Range → String} {body final : Outline .sequence} {handler : Outline .handler}
  {next : Nat} {entry : List Exit} {watched : Bool} {b h f : Fragment} {s : Nat}

/-- Where control gets out of a guarded block with a final part that cannot be passed
through, but not at that final part: there the function is left, while control can
also fall through. -/
theorem returned_of_mem_gates (hentry : entry ≠ []) (hbefore : Before entry next)
    (hbody : Emits text body next entry b)
    (hhandler : Emits text handler (next + b.vertices.length) b.entered h)
    (hf : Emits text final (next + (b.protect h).vertices.length) (b.protect h).finalEntry f)
    (hfinal : final.passes = false)
    (hleaks : watched = true → (Outline.guarded body handler final).leaks = false)
    (hs : (b.protect h).Owns next s) (hgate : s ∈ ((b.protect h).finish f).gates watched) :
    (b.protect h).ends ≠ [] ∧ s ∈ (b.protect h).returned := by
  have hb := hbody.foretells hentry
  have hh := hhandler.foretells (hbody.entered_ne_nil hentry)
  have hnot : ¬ f.Owns (next + (b.protect h).vertices.length) s :=
    not_owns_of_owns_later hs (Nat.le_refl _)
  rcases List.mem_append.mp hgate with hgate | hgate
  · rcases mem_outlets_finish hgate with hgate | hgate
    · rcases mem_outlets.mp hgate with hgate | hgate
      · have howns := hf.owns_ends_of_not_passes (hb.finalEntry_ne_nil hh) hfinal s hgate
        exact absurd howns hnot
      · exact absurd (hf.placed.returned s hgate) hnot
    · exact hgate
  · cases watched with
    | false => cases hgate
    | true =>
        have hguarded : Emits text (.guarded body handler final) next entry
            ((b.protect h).finish f) := .guarded hbody hhandler hf
        have hentered := hguarded.entered_of_not_leaks (by simp) hentry (hleaks rfl)
        have hmem : s ∈ sources entry := hentered ▸ hgate
        exact absurd hs (hbefore.not_owns hmem (Nat.le_refl _))

end Outline

namespace Flow.Graph

open Outline

/-- A way from a guarded part to the exit that does not meet the final part laid down
after it. -/
def Bypasses (g : Graph) (guarded final : Fragment) (next : Nat) (path : List Nat) : Prop :=
  ∃ start exit, guarded.Owns next start ∧ (exit, .exit) ∈ g.vertices ∧
    Route g.edges start exit path ∧ ∀ i ∈ path, ¬ final.Owns (next + guarded.vertices.length) i

variable {source : Bytes} {t : Tree} {g : Graph} {body final : Outline .sequence}
  {handler : Outline .handler} {next : Nat} {entry : List Exit} {watched : Bool}

/-- A final part that cannot be passed through is bypassed only by leaving the function
in the guarded block or its handler while control can also fall through them. -/
theorem bypass_final_by_return (hg : ofFunction source t = .ok g)
    (hvisit : Visits (Range.text source) ⟨Outline.ofFunction t, 1, [⟨0, ""⟩], false⟩
      ⟨.guarded body handler final, next, entry, watched⟩)
    (hfinal : final.passes = false)
    (hleaks : watched = true → (Outline.guarded body handler final).leaks = false) :
    ∃ b h f, body.emit (Range.text source) next entry = .ok b ∧
      handler.emit (Range.text source) (next + b.vertices.length) b.entered = .ok h ∧
      final.emit (Range.text source) (next + (b.protect h).vertices.length)
        (b.protect h).finalEntry = .ok f ∧
      ∀ path, g.Bypasses (b.protect h) f next path →
        (b.protect h).ends ≠ [] ∧
          ∃ front u v rest, path = front ++ u :: v :: rest ∧
            u ∈ (b.protect h).returned ∧ ¬ (b.protect h).Owns next v := by
  obtain ⟨whole, hwhole, rfl⟩ := ofFunction_eq_ok_iff.mp hg
  obtain ⟨fragment, hgives, ⟨hentry, hbefore⟩, hsits⟩ :=
    hvisit.sits ⟨by simp, before_singleton 0 ""⟩ hwhole
  cases hgives with
  | @guarded _ _ _ _ _ b h f hbody hhandler hf =>
      refine ⟨b, h, f, emit_eq_ok_of_emits hbody, emit_eq_ok_of_emits hhandler,
        emit_eq_ok_of_emits hf, ?_⟩
      rintro path ⟨start, exit, hstart, hexit, hroute, havoid⟩
      have howns : ∀ i, (b.protect h).Owns next i → ((b.protect h).finish f).Owns next i :=
        fun i hi => owns_finish.mpr (.inl hi)
      have hgoal : ¬ (b.protect h).Owns next exit := by
        intro hi
        have hinner := hsits.owns exit (howns exit hi)
        obtain rfl : exit = exitId whole := (vertex_exit_iff hwhole hexit).mp rfl
        exact Nat.lt_irrefl _ hinner.2
      obtain ⟨front, u, v, rest, hpath, ⟨e, he, rfl, rfl⟩, hu, hv⟩ :=
        hroute.exists_escape hstart hgoal
      have hgate : e.source ∈ ((b.protect h).finish f).gates watched := by
        rcases mem_edges_close he with he | ⟨hs, _⟩
        · rcases hsits.outside e he with he | ⟨_, hgate⟩
          · -- The step stays in the whole guarded part, so it enters the final part.
            have htarget := (Emits.guarded hbody hhandler hf).placed.target e he
            rcases owns_finish.mp htarget with htarget | htarget
            · exact absurd htarget hv
            · exact absurd htarget (havoid e.target (by simp [hpath]))
          · exact hgate (howns _ hu)
        · exact hsits.gates _ (mem_gates_of_mem_outlets hs) (howns _ hu)
      obtain ⟨hends, hreturned⟩ :=
        returned_of_mem_gates hentry hbefore hbody hhandler hf hfinal hleaks hu hgate
      exact ⟨hends, front, e.source, e.target, rest, hpath, hreturned, hv⟩

/-- A guarded block and a handler that both leave the function. -/
def returningGuard : Tree :=
  Sketch.function [Sketch.guarded [Sketch.leave] (some [Sketch.leave]) (some [Sketch.statement])]

theorem returningGuard_not_bypassed :
    ∃ (g : Graph) (b h f : Fragment), ofFunction [] returningGuard = .ok g ∧
      b.returned = [1] ∧ h.returned = [3] ∧ f.vertices.length = 1 ∧
      ∀ path, ¬ g.Bypasses (b.protect h) f 1 path := by
  have hg : ofFunction [] returningGuard = .ok _ := rfl
  obtain ⟨b, h, f, hb, hh, hf, hbypass⟩ :=
    bypass_final_by_return hg (.single .stepFirst) rfl (by simp)
  refine ⟨_, b, h, f, hg, ?_, ?_, ?_, fun path hpath => (hbypass path hpath).1 ?_⟩
  · cases hb
    rfl
  · cases hb
    cases hh
    rfl
  · cases hb
    cases hh
    cases hf
    rfl
  · cases hb
    cases hh
    rfl

/-- Some final part of a function lays a vertex down and is bypassed. -/
def SomeBypass (t : Tree) : Prop :=
  ∃ (g : Graph) (body : Outline .sequence) (handler : Outline .handler) (final : Outline .sequence)
      (next : Nat) (entry : List Exit) (watched : Bool) (b h f : Fragment) (path : List Nat),
    ofFunction [] t = .ok g ∧
    Visits (Range.text []) ⟨Outline.ofFunction t, 1, [⟨0, ""⟩], false⟩
      ⟨.guarded body handler final, next, entry, watched⟩ ∧
    body.emit (Range.text []) next entry = .ok b ∧
    handler.emit (Range.text []) (next + b.vertices.length) b.entered = .ok h ∧
    final.emit (Range.text []) (next + (b.protect h).vertices.length) (b.protect h).finalEntry =
      .ok f ∧
    f.vertices ≠ [] ∧ g.Bypasses (b.protect h) f next path

/-- The guarded block leaves the function and its handler does not. -/
def returnOrHandle : Tree :=
  Sketch.function
    [Sketch.guarded [Sketch.leave] (some [Sketch.statement]) (some [Sketch.statement])]

/-- A final part that holds a handler around nothing. -/
def quietFinal : Tree :=
  Sketch.function [Sketch.guarded [Sketch.statement] none
    (some [Sketch.guarded [] (some [Sketch.statement]) none])]

/-- A handler around a guarded block whose own handler is around nothing. -/
def guardedGuard : Tree :=
  Sketch.function [Sketch.guarded
    [Sketch.guarded [] (some [Sketch.statement]) (some [Sketch.statement])]
    (some [Sketch.statement]) none]

/-- A final part is bypassed where some ways leave the function and others fall
through, where it can itself be passed through, and where an enclosing handler is
entered from inside. -/
theorem final_bypassed :
    SomeBypass returnOrHandle ∧ SomeBypass quietFinal ∧ SomeBypass guardedGuard := by
  refine ⟨?_, ?_, ?_⟩
  · exact ⟨_, _, _, _, _, _, _, _, _, _, [1, 5], rfl, .single .stepFirst, rfl, rfl, rfl,
      by decide, 1, 5, by decide⟩
  · exact ⟨_, _, _, _, _, _, _, _, _, _, [1, 4], rfl, .single .stepFirst, rfl, rfl, rfl,
      by decide, 1, 4, by decide⟩
  · exact ⟨_, _, _, _, _, _, _, _, _, _, [2, 4, 5, 6], rfl,
      ((Relation.ReflTransGen.single .stepFirst).tail .guardedBody).tail .stepFirst, rfl, rfl, rfl,
      by decide, 2, 6, by decide⟩

end Flow.Graph

end Cyclomatic
