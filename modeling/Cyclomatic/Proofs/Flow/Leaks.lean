import Cyclomatic.Proofs.Flow.Nesting

/-! # Handlers that are entered from inside

A handler is entered from the exits that lead to the block it guards. A guarded
block that opens, behind nothing but empty blocks, with a handler around nothing
hands on the ends of that handler as well, and then the outer handler is entered
from inside the block it guards.
-/

namespace Cyclomatic

open Cyclomatic.Flow Cyclomatic.Flow.Fragment

namespace Outline

variable {text : Range → String} {p : Part} {next : Nat} {entry : List Exit} {f b h : Fragment}

/-- Whether a handler around a part would be entered from inside the part as well: the
part opens with a guarded one that has an empty body and a handler that goes on. -/
def leaks : {p : Part} → Outline p → Bool
  | _, .step _ construct rest => construct.leaks || (construct.blank && rest.leaks)
  | _, .nested inner => inner.leaks
  | _, .guarded body handler _ => body.leaks || (body.blank && handler.completes)
  | _, _ => false

/-- The exits that reach a handler around a part: those that lead to the part, and then
the ones that leak from inside it. -/
structure LeaksTo (f : Fragment) (next : Nat) (entry : List Exit) (leaks : Bool)
    (leaked : List Exit) : Prop where
  entered : f.entered = entry ++ leaked
  nil_iff : leaked = [] ↔ leaks = false
  owns : ∀ x ∈ leaked, f.Owns next x.source

/-- A part that is entered from its own exits alone does not leak. -/
theorem leaksTo_nil (hentered : f.entered = entry) : LeaksTo f next entry false [] where
  entered := by rw [hentered, List.append_nil]
  nil_iff := by simp
  owns := nofun

/-- Nothing leaks from a fragment that adds nothing. -/
theorem LeaksTo.of_idle {leaks : Bool} {leaked : List Exit}
    (hleaks : LeaksTo f next entry leaks leaked) (hidle : f = .pass entry) : leaks = false := by
  have hentered := hleaks.entered
  rw [hidle] at hentered
  apply hleaks.nil_iff.mp
  exact List.append_right_eq_self.mp hentered.symm

/-- A construct and what follows it leak what the construct does or, if that is but empty blocks,
what the rest does. -/
theorem LeaksTo.step {g : Fragment} {construct : Outline .construct} {rest : Outline .sequence}
    {leaked : List Exit} (hf : f.Placed next entry) (hblank : f.idle = construct.blank)
    (hfirst : LeaksTo f next entry construct.leaks leaked)
    (hrest : f.idle = true → ∃ leaked,
      LeaksTo g (next + f.vertices.length) f.ends rest.leaks leaked) :
    ∃ leaked, LeaksTo (f.andThen g) next entry
      (construct.leaks || (construct.blank && rest.leaks)) leaked := by
  by_cases hidle : f.idle = true
  · -- An empty block hands its entry on, so that the rest opens the part.
    have hpass := hf.idle hidle
    have hends : f.ends = entry := by rw [hpass]; rfl
    obtain ⟨leaked', hg⟩ := hrest hidle
    refine ⟨leaked', ?_, ?_, ?_⟩
    · rw [Fragment.andThen, if_pos hidle, hg.entered, hends]
    · rw [hg.nil_iff, hfirst.of_idle hpass, ← hblank, hidle]
      simp
    · intro x hx
      exact owns_andThen.mpr (.inr (hg.owns x hx))
  · refine ⟨leaked, ?_, ?_, ?_⟩
    · rw [Fragment.andThen, if_neg hidle, hfirst.entered]
    · rw [hfirst.nil_iff, ← hblank, eq_false_of_ne_true hidle]
      simp
    · intro x hx
      exact owns_andThen.mpr (.inl (hfirst.owns x hx))

/-- A guarded block leaks what its body does or, if that is but empty blocks, the ends of its
handler. -/
theorem LeaksTo.guarded {final : Fragment} {body : Outline .sequence} {handler : Outline .handler}
    {leaked : List Exit} (hb : b.Placed next entry) (hblank : b.idle = body.blank)
    (hends : h.ends = [] ↔ handler.completes = false)
    (howns : ∀ s ∈ sources h.ends, h.Owns (next + b.vertices.length) s)
    (hbody : LeaksTo b next entry body.leaks leaked) :
    ∃ leaked, LeaksTo ((b.protect h).finish final) next entry
      (body.leaks || (body.blank && handler.completes)) leaked := by
  by_cases hidle : b.idle = true
  · -- Control that goes on after the handler is counted among what leads to the body.
    have hpass := hb.idle hidle
    refine ⟨h.ends, ?_, ?_, ?_⟩
    · rw [entered_finish, Fragment.protect, if_pos hidle, hpass]
      rfl
    · rw [hends, hbody.of_idle hpass, ← hblank, hidle]
      simp
    · intro x hx
      have hsource : x.source ∈ sources h.ends := List.mem_map_of_mem hx
      exact owns_finish.mpr (.inl (owns_protect.mpr (.inr (howns _ hsource))))
  · refine ⟨leaked, ?_, ?_, ?_⟩
    · rw [entered_finish, Fragment.protect, if_neg hidle, hbody.entered]
    · rw [hbody.nil_iff, ← hblank, eq_false_of_ne_true hidle]
      simp
    · intro x hx
      exact owns_finish.mpr (.inl (owns_protect.mpr (.inl (hbody.owns x hx))))

/-- A handler around a part is reached from the exits that lead to the part and, exactly
if the part leaks, from further ones inside it. -/
theorem Emits.leaksTo {o : Outline p} (hf : Emits text o next entry f) (hpart : p ≠ .cases)
    (hentry : entry ≠ []) : ∃ leaked, LeaksTo f next entry o.leaks leaked := by
  induction hf with
  | done | absent | noHandler | leaf => exact ⟨[], leaksTo_nil rfl⟩
  | branch | loop | choice | switch | «catch» | ternary => exact ⟨[], leaksTo_nil rfl⟩
  | unreached => exact absurd rfl hentry
  | @run r rest next entry g _ _ _ =>
      refine ⟨[], leaksTo_nil ?_⟩
      rw [Fragment.andThen, idle_runFragment]
      unfold runFragment
      split <;> rfl
  | @step line construct rest next entry f g _ hfirst hrest ihFirst ihRest =>
      obtain ⟨leaked, hleaks⟩ := ihFirst (by simp) hentry
      have hforetells := hfirst.foretells hentry
      refine hleaks.step hfirst.placed hforetells.idle fun hidle => ihRest (by simp) ?_
      rwa [hfirst.placed.idle hidle]
  | nested _ ih => exact ih (by simp) hentry
  | guarded hbody hhandler _ ihBody _ _ =>
      obtain ⟨leaked, hleaks⟩ := ihBody (by simp) hentry
      have hentered := hbody.entered_ne_nil hentry
      exact hleaks.guarded hbody.placed (hbody.foretells hentry).idle
        (hhandler.foretells hentered).ends hhandler.owns_ends_handler
  | noCase | case => exact absurd rfl hpart

/-- A handler around a part that does not leak is reached from what leads to the part. -/
theorem Emits.entered_of_not_leaks {o : Outline p} (hf : Emits text o next entry f)
    (hpart : p ≠ .cases) (hentry : entry ≠ []) (hleaks : o.leaks = false) : f.entered = entry := by
  obtain ⟨leaked, hleaked⟩ := hf.leaksTo hpart hentry
  rw [hleaked.entered, hleaked.nil_iff.mpr hleaks, List.append_nil]

end Outline

end Cyclomatic
