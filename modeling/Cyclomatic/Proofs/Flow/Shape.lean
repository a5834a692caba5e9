import Cyclomatic.Proofs.Flow.Placement

/-! # What an outline foretells

How many vertices a part lays down, whether control goes on after it, whether
the function can be left in it, and whether it can be passed through without a
vertex: all of this can be read off the outline before anything is laid down.
-/

namespace Cyclomatic

open Cyclomatic.Flow

namespace Outline

/-- The number of vertices a part lays down when it is entered. -/
def laid : {p : Part} → Outline p → Nat
  | _, .done => 0
  | _, .run r rest => 1 + if r.returns then 0 else rest.laid
  | _, .step _ construct rest => construct.laid + if construct.completes then rest.laid else 0
  | _, .nested inner => inner.laid
  | _, .branch _ yes no => 1 + yes.laid + no.laid
  | _, .loop _ _ body => 1 + body.laid
  | _, .choice _ yes no => 1 + yes.laid + no.laid
  | _, .switch _ cases => 1 + cases.laid
  | _, .guarded body handler final => body.laid + handler.laid + final.laid
  | _, .noCase => 0
  | _, .case _ _ _ body rest => 1 + body.laid + rest.laid
  | _, .noHandler => 0
  | _, .catch _ _ body => 1 + body.laid
  | _, .absent => 0
  | _, .leaf _ => 1
  | _, .ternary _ yes no => 1 + yes.laid + no.laid

/-- Whether the function can be left inside a part. -/
def mayReturn : {p : Part} → Outline p → Bool
  | _, .run r rest => r.returns || rest.mayReturn
  | _, .step _ construct rest =>
      construct.mayReturn || (construct.completes && rest.mayReturn)
  | _, .nested inner => inner.mayReturn
  | _, .branch _ yes no => yes.mayReturn || no.mayReturn
  | _, .loop _ _ body => body.mayReturn
  | _, .switch _ cases => cases.mayReturn
  | _, .guarded body handler final => body.mayReturn || handler.mayReturn || final.mayReturn
  | _, .case _ _ _ body rest => body.mayReturn || rest.mayReturn
  | _, .catch _ _ body => body.mayReturn
  | _, .done | _, .choice .. | _, .noCase | _, .noHandler | _, .absent | _, .leaf _
  | _, .ternary .. => false

/-- Whether control can go through a part without meeting a vertex of it. -/
def passes : {p : Part} → Outline p → Bool
  | _, .done | _, .absent => true
  | _, .step _ construct rest => construct.passes && rest.passes
  | _, .nested inner => inner.passes
  | _, .guarded body _ final => body.passes && final.passes
  | _, _ => false

/-- Whether a part is nothing but empty blocks. -/
def blank : {p : Part} → Outline p → Bool
  | _, .done | _, .absent => true
  | _, .step _ construct rest => construct.blank && rest.blank
  | _, .nested inner => inner.blank
  | _, _ => false

/-- No case at all, or no handler at all. -/
def isVoid : {p : Part} → Outline p → Bool
  | _, .noCase | _, .noHandler => true
  | _, _ => false

/-- Whether the constructs of a part pass a test. Guarded constructs are not looked into. -/
def all (test : Outline .construct → Bool) : {p : Part} → Outline p → Bool
  | _, .run _ rest => rest.all test
  | _, .step _ construct rest => construct.all test && rest.all test
  | _, .nested inner => test (.nested inner) && inner.all test
  | _, .branch d yes no => test (.branch d yes no) && yes.all test && no.all test
  | _, .loop style d body => test (.loop style d body) && body.all test
  | _, .choice d yes no => test (.choice d yes no)
  | _, .switch d cases => test (.switch d cases) && cases.all test
  | _, .guarded body handler final => test (.guarded body handler final)
  | _, .case _ _ _ body rest => body.all test && rest.all test
  | _, .noHandler | _, .catch .. => false
  | _, .done | _, .noCase | _, .absent | _, .leaf _ | _, .ternary .. => true

def isUnguarded : Outline .construct → Bool
  | .guarded .. => false
  | _ => true

/-- A loop that can go round. -/
def goesRound : Outline .construct → Bool
  | .loop _ _ body => body.completes
  | _ => true

/-- Whether a part has no guarded construct in it. -/
def unguarded {p : Part} (o : Outline p) : Bool := o.all isUnguarded

@[simp] theorem isVoid_sequence (o : Outline .sequence) : o.isVoid = false := by
  cases o <;> rfl

@[simp] theorem isVoid_construct (o : Outline .construct) : o.isVoid = false := by
  cases o <;> rfl

@[simp] theorem isVoid_operand (o : Outline .operand) : o.isVoid = false := by
  cases o <;> rfl

@[simp] theorem completes_operand (o : Outline .operand) : o.completes = true := by
  cases o <;> rfl

@[simp] theorem mayReturn_operand (o : Outline .operand) : o.mayReturn = false := by
  cases o <;> rfl

/-- Where control does not go on, it leaves the function. -/
theorem completes_or_mayReturn {p : Part} (o : Outline p) :
    o.isVoid = true ∨ o.completes = true ∨ o.mayReturn = true := by
  induction o with
  | done => exact .inr (.inl rfl)
  | run r rest ih =>
      simp only [isVoid_sequence, completes, mayReturn] at ih ⊢
      cases r.returns <;> simp_all
  | step line construct rest ihConstruct ihRest =>
      simp only [isVoid_construct, isVoid_sequence, completes, mayReturn] at ihConstruct ihRest ⊢
      rcases ihConstruct with h | h | h
      · cases h
      · rcases ihRest with h' | h' | h' <;> simp_all
      · simp [h]
  | nested inner ih =>
      simpa only [isVoid_construct, isVoid_sequence, completes, mayReturn] using ih
  | branch d yes no ihYes ihNo =>
      simp only [isVoid_construct, isVoid_sequence, completes, mayReturn] at ihYes ⊢
      rcases ihYes with h | h | h <;> simp_all
  | loop => exact .inr (.inl rfl)
  | choice => exact .inr (.inl rfl)
  | switch d cases ih =>
      simp only [isVoid_construct, completes, mayReturn]
      rcases ih with h | h | h
      · cases cases with
        | noCase => simp [allTested]
        | case => cases h
      · simp [h]
      · simp [h]
  | guarded body handler final ihBody ihHandler ihFinal =>
      simp only [isVoid_construct, isVoid_sequence, completes, mayReturn] at ihBody ihFinal ⊢
      rcases ihBody with h | h | h
      · cases h
      · rcases ihFinal with h' | h' | h' <;> simp_all
      · simp [h]
  | noCase => exact .inl rfl
  | case kind d test body rest ihBody ihRest =>
      simp only [isVoid_sequence, completes, mayReturn] at ihBody ⊢
      rcases ihBody with h | h | h <;> simp_all
  | noHandler => exact .inl rfl
  | «catch» kind d body ih =>
      simp only [isVoid_sequence, completes, mayReturn] at ih ⊢
      exact .inr (ih.resolve_left (by simp))
  | absent => exact .inr (.inl rfl)
  | leaf => exact .inr (.inl rfl)
  | ternary => exact .inr (.inl rfl)

/-- Control that cannot go on after some statements may leave the function in them; it does not get
lost. -/
theorem mayReturn_of_not_completes {o : Outline .sequence} (ho : o.completes = false) :
    o.mayReturn = true := by
  simpa [ho] using completes_or_mayReturn o

/-- Control goes on after what adds nothing. -/
theorem completes_of_blank {p : Part} {o : Outline p} (ho : o.blank = true) :
    o.completes = true := by
  induction o with
  | done | absent => rfl
  | step line construct rest ihConstruct ihRest =>
      simp only [blank, Bool.and_eq_true] at ho
      simp only [completes, ihConstruct ho.1, ihRest ho.2, Bool.and_self]
  | nested inner ih => exact ih ho
  | _ => cases ho

@[simp] theorem unguarded_operand (o : Outline .operand) : o.unguarded = true := by
  cases o <;> rfl

/-- Without a guarded construct, what can be passed through has no vertex. -/
theorem laid_eq_zero_of_passes {p : Part} {o : Outline p} (ho : o.unguarded = true)
    (hpasses : o.passes = true) : o.laid = 0 := by
  induction o with
  | done | absent => rfl
  | step line construct rest ihConstruct ihRest =>
      simp only [unguarded, all, Bool.and_eq_true] at ho
      simp only [passes, Bool.and_eq_true] at hpasses
      simp [laid, ihConstruct ho.1 hpasses.1, ihRest ho.2 hpasses.2]
  | nested inner ih =>
      simp only [unguarded, all, Bool.and_eq_true] at ho
      exact ih ho.2 hpasses
  | guarded => cases ho
  | _ => cases hpasses

/-- A fragment is as its outline foretells. -/
structure Foretells {p : Part} (o : Outline p) (f : Fragment) : Prop where
  length : f.vertices.length = o.laid
  ends : f.ends = [] ↔ o.completes = false
  returned : f.returned = [] ↔ o.mayReturn = false
  idle : f.idle = o.blank

namespace Foretells

variable {text : Range → String} {next : Nat} {entry : List Exit} {f g y n b h c : Fragment}

/-- A construct and what follows it: if control does not go on after the construct, nothing is laid
down for the rest. -/
theorem step {line : Int} {construct : Outline .construct} {rest : Outline .sequence}
    (hf : construct.Foretells f) (hrest : f.ends ≠ [] → rest.Foretells g)
    (hskip : f.ends = [] → g = .pass []) :
    (Outline.step line construct rest).Foretells (f.andThen g) := by
  by_cases hends : f.ends = []
  · have hcompletes := hf.ends.mp hends
    have hblank : construct.blank = false := by
      cases hblank : construct.blank with
      | false => rfl
      | true => rw [completes_of_blank hblank] at hcompletes; cases hcompletes
    -- Nothing leads to the rest, and the outline counts nothing of it.
    obtain rfl := hskip hends
    exact
      { length := by simp [Fragment.pass, laid, hf.length, hcompletes]
        ends := by simp [Fragment.andThen, Fragment.pass, completes, hcompletes]
        returned := by simp [Fragment.andThen, Fragment.pass, mayReturn, hcompletes, hf.returned]
        idle := by simp [Fragment.andThen, blank, hf.idle, hblank] }
  · have hcompletes : construct.completes = true := by
      simpa using hf.ends.not.mp hends
    have hg := hrest hends
    exact
      { length := by simp [laid, hf.length, hg.length, hcompletes]
        ends := by simp [Fragment.andThen, completes, hcompletes, hg.ends]
        returned := by simp [Fragment.andThen, mayReturn, hcompletes, hf.returned, hg.returned]
        idle := by simp [Fragment.andThen, blank, hf.idle, hg.idle] }

/-- A straight run and what follows it: nothing does if the run leaves the function. -/
theorem run {r : Run} {rest : Outline .sequence}
    (hrest : r.returns = false → rest.Foretells g) (hskip : r.returns = true → g = .pass []) :
    (Outline.run r rest).Foretells ((runFragment text r next entry).andThen g) := by
  cases hreturns : r.returns with
  | true =>
      obtain rfl := hskip hreturns
      exact
        { length := by simp [Fragment.pass, laid, hreturns]
          ends := by simp [Fragment.andThen, Fragment.pass, completes, hreturns]
          returned := by
            simp [Fragment.andThen, runFragment, Fragment.leaving, mayReturn, hreturns]
          idle := by simp [Fragment.andThen, blank] }
  | false =>
      have hg := hrest hreturns
      exact
        { length := by simp [laid, hg.length, hreturns]
          ends := by simp [Fragment.andThen, completes, hreturns, hg.ends]
          returned := by
            simp [Fragment.andThen, runFragment, Fragment.vertex, mayReturn, hreturns, hg.returned]
          idle := by simp [Fragment.andThen, blank] }

/-- A branch goes on where one of its sides does, and may leave the function in either. -/
theorem branch {d : Decision} {yes no : Outline .sequence} {v : Vertex}
    (hy : yes.Foretells y) (hn : no.Foretells n) :
    (Outline.branch d yes no).Foretells ((Fragment.vertex next v entry).fork y n) where
  length := by simp [laid, hy.length, hn.length]
  ends := by simp [Fragment.fork, unique_eq_nil_iff, completes, hy.ends, hn.ends]
  returned := by simp [Fragment.fork, mayReturn, hy.returned, hn.returned]
  idle := rfl

/-- A ternary always goes on, for its alternatives do. -/
theorem ternary {d : Decision} {yes no : Outline .operand} {v : Vertex}
    (hy : yes.Foretells y) (hn : no.Foretells n) :
    (Outline.ternary d yes no).Foretells ((Fragment.vertex next v entry).fork y n) where
  length := by simp [laid, hy.length, hn.length]
  ends := by simp [Fragment.fork, unique_eq_nil_iff, completes, hy.ends]
  returned := by simp [Fragment.fork, mayReturn, hy.returned, hn.returned]
  idle := rfl

theorem choice {d : Decision} {yes no : Outline .operand} {v : Vertex}
    (hy : yes.Foretells y) (hn : no.Foretells n) :
    (Outline.choice d yes no).Foretells ((Fragment.vertex next v entry).fork y n) :=
  have h : (Outline.ternary d yes no).Foretells ((Fragment.vertex next v entry).fork y n) :=
    hy.ternary hn
  ⟨h.length, h.ends, h.returned, h.idle⟩

/-- A multiway branch goes on where a case does, or past all of them if each has a test. -/
theorem switch {d : Decision} {cases : Outline .cases} {v : Vertex} (hc : cases.Foretells c) :
    (Outline.switch d cases).Foretells
      ((Fragment.vertex next v entry).select c (switchEnds cases next)) where
  length := by simp [laid, hc.length]
  ends := by
    cases htested : cases.allTested <;>
      simp [Fragment.select, unique_eq_nil_iff, switchEnds, completes, hc.ends, htested]
  returned := by simp [Fragment.select, mayReturn, hc.returned]
  idle := rfl

/-- A case and the later ones: what the whole does, one of them does. -/
theorem case {kind : Kind} {d : Decision} {test : Option Range} {body : Outline .sequence}
    {rest : Outline .cases} {v : Vertex} (hb : body.Foretells b) (hg : rest.Foretells g) :
    (Outline.case kind d test body rest).Foretells
      (((Fragment.vertex next v entry).andThen b).alongside g) where
  length := by simp [laid, hb.length, hg.length]
  ends := by simp [Fragment.alongside, Fragment.andThen, completes, hb.ends, hg.ends]
  returned := by
    simp [Fragment.alongside, Fragment.andThen, Fragment.vertex, mayReturn, hb.returned,
      hg.returned]
  idle := rfl

/-- A handler that is there does what its body does. -/
theorem caught {kind : Kind} {d : Decision} {body : Outline .sequence} {v : Vertex}
    (hb : body.Foretells b) :
    (Outline.catch kind d body).Foretells ((Fragment.vertex next v entry).andThen b) where
  length := by simp [laid, hb.length]
  ends := by simp [Fragment.andThen, completes, hb.ends]
  returned := by simp [Fragment.andThen, Fragment.vertex, mayReturn, hb.returned]
  idle := rfl

/-- Control goes on after a guarded block if it goes on after the block or after its handler. -/
theorem ends_protect {body : Outline .sequence} {handler : Outline .handler}
    (hb : body.Foretells b) (hh : handler.Foretells h) :
    (b.protect h).ends = [] ↔ (body.completes || handler.completes) = false := by
  simp [Fragment.protect, unique_eq_nil_iff, hb.ends, hh.ends]

/-- The function is left in a guarded block if it is left in the block or in its handler. -/
theorem returned_protect {body : Outline .sequence} {handler : Outline .handler}
    (hb : body.Foretells b) (hh : handler.Foretells h) :
    (b.protect h).returned = [] ↔ (body.mayReturn || handler.mayReturn) = false := by
  simp [Fragment.protect, hb.returned, hh.returned]

/-- Without an end, a protected part leaves the function in its body. -/
theorem mayReturn_of_ends_protect {body : Outline .sequence} {handler : Outline .handler}
    (hb : body.Foretells b) (hh : handler.Foretells h) (hends : (b.protect h).ends = []) :
    body.mayReturn = true := by
  have hcompletes := (ends_protect hb hh).mp hends
  rw [Bool.or_eq_false_iff] at hcompletes
  exact mayReturn_of_not_completes hcompletes.1

/-- A final part is always entered: from the ends of what it follows, or else
from where the function is left. -/
theorem finalEntry_ne_nil {body : Outline .sequence} {handler : Outline .handler}
    (hb : body.Foretells b) (hh : handler.Foretells h) : (b.protect h).finalEntry ≠ [] := by
  by_cases hends : (b.protect h).ends = []
  · rw [Fragment.finalEntry_of_nil hends, ne_eq, List.map_eq_nil_iff, returned_protect hb hh]
    simp [mayReturn_of_ends_protect hb hh hends]
  · rwa [Fragment.finalEntry_of_ne_nil hends]

/-- A sequence that was entered leaves something open. -/
theorem exists_outlet {o : Outline .sequence} (hf : o.Foretells f) :
    ∃ s, s ∈ sources f.ends ∨ s ∈ f.returned := by
  by_cases hends : f.ends = []
  · have hreturned : f.returned ≠ [] := by
      rw [ne_eq, hf.returned]
      simp [mayReturn_of_not_completes (hf.ends.mp hends)]
    obtain ⟨s, hs⟩ := List.exists_mem_of_ne_nil _ hreturned
    exact ⟨s, .inr hs⟩
  · obtain ⟨x, hx⟩ := List.exists_mem_of_ne_nil _ hends
    exact ⟨x.source, .inl (List.mem_map_of_mem hx)⟩

/-- A guarded block goes on where the block or its handler does and then the final part. The
function may be left in any of the three. -/
theorem guarded {body final : Outline .sequence} {handler : Outline .handler}
    (hb : body.Foretells b) (hh : handler.Foretells h) (hf : final.Foretells f) :
    (Outline.guarded body handler final).Foretells ((b.protect h).finish f) where
  length := by simp [laid, hb.length, hh.length, hf.length]
  ends := by
    by_cases hends : (b.protect h).ends = []
    · rw [Fragment.ends_finish_of_nil hends]
      simp [completes, (ends_protect hb hh).mp hends]
    · rw [Fragment.ends_finish_of_ne_nil hends, hf.ends]
      have hgoes := (ends_protect hb hh).not.mp hends
      simp only [Bool.not_eq_false] at hgoes
      simp [completes, hgoes]
  returned := by
    by_cases hends : (b.protect h).ends = []
    · -- The function is left at the end of the final part, which has an outlet.
      obtain ⟨s, hs⟩ := hf.exists_outlet
      have hmem := (Fragment.mem_returned_finish_of_nil hends).mpr hs.symm
      constructor
      · intro hnil
        rw [hnil] at hmem
        cases hmem
      · intro hfalse
        simp [mayReturn, mayReturn_of_ends_protect hb hh hends] at hfalse
    · rw [Fragment.returned_finish_of_ne_nil hends, List.append_eq_nil_iff,
        returned_protect hb hh, hf.returned]
      simp [mayReturn]
  idle := by simp [blank]

end Foretells

variable {text : Range → String} {p : Part} {next : Nat} {entry : List Exit} {f : Fragment}

/-- A handler around what has been entered can be entered itself. -/
theorem Emits.entered_ne_nil {o : Outline p} (hf : Emits text o next entry f)
    (hentry : entry ≠ []) : f.entered ≠ [] := by
  intro hnil
  have hcovers := hf.placed.covers
  rw [hnil, sources_nil, List.subset_nil, sources_eq_nil_iff] at hcovers
  exact hentry hcovers

/-- What is laid down from at least one exit is as the outline foretells. -/
theorem Emits.foretells {o : Outline p} (hf : Emits text o next entry f) (hentry : entry ≠ []) :
    o.Foretells f := by
  induction hf with
  | done | absent => exact ⟨rfl, by simpa [Fragment.pass, completes] using hentry, by
      simp [Fragment.pass, mayReturn], rfl⟩
  | unreached => exact absurd rfl hentry
  | @run r rest next entry g _ hrest ih =>
      apply Foretells.run
      · intro hreturns
        exact ih (by simp [runFragment, hreturns, Fragment.vertex])
      · intro hreturns
        exact hrest.eq_pass_of_returns hreturns
  | step _ _ hrest ihFirst ihRest =>
      exact (ihFirst hentry).step ihRest fun hends => (hends ▸ hrest).eq_pass_of_nil
  | nested _ ih =>
      obtain ⟨hlength, hends, hreturned, hidle⟩ := ih hentry
      exact ⟨hlength, hends, hreturned, hidle⟩
  | branch _ _ ihYes ihNo => exact (ihYes (by simp)).branch (ihNo (by simp))
  | loop _ ih =>
      have hb := ih (by simp)
      exact ⟨by simp [decisionFragment, laid, hb.length], by simp [Fragment.cycle, completes],
        by simp [Fragment.cycle, mayReturn, hb.returned], rfl⟩
  | choice _ _ ihYes ihNo => exact (ihYes (by simp)).choice (ihNo (by simp))
  | switch _ ih => exact (ih (by simp)).switch
  | guarded hbody _ _ ihBody ihHandler ihFinal =>
      have hb := ihBody hentry
      have hh := ihHandler (hbody.entered_ne_nil hentry)
      exact hb.guarded hh (ihFinal (hb.finalEntry_ne_nil hh))
  | noCase | noHandler => exact ⟨rfl, by simp [Fragment.nothing, completes], by
      simp [Fragment.nothing, mayReturn], rfl⟩
  | case _ _ _ ihBody ihRest => exact (ihBody (by simp)).case (ihRest hentry)
  | «catch» _ _ ih => exact (ih (by simp)).caught
  | leaf => exact ⟨rfl, by simp [Fragment.vertex, completes], by
      simp [Fragment.vertex, mayReturn], rfl⟩
  | ternary _ _ ihYes ihNo => exact (ihYes (by simp)).ternary (ihNo (by simp))

/-! ## Passing through -/

/-- Exits that lead to a part which can be passed through are still open after it. -/
theorem Emits.ends_of_passes {o : Outline p} (hf : Emits text o next entry f)
    (hpasses : o.passes = true) : entry ⊆ f.ends := by
  induction hf with
  | done | absent | unreached => exact List.Subset.refl _
  | step _ _ _ ihFirst ihRest =>
      simp only [passes, Bool.and_eq_true] at hpasses
      exact List.Subset.trans (ihFirst hpasses.1) (ihRest hpasses.2)
  | nested _ ih => exact ih hpasses
  | @guarded body handler final next entry b h f hbody hhandler hfinal ihBody ihHandler ihFinal =>
      simp only [passes, Bool.and_eq_true] at hpasses
      have hprotect : entry ⊆ (b.protect h).ends := by
        intro x hx
        exact mem_unique.mpr (List.mem_append_left _ (ihBody hpasses.1 hx))
      intro x hx
      have hends : (b.protect h).ends ≠ [] := List.ne_nil_of_mem (hprotect hx)
      rw [Fragment.ends_finish_of_ne_nil hends]
      apply ihFinal hpasses.2
      rw [Fragment.finalEntry_of_ne_nil hends]
      exact hprotect hx
  | _ => cases hpasses

@[simp] theorem passes_handler (o : Outline .handler) : o.passes = false := by
  cases o <;> rfl

@[simp] theorem passes_cases (o : Outline .cases) : o.passes = false := by
  cases o <;> rfl

/-- Where control cannot slip through a part, every end is a vertex of it. -/
theorem Emits.owns_ends_of_not_passes {o : Outline p} (hf : Emits text o next entry f)
    (hentry : entry ≠ []) (hpasses : o.passes = false) :
    ∀ s ∈ sources f.ends, f.Owns next s := by
  induction hf with
  | done | absent => cases hpasses
  | unreached => exact absurd rfl hentry
  | @run r _ _ _ _ _ hrest _ =>
      refine Fragment.Placed.owns_ends_andThen (owns_ends_runFragment r) ?_
      rw [length_runFragment]
      exact hrest.placed
  | @step line construct rest next entry f g _ hfirst hrest ihFirst ihRest =>
      cases hconstruct : construct.passes with
      | false => exact hrest.placed.owns_ends_andThen (ihFirst hentry hconstruct)
      | true =>
          have hends : f.ends ≠ [] := by
            obtain ⟨x, hx⟩ := List.exists_mem_of_ne_nil _ hentry
            exact List.ne_nil_of_mem (hfirst.ends_of_passes hconstruct hx)
          simp only [passes, hconstruct, Bool.true_and] at hpasses
          intro s hs
          exact Fragment.owns_andThen.mpr (.inr (ihRest hends hpasses s hs))
  | nested _ ih => exact ih hentry hpasses
  | branch hyes hno => exact hyes.placed.owns_ends_fork hno.placed
  | loop => exact Fragment.owns_ends_cycle
  | choice hyes hno => exact hyes.placed.owns_ends_fork hno.placed
  | switch hcases => exact hcases.placed.owns_ends_select fun s => mem_sources_switchEnds
  | @guarded body handler final next entry b h f hbody hhandler hfinal ihBody ihHandler ihFinal =>
      have hb := hbody.foretells hentry
      have hentered := hbody.entered_ne_nil hentry
      have hh := hhandler.foretells hentered
      intro s hs
      have hends : (b.protect h).ends ≠ [] := by
        intro hnil
        rw [Fragment.ends_finish_of_nil hnil] at hs
        cases hs
      rw [Fragment.ends_finish_of_ne_nil hends] at hs
      rw [Fragment.owns_finish]
      cases hfinalPasses : final.passes with
      | false => exact .inr (ihFinal (hb.finalEntry_ne_nil hh) hfinalPasses s hs)
      | true =>
          have hbodyPasses : body.passes = false := by simpa [passes, hfinalPasses] using hpasses
          refine (hfinal.placed.ends s hs).imp_left fun hs => ?_
          rw [Fragment.finalEntry_of_ne_nil hends, Fragment.mem_ends_protect] at hs
          exact Fragment.owns_protect.mpr (hs.imp (ihBody hentry hbodyPasses s)
            (ihHandler hentered (passes_handler handler) s))
  | noCase | noHandler => simp [Fragment.nothing]
  | @case kind caption d test body rest next entry b r _ hbody _ _ ihRest =>
      intro s hs
      rw [Fragment.mem_ends_alongside] at hs
      rw [Fragment.owns_alongside]
      rcases hs with hs | hs
      · exact .inl (hbody.placed.owns_ends_andThen Fragment.owns_ends_vertex s hs)
      · rw [Fragment.length_andThen, ← Nat.add_assoc]
        exact .inr (ihRest hentry (passes_cases rest) s hs)
  | «catch» _ hbody _ => exact hbody.placed.owns_ends_andThen Fragment.owns_ends_vertex
  | leaf => exact Fragment.owns_ends_vertex
  | ternary hyes hno => exact hyes.placed.owns_ends_fork hno.placed

end Outline

end Cyclomatic
