import Cyclomatic.Flow.Build

/-! # Emission as a relation

Laying down an outline is a computation that may fail. Its successful runs form
an inductive relation with one rule for each way a part is laid down, so that
facts about fragments are proved by induction on how a fragment came about.
-/

namespace Cyclomatic

open Cyclomatic.Flow

namespace Outline

/-- One decision vertex, entered from the given exits. -/
def decisionFragment (text : Range → String) (caption : Caption) (d : Decision) (next : Nat)
    (entry : List Exit) : Fragment :=
  .vertex next (decisionVertex text caption d) entry

/-- One straight run, which may leave the function. -/
def runFragment (text : Range → String) (r : Run) (next : Nat) (entry : List Exit) : Fragment :=
  let block := Fragment.vertex next (blockVertex text r) entry
  if r.returns then block.leaving next else block

/-- A switch has an end of its own when none of its cases need apply. -/
def switchEnds (cases : Outline .cases) (next : Nat) : List Exit :=
  if cases.allTested then [⟨next, ""⟩] else []

/-- The exits that lead to a case: those of the switch, under the case's label. -/
def caseEntry (text : Range → String) (test : Option Range) (entry : List Exit) : List Exit :=
  entry.map fun e => { e with label := caseLabel text test }

/-- How a part of an outline, entered from the given exits, came to be laid down
as a fragment. -/
inductive Emits (text : Range → String) :
    {p : Part} → Outline p → Nat → List Exit → Fragment → Prop
  | done {next entry} : Emits text .done next entry (.pass entry)
  | unreached {o : Outline .sequence} {next} : Emits text o next [] (.pass [])
  | run {r rest next entry g} (hentry : entry ≠ [])
      (hrest : Emits text rest (next + 1) (runFragment text r next entry).ends g) :
      Emits text (.run r rest) next entry ((runFragment text r next entry).andThen g)
  | step {line construct rest next entry f g} (hentry : entry ≠ [])
      (hfirst : Emits text construct next entry f)
      (hrest : Emits text rest (next + f.vertices.length) f.ends g) :
      Emits text (.step line construct rest) next entry (f.andThen g)
  | nested {inner next entry f} (hinner : Emits text inner next entry f) :
      Emits text (.nested inner) next entry f
  | branch {d yes no next entry y n} (hyes : Emits text yes (next + 1) [⟨next, trueLabel⟩] y)
      (hno : Emits text no (next + 1 + y.vertices.length) [⟨next, falseLabel⟩] n) :
      Emits text (.branch d yes no) next entry
        ((decisionFragment text .branch d next entry).fork y n)
  | loop {style d body next entry b} (hbody : Emits text body (next + 1) [⟨next, trueLabel⟩] b) :
      Emits text (.loop style d body) next entry
        ((decisionFragment text style.caption d next entry).cycle next b)
  | choice {d yes no next entry y n} (hyes : Emits text yes (next + 1) [⟨next, trueLabel⟩] y)
      (hno : Emits text no (next + 1 + y.vertices.length) [⟨next, falseLabel⟩] n) :
      Emits text (.choice d yes no) next entry
        ((decisionFragment text .ternary d next entry).fork y n)
  | switch {d cases next entry c} (hcases : Emits text cases (next + 1) [⟨next, ""⟩] c) :
      Emits text (.switch d cases) next entry
        ((decisionFragment text .switch d next entry).select c (switchEnds cases next))
  | guarded {body handler final next entry b h f} (hbody : Emits text body next entry b)
      (hhandler : Emits text handler (next + b.vertices.length) b.entered h)
      (hfinal : Emits text final (next + (b.protect h).vertices.length)
        (b.protect h).finalEntry f) :
      Emits text (.guarded body handler final) next entry ((b.protect h).finish f)
  | noCase {next entry} : Emits text .noCase next entry (.nothing entry)
  | case {kind caption d test body rest next entry b r} (hcaption : captionOf kind = .ok caption)
      (hbody : Emits text body (next + 1) [⟨next, ""⟩] b)
      (hrest : Emits text rest (next + 1 + b.vertices.length) entry r) :
      Emits text (.case kind d test body rest) next entry
        (((decisionFragment text caption d next (caseEntry text test entry)).andThen b).alongside r)
  | noHandler {next entry} : Emits text .noHandler next entry (.nothing entry)
  | catch {kind caption d body next entry b} (hcaption : captionOf kind = .ok caption)
      (hbody : Emits text body (next + 1) [⟨next, ""⟩] b) :
      Emits text (.catch kind d body) next entry
        ((decisionFragment text caption d next entry).andThen b)
  | absent {next entry} : Emits text .absent next entry (.pass entry)
  | leaf {site next entry} :
      Emits text (.leaf site) next entry (.vertex next (.operand site (text site.range)) entry)
  | ternary {d yes no next entry y n} (hyes : Emits text yes (next + 1) [⟨next, trueLabel⟩] y)
      (hno : Emits text no (next + 1 + y.vertices.length) [⟨next, falseLabel⟩] n) :
      Emits text (.ternary d yes no) next entry
        ((decisionFragment text .ternary d next entry).fork y n)

variable {text : Range → String} {p : Part} {next : Nat} {entry : List Exit} {f : Fragment}

theorem bind_eq_ok_iff {ε α β : Type} {x : Except ε α} {k : α → Except ε β} {b : β} :
    x >>= k = .ok b ↔ ∃ a, x = .ok a ∧ k a = .ok b := by
  cases x with
  | error e => simp [bind, Except.bind]
  | ok a => simp [bind, Except.bind]

/-- What was laid down was laid down by the rules. -/
theorem emits_of_emit_eq_ok {o : Outline p} (h : o.emit text next entry = .ok f) :
    Emits text o next entry f := by
  induction o generalizing next entry f with
  | done =>
      cases h
      exact .done
  | run r rest ih =>
      rw [emit] at h
      split at h
      next hempty =>
        rw [List.isEmpty_iff] at hempty
        subst hempty
        cases h
        exact .unreached
      next hentry =>
        obtain ⟨g, hg, hf⟩ := bind_eq_ok_iff.mp h
        cases hf
        exact .run (by simpa using hentry) (ih hg)
  | step line construct rest ihConstruct ihRest =>
      rw [emit] at h
      split at h
      next hempty =>
        rw [List.isEmpty_iff] at hempty
        subst hempty
        cases h
        exact .unreached
      next hentry =>
        obtain ⟨first, hfirst, h⟩ := bind_eq_ok_iff.mp h
        obtain ⟨g, hg, hf⟩ := bind_eq_ok_iff.mp h
        cases hf
        exact .step (by simpa using hentry) (ihConstruct hfirst) (ihRest hg)
  | nested inner ih =>
      rw [emit] at h
      exact .nested (ih h)
  | branch d yes no ihYes ihNo =>
      rw [emit] at h
      obtain ⟨y, hy, h⟩ := bind_eq_ok_iff.mp h
      obtain ⟨n, hn, hf⟩ := bind_eq_ok_iff.mp h
      cases hf
      exact .branch (ihYes hy) (ihNo hn)
  | loop style d body ih =>
      rw [emit] at h
      obtain ⟨b, hb, hf⟩ := bind_eq_ok_iff.mp h
      cases hf
      exact .loop (ih hb)
  | choice d yes no ihYes ihNo =>
      rw [emit] at h
      obtain ⟨y, hy, h⟩ := bind_eq_ok_iff.mp h
      obtain ⟨n, hn, hf⟩ := bind_eq_ok_iff.mp h
      cases hf
      exact .choice (ihYes hy) (ihNo hn)
  | switch d cases ih =>
      rw [emit] at h
      obtain ⟨c, hc, hf⟩ := bind_eq_ok_iff.mp h
      cases hf
      exact .switch (ih hc)
  | guarded body handler final ihBody ihHandler ihFinal =>
      rw [emit] at h
      obtain ⟨b, hb, h⟩ := bind_eq_ok_iff.mp h
      obtain ⟨handled, hh, h⟩ := bind_eq_ok_iff.mp h
      obtain ⟨last, hlast, hf⟩ := bind_eq_ok_iff.mp h
      cases hf
      exact .guarded (ihBody hb) (ihHandler hh) (ihFinal hlast)
  | noCase =>
      cases h
      exact .noCase
  | case kind d test body rest ihBody ihRest =>
      rw [emit] at h
      obtain ⟨caption, hcaption, h⟩ := bind_eq_ok_iff.mp h
      obtain ⟨b, hb, h⟩ := bind_eq_ok_iff.mp h
      obtain ⟨r, hr, hf⟩ := bind_eq_ok_iff.mp h
      cases hf
      exact .case hcaption (ihBody hb) (ihRest hr)
  | noHandler =>
      cases h
      exact .noHandler
  | «catch» kind d body ih =>
      rw [emit] at h
      obtain ⟨caption, hcaption, h⟩ := bind_eq_ok_iff.mp h
      obtain ⟨b, hb, hf⟩ := bind_eq_ok_iff.mp h
      cases hf
      exact .catch hcaption (ih hb)
  | absent =>
      cases h
      exact .absent
  | leaf site =>
      cases h
      exact .leaf
  | ternary d yes no ihYes ihNo =>
      rw [emit] at h
      obtain ⟨y, hy, h⟩ := bind_eq_ok_iff.mp h
      obtain ⟨n, hn, hf⟩ := bind_eq_ok_iff.mp h
      cases hf
      exact .ternary (ihYes hy) (ihNo hn)

/-- What the rules allow is what is laid down. -/
theorem emit_eq_ok_of_emits {o : Outline p} (h : Emits text o next entry f) :
    o.emit text next entry = .ok f := by
  induction h with
  | done => rfl
  | @unreached o next => cases o <;> rfl
  | @run r rest next entry g hentry hrest ih =>
      rw [emit, if_neg (by simpa using hentry)]
      exact bind_eq_ok_iff.mpr ⟨g, ih, rfl⟩
  | @step line construct rest next entry first g hentry hfirst hrest ihFirst ihRest =>
      rw [emit, if_neg (by simpa using hentry)]
      exact bind_eq_ok_iff.mpr ⟨first, ihFirst, bind_eq_ok_iff.mpr ⟨g, ihRest, rfl⟩⟩
  | nested hinner ih => exact ih
  | @branch d yes no next entry y n hyes hno ihYes ihNo =>
      exact bind_eq_ok_iff.mpr ⟨y, ihYes, bind_eq_ok_iff.mpr ⟨n, ihNo, rfl⟩⟩
  | @loop style d body next entry b hbody ih => exact bind_eq_ok_iff.mpr ⟨b, ih, rfl⟩
  | @choice d yes no next entry y n hyes hno ihYes ihNo =>
      exact bind_eq_ok_iff.mpr ⟨y, ihYes, bind_eq_ok_iff.mpr ⟨n, ihNo, rfl⟩⟩
  | @switch d cases next entry c hcases ih => exact bind_eq_ok_iff.mpr ⟨c, ih, rfl⟩
  | @guarded body handler final next entry b h f hbody hhandler hfinal ihBody ihHandler ihFinal =>
      exact bind_eq_ok_iff.mpr ⟨b, ihBody, bind_eq_ok_iff.mpr ⟨h, ihHandler,
        bind_eq_ok_iff.mpr ⟨f, ihFinal, rfl⟩⟩⟩
  | noCase => rfl
  | @case kind caption d test body rest next entry b r hcaption hbody hrest ihBody ihRest =>
      exact bind_eq_ok_iff.mpr ⟨caption, hcaption, bind_eq_ok_iff.mpr ⟨b, ihBody,
        bind_eq_ok_iff.mpr ⟨r, ihRest, rfl⟩⟩⟩
  | noHandler => rfl
  | @«catch» kind caption d body next entry b hcaption hbody ih =>
      exact bind_eq_ok_iff.mpr ⟨caption, hcaption, bind_eq_ok_iff.mpr ⟨b, ih, rfl⟩⟩
  | absent => rfl
  | leaf => rfl
  | @ternary d yes no next entry y n hyes hno ihYes ihNo =>
      exact bind_eq_ok_iff.mpr ⟨y, ihYes, bind_eq_ok_iff.mpr ⟨n, ihNo, rfl⟩⟩

/-- The relation is the graph of the function that lays outlines down. -/
theorem emit_eq_ok_iff {o : Outline p} :
    o.emit text next entry = .ok f ↔ Emits text o next entry f :=
  ⟨emits_of_emit_eq_ok, emit_eq_ok_of_emits⟩

/-- What no exit leads to is passed over. -/
theorem Emits.eq_pass_of_nil {o : Outline .sequence} (h : Emits text o next [] f) :
    f = .pass [] := by
  cases h with
  | done => rfl
  | unreached => rfl
  | run hentry => exact absurd rfl hentry
  | step hentry => exact absurd rfl hentry

end Outline

end Cyclomatic
