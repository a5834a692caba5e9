import Cyclomatic.Proofs.Flow.Ledger
import Cyclomatic.Proofs.Tree.Reached
import Cyclomatic.Proofs.Tree.Sketch

/-! # Which statements can complete

Whether control can go on after a statement is told from the tree alone. When a
graph is drawn, a list of statements leaves exits open exactly if it can
complete; and if it cannot, the function has been left somewhere in it.
-/

namespace Cyclomatic

namespace Tree

open Outline

mutual

/-- Whether control can go on after a statement. -/
def canComplete : Tree → Bool
  | .node head _ q a b h f _ ss cs _ =>
      match head.kind with
      | .block => canCompleteAll ss
      | .branch => a.isNone || canCompleteBody q || canCompleteBody a
      | .whileLoop | .doLoop | .forLoop | .ternary => true
      | .switch => cs.all (·.condition.isSome) || canCompleteCase cs
      | .guarded => (canCompleteBody b || canCompleteHandler h) && canCompleteBody f
      | _ => !head.exits

/-- Whether every statement of a list can complete. -/
def canCompleteAll : List Tree → Bool
  | [] => true
  | t :: ts => t.canComplete && canCompleteAll ts

/-- A branch, body or final part can complete if it is missing. -/
def canCompleteBody : Option Tree → Bool
  | none => true
  | some t => t.canComplete

/-- Whether the statements of some case can complete. -/
def canCompleteCase : List Tree → Bool
  | [] => false
  | .node _ _ _ _ _ _ _ _ ss _ _ :: rest => canCompleteAll ss || canCompleteCase rest

def canCompleteHandler : Option Tree → Bool
  | none => false
  | some (.node _ _ _ _ b _ _ _ _ _ _) => canCompleteBody b

end

theorem completes_nil : (ofStatements none []).completes = true := by
  rw [ofStatements_nil]
  rfl

/-- Control goes on after a loop, whatever its body does. -/
theorem completes_loop {t : Tree}
    (hkind : t.kind = .whileLoop ∨ t.kind = .doLoop ∨ t.kind = .forLoop) :
    (ofStatements none [t]).completes = true := by
  obtain ⟨style, hcaption⟩ := exists_loop_caption hkind
  rw [completes_singleton (.loop hcaption)]
  rfl

/-- A straight-line statement, or one that is a ternary and nothing else. -/
theorem completes_plain {t : Tree}
    (hopens : t.isStraight = false → t.head.exits = false ∧ ∃ u, t.choice? = some u) :
    (ofStatements none [t]).completes = !t.head.exits := by
  cases ht : t.isStraight with
  | true => rw [completes_straight ht, completes_nil, Bool.and_true]
  | false =>
      obtain ⟨hexits, u, hchoice⟩ := hopens ht
      rw [completes_singleton (.choice hchoice), hexits]
      rfl

/-- A statement that is all a ternary leaves no function. -/
theorem exits_of_choice? {t u : Tree} (hkind : t.kind = .plain) (hchoice : t.choice? = some u) :
    t.head.exits = false := by
  unfold choice? at hchoice
  rw [hkind] at hchoice
  simp only at hchoice
  split at hchoice
  next =>
    split at hchoice
    next hu => exact hu.1
    next => cases hchoice
  next => cases hchoice

/-- Whether a statement can complete, by its kind and its slots. -/
theorem canComplete_def (t : Tree) : t.canComplete =
    match t.kind with
    | .block => canCompleteAll t.statements
    | .branch => t.alternate.isNone || canCompleteBody t.consequent || canCompleteBody t.alternate
    | .whileLoop | .doLoop | .forLoop | .ternary => true
    | .switch => t.cases.all (·.condition.isSome) || canCompleteCase t.cases
    | .guarded => (canCompleteBody t.body || canCompleteHandler t.handler) &&
        canCompleteBody t.finalizer
    | _ => !t.head.exits := by
  obtain ⟨head, c, q, a, b, h, f, v, ss, cs, os⟩ := t
  rw [canComplete]
  rfl

/-- Whether the outline of a body says that control can go on after it. -/
def bodyCompletes (o : Option Tree) : Bool := (ofStatements none (asStatements o)).completes

theorem bodyCompletes_none : bodyCompletes none = true := completes_nil

/-- A statement can complete as its outline says if its parts do. -/
theorem canComplete_of_parts {t : Tree}
    (hblock : canCompleteAll t.statements = (ofStatements none t.statements).completes)
    (hyes : canCompleteBody t.consequent = bodyCompletes t.consequent)
    (hno : canCompleteBody t.alternate = bodyCompletes t.alternate)
    (hcases : canCompleteCase t.cases = (ofCases t.cases).completes)
    (hbody : canCompleteBody t.body = bodyCompletes t.body)
    (hhandler : canCompleteHandler t.handler = (ofHandler t.handler).completes)
    (hfinal : canCompleteBody t.finalizer = bodyCompletes t.finalizer) :
    t.canComplete = (ofStatements none [t]).completes := by
  rw [canComplete_def]
  split
  next hkind => rw [completes_singleton (.block hkind), hblock]; rfl
  next hkind =>
    rw [completes_singleton (.branch hkind), hyes, hno]
    cases t.alternate with
    | none => simp [Outline.completes, asStatements, completes_nil]
    | some u => rfl
  next hkind => exact (completes_loop (.inl hkind)).symm
  next hkind => exact (completes_loop (.inr (.inl hkind))).symm
  next hkind => exact (completes_loop (.inr (.inr hkind))).symm
  next hkind =>
    have hchoice : t.choice? = some t := by rw [choice?, hkind]
    rw [completes_singleton (.choice hchoice)]
    rfl
  next hkind =>
    have htested : t.cases.all (·.condition.isSome) = allTested (ofCases t.cases) := by
      rw [Bool.eq_iff_iff, List.all_eq_true, allTested_ofCases]
    rw [completes_singleton (.switch hkind), htested, hcases]
    rfl
  next hkind =>
    rw [completes_singleton (.guarded hkind), hbody, hhandler, hfinal, ofBody_eq, ofBody_eq]
    rfl
  next hnotBlock hnotBranch hnotWhile hnotDo hnotFor hnotTernary hnotSwitch hnotGuarded =>
    refine (completes_plain fun hopens => ?_).symm
    obtain ⟨c, hc⟩ := isStraight_eq_false_iff.mp hopens
    cases ofStatement?_eq_some_iff.mp hc with
    | block hkind => exact absurd hkind hnotBlock
    | branch hkind => exact absurd hkind hnotBranch
    | loop hcaption =>
        rcases kind_of_loop_caption hcaption with ⟨hkind, _⟩ | ⟨hkind, _⟩ | ⟨hkind, _⟩
        · exact absurd hkind hnotWhile
        · exact absurd hkind hnotDo
        · exact absurd hkind hnotFor
    | switch hkind => exact absurd hkind hnotSwitch
    | guarded hkind => exact absurd hkind hnotGuarded
    | choice hchoice =>
        rcases choice?_of_kind hchoice with hkind | hkind
        · exact absurd hkind hnotTernary
        · exact ⟨exits_of_choice? hkind hchoice, _, hchoice⟩

mutual

/-- A statement can complete exactly if its outline says so. The five equations follow the
recursion of the definitions, through statements, lists, bodies, cases and handlers. -/
theorem canComplete_eq : ∀ t : Tree, t.canComplete = (ofStatements none [t]).completes
  | .node _ _ q a b h f _ ss cs _ =>
      canComplete_of_parts (canCompleteAll_eq ss) (canCompleteBody_eq q) (canCompleteBody_eq a)
        (canCompleteCase_eq cs) (canCompleteBody_eq b) (canCompleteHandler_eq h)
        (canCompleteBody_eq f)

theorem canCompleteAll_eq : ∀ ts : List Tree,
    canCompleteAll ts = (ofStatements none ts).completes
  | [] => by rw [canCompleteAll, completes_nil]
  | t :: ts => by rw [canCompleteAll, completes_cons, canComplete_eq t, canCompleteAll_eq ts]

theorem canCompleteBody_eq : ∀ o : Option Tree,
    canCompleteBody o = bodyCompletes o
  | none => by rw [canCompleteBody, bodyCompletes_none]
  | some t => by
      rw [canCompleteBody, bodyCompletes, asStatements, canComplete_eq t]
      split
      next hkind => rw [completes_singleton (.block hkind)]; rfl
      next => rfl

theorem canCompleteCase_eq : ∀ ts : List Tree, canCompleteCase ts = (ofCases ts).completes
  | [] => by rw [canCompleteCase, ofCases]; rfl
  | .node head c q a b h f v ss cs os :: rest => by
      rw [canCompleteCase, ofCases, canCompleteAll_eq ss, canCompleteCase_eq rest]
      rfl

theorem canCompleteHandler_eq : ∀ o : Option Tree,
    canCompleteHandler o = (ofHandler o).completes
  | none => by rw [canCompleteHandler, ofHandler]; rfl
  | some (.node head c q a b h f v ss cs os) => by
      rw [canCompleteHandler, ofHandler, canCompleteBody_eq b, ofBody_eq]
      rfl

end

/-- Every statement of a list can complete exactly if control can fall through the list. -/
theorem canCompleteAll_iff_fallsThrough {ts : List Tree} :
    canCompleteAll ts = true ↔ FallsThrough ts := by
  rw [canCompleteAll_eq, fallsThrough_iff]

instance (ts : List Tree) : Decidable (FallsThrough ts) :=
  decidable_of_iff _ canCompleteAll_iff_fallsThrough

/-! ## The sequences that are drawn -/

/-- What is inside some cases is the list of one of them, or inside that list. -/
theorem inside_ofCases {cs : List Tree} {q : Outline .sequence} (hq : q ∈ (ofCases cs).inside) :
    ∃ c ∈ cs, q = ofStatements none c.statements ∨
      q ∈ (ofStatements none c.statements).inside := by
  induction cs with
  | nil =>
      rw [ofCases] at hq
      cases hq
  | cons c cs ih =>
      rw [ofCases_cons] at hq
      rcases List.mem_append.mp hq with hq | hq
      · exact ⟨c, List.mem_cons_self, List.mem_cons.mp hq⟩
      · obtain ⟨c', hc', hq⟩ := ih hq
        exact ⟨c', List.mem_cons_of_mem c hc', hq⟩

/-- What is drawn inside a construct is a part of its statement, or is drawn inside one. -/
theorem inside_of_opens {t : Tree} {c : Outline .construct} (hopens : Opens t c)
    {q : Outline .sequence} (hq : q ∈ c.inside) :
    ∃ us ∈ t.parts, q = ofStatements none us ∨ q ∈ (ofStatements none us).inside := by
  unfold parts
  cases hopens with
  | block hkind =>
      rw [hkind]
      exact ⟨_, List.mem_singleton.mpr rfl, List.mem_cons.mp hq⟩
  | branch hkind =>
      rw [hkind]
      rcases List.mem_append.mp hq with hq | hq
      · exact ⟨_, by simp, List.mem_cons.mp hq⟩
      · exact ⟨asStatements t.alternate, by simp, List.mem_cons.mp hq⟩
  | loop hcaption =>
      refine ⟨asStatements t.body, ?_, List.mem_cons.mp hq⟩
      rcases kind_of_loop_caption hcaption with ⟨hkind, _⟩ | ⟨hkind, _⟩ | ⟨hkind, _⟩ <;>
        simp [hkind]
  | choice => cases hq
  | switch hkind =>
      rw [hkind]
      obtain ⟨c, hc, hq⟩ := inside_ofCases hq
      exact ⟨c.statements, List.mem_map_of_mem hc, hq⟩
  | guarded hkind =>
      rw [hkind]
      rw [ofBody_eq, ofBody_eq] at hq
      rcases List.mem_append.mp hq with hq | hq
      · rcases List.mem_append.mp hq with hq | hq
        · exact ⟨asStatements t.body, by simp, List.mem_cons.mp hq⟩
        · cases hhandler : t.handler with
          | none =>
              rw [hhandler, ofHandler] at hq
              cases hq
          | some h =>
              rw [hhandler, ofHandler_some] at hq
              exact ⟨asStatements h.body, by simp, List.mem_cons.mp hq⟩
      · exact ⟨asStatements t.finalizer, by simp, List.mem_cons.mp hq⟩

namespace Remainder

variable {root : List Tree} {r : Remainder} {q : Outline .sequence}

/-- What is drawn inside a list that control comes to is a list that control comes to. -/
theorem Valid.reached_of_inside (hr : Valid root r)
    (hq : q ∈ (ofStatements none r.ahead).inside) :
    ∃ a us, Reached root a us ∧ q = ofStatements none us := by
  induction r using descent.induct with
  | hnext r ih =>
      cases hahead : r.ahead with
      | nil =>
          rw [hahead, ofStatements_nil] at hq
          cases hq
      | cons t ts =>
          have hpast (hfront : (ofStatements none (front r.ahead)).completes = true)
              (hq : q ∈ (ofStatements none (behind r.ahead)).inside) :=
            have hne : r.ahead ≠ [] := by simp [hahead]
            ih r.past (past_mem_next hne hfront) (hr.past hne hfront) hq
          rcases front_cases t ts with ⟨ht, hfront⟩ | ⟨more, returns, hfront, hrun⟩
          · obtain ⟨c, hc⟩ := isStraight_eq_false_iff.mp ht
            have hopens := ofStatement?_eq_some_iff.mp hc
            rw [hahead, ofStatements_cons_construct hc] at hq
            rcases List.mem_append.mp hq with hq | hq
            · obtain ⟨us, hus, hq⟩ := inside_of_opens hopens hq
              obtain ⟨k, hk⟩ := List.mem_iff_getElem?.mp hus
              have hnext := mem_next_of_part hahead hk
              rcases hq with rfl | hq
              · exact ⟨_, us, (hr.next hnext).reached, rfl⟩
              · exact ih _ hnext (hr.next hnext) hq
            · split at hq
              next hcompletes =>
                refine hpast ?_ ?_
                · rw [hahead, hfront, completes_singleton hopens, hcompletes]
                · rwa [hahead, behind, hfront]
              next => cases hq
          · obtain ⟨count, hrunOutline⟩ := ofStatements_front hfront hrun
            rw [hahead, hrunOutline] at hq
            cases returns with
            | true => cases hq
            | false =>
                refine hpast ?_ ?_
                · rw [hahead, hfront, completes_isRun hrun]
                  rfl
                · rwa [hahead]

end Remainder

end Tree

namespace Flow.Drawing

open Cyclomatic.Tree Outline

/-- Every list of statements that is drawn is one that control comes to. It has exits that lead to
it; it leaves exits open if and only if it can complete; if it cannot, the function has been left
in it; and what was in the ledger stays there, each vertex once. -/
theorem sequences_complete_iff (source : Bytes) (t : Tree) :
    (ofFunction source t).graph = Graph.ofFunction source t ∧
      ∀ c ∈ (ofFunction source t).sequences, ∃ a us,
        Reached (asStatements t.body) a us ∧ c.outline = ofStatements none us ∧
        c.entry ≠ [] ∧ (c.ends ≠ [] ↔ canCompleteAll us = true) ∧
        (c.ends = [] → c.before.length < c.after.length) ∧ c.before <+: c.after ∧
        c.after.Nodup := by
  have hknown : ∀ q ∈ Outline.ofFunction t :: (Outline.ofFunction t).inside,
      ∃ a us, Reached (asStatements t.body) a us ∧ q = ofStatements none us := by
    rw [Outline.ofFunction, ofBody_eq]
    refine List.forall_mem_cons.mpr ⟨⟨[], _, .root, rfl⟩, fun q hq => ?_⟩
    exact (Remainder.Valid.whole .root).reached_of_inside hq
  obtain ⟨hgraph, hsound⟩ := ofFunction_sound source t hknown
  refine ⟨hgraph, fun c hc => ?_⟩
  have hc := hsound c hc
  obtain ⟨a, us, hus, houtline⟩ := hc.outline
  refine ⟨a, us, hus, houtline, hc.entry, ?_, hc.left, hc.kept, hc.nodup⟩
  rw [ne_eq, hc.ends, houtline, canCompleteAll_eq]
  simp

/-- A loop whose guarded body leaves the function, through a final part that does not. -/
def guardInLoop : Tree :=
  Sketch.function
    [Sketch.loop [Sketch.guarded [Sketch.leave] none (some [Sketch.statement])], Sketch.statement]

/-- The body of the loop cannot complete: the function is left at its final part, and no longer at
the statement that is guarded. -/
theorem guardInLoop_sequences :
    ∃ c ∈ (ofFunction [] guardInLoop).sequences, c.entry = [⟨1, trueLabel⟩] ∧ c.ends = [] ∧
      c.before = [] ∧ c.after = [3] ∧
      ∃ a us, Reached (asStatements guardInLoop.body) a us ∧ c.outline = ofStatements none us ∧
        canCompleteAll us = false := by
  have hsome : (ofFunction [] guardInLoop).sequences[2]? = some _ := rfl
  have hmem := List.mem_of_getElem? hsome
  obtain ⟨a, us, hus, houtline, _, hends, _⟩ := (sequences_complete_iff [] guardInLoop).2 _ hmem
  exact ⟨_, hmem, rfl, rfl, rfl, rfl, a, us, hus, houtline, by simpa using hends⟩

end Flow.Drawing

end Cyclomatic
