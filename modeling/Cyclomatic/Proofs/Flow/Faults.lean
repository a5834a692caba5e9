import Cyclomatic.Proofs.Flow.Marks
import Cyclomatic.Proofs.ParseTree.Slots
import Cyclomatic.Proofs.Tree.Decisions
import Cyclomatic.Proofs.Tree.Reached
import Cyclomatic.Tree.Functions

/-! # Where graphs cannot be built

A graph is not built if a case or a handler that control comes to is of a kind
without a caption, and only then. A tree that was made from a parse tree with
all its clauses in place has no such case or handler.
-/

namespace Cyclomatic

open Cyclomatic.Flow

namespace Outline

variable {text : Range → String} {p : Part} {next : Nat} {entry : List Exit}

/-! ## The first fault of an outline -/

def Notice.fault? : Notice → Option Kind
  | .skipped .. => none
  | .uncaptioned kind => some kind

/-- The kinds without a caption that come up while a part is laid down, in order. -/
def faults (o : Outline p) : List Kind := o.notices.filterMap Notice.fault?

/-- What is computed, if it can be computed, fails at the first fault. -/
def Raises {α : Type} (faults : List Kind) (x : Except Kind α) : Prop :=
  match faults with
  | [] => ∃ a, x = .ok a
  | kind :: _ => x = .error kind

/-- One thing after the other raises the first fault of the two together. What comes later raises
nothing if the first has failed. -/
theorem Raises.bind {α β : Type} {faults more : List Kind} {x : Except Kind α}
    {f : α → Except Kind β} (hx : Raises faults x) (hf : ∀ a, x = .ok a → Raises more (f a)) :
    Raises (faults ++ more) (x >>= f) := by
  cases faults with
  | nil =>
      obtain ⟨a, rfl⟩ := hx
      exact hf a rfl
  | cons kind rest =>
      obtain rfl := hx
      exact rfl

/-- To change a result changes no fault. -/
theorem Raises.map {α β : Type} {faults : List Kind} {x : Except Kind α} {f : α → β}
    (hx : Raises faults x) : Raises faults (x >>= fun a => return f a) := by
  have hbind : Raises (faults ++ []) (x >>= fun a => return f a) := hx.bind fun a _ => ⟨f a, rfl⟩
  rwa [List.append_nil] at hbind

/-- Statements that are passed over raise nothing. -/
theorem fault?_skipped (o : Outline .sequence) : o.skipped.filterMap Notice.fault? = [] := by
  cases o <;> rfl

/-- What follows a run that leaves the function raises nothing. -/
theorem faults_run (r : Run) (rest : Outline .sequence) :
    (run r rest).faults = if r.returns then [] else rest.faults := by
  change (if r.returns then rest.skipped else rest.notices).filterMap Notice.fault? = _
  split
  · exact fault?_skipped rest
  · rfl

/-- What follows a construct raises its faults only if control goes on after the construct. -/
theorem faults_step (line : Int) (construct : Outline .construct) (rest : Outline .sequence) :
    (step line construct rest).faults =
      construct.faults ++ if construct.completes then rest.faults else [] := by
  refine List.filterMap_append.trans (congrArg _ ?_)
  split
  · rfl
  · exact fault?_skipped rest

@[simp] theorem faults_nested (inner : Outline .sequence) : (nested inner).faults = inner.faults :=
  rfl

@[simp] theorem faults_loop (style : Loop) (d : Decision) (body : Outline .sequence) :
    (loop style d body).faults = body.faults :=
  rfl

@[simp] theorem faults_choice (d : Decision) (yes no : Outline .operand) :
    (choice d yes no).faults = [] :=
  rfl

@[simp] theorem faults_switch (d : Decision) (cases : Outline .cases) :
    (switch d cases).faults = cases.faults :=
  rfl

theorem faults_branch (d : Decision) (yes no : Outline .sequence) :
    (branch d yes no).faults = yes.faults ++ no.faults :=
  List.filterMap_append

/-- The faults of a guarded block, of its handler and of its final part, in this order. -/
theorem faults_guarded (body final : Outline .sequence) (handler : Outline .handler) :
    (guarded body handler final).faults = body.faults ++ (handler.faults ++ final.faults) := by
  refine List.filterMap_append.trans ?_
  rw [List.filterMap_append, List.append_assoc]
  rfl

/-- The fault of a case or a handler itself. -/
def clauseFaults (kind : Kind) : List Kind := (uncaptioned kind).filterMap Notice.fault?

/-- A clause raises its kind if that has no caption, and nothing else. -/
theorem mem_clauseFaults {kind k : Kind} :
    k ∈ clauseFaults kind ↔ kind = k ∧ Caption.ofKind? k = none := by
  unfold clauseFaults uncaptioned
  cases hkind : Caption.ofKind? kind with
  | none =>
      simp only [List.filterMap_cons, Notice.fault?, List.filterMap_nil, List.mem_singleton]
      exact ⟨fun h => ⟨h.symm, h ▸ hkind⟩, fun h => h.1.symm⟩
  | some caption =>
      refine iff_of_false (by simp) ?_
      rintro ⟨rfl, hnone⟩
      rw [hkind] at hnone
      cases hnone

/-- The faults of a case: its own, then those of its statements, then those of the later cases. -/
theorem faults_case (kind : Kind) (d : Decision) (test : Option Range) (body : Outline .sequence)
    (rest : Outline .cases) :
    (case kind d test body rest).faults = clauseFaults kind ++ (body.faults ++ rest.faults) := by
  refine List.filterMap_append.trans ?_
  rw [List.filterMap_append, List.append_assoc]
  rfl

theorem faults_catch (kind : Kind) (d : Decision) (body : Outline .sequence) :
    (Outline.catch kind d body).faults = clauseFaults kind ++ body.faults :=
  List.filterMap_append

/-- A caption is missing exactly for the kinds that count as faults. -/
theorem raises_captionOf (kind : Kind) : Raises (clauseFaults kind) (captionOf kind) := by
  unfold clauseFaults uncaptioned captionOf
  cases Caption.ofKind? kind with
  | none => exact rfl
  | some caption => exact ⟨caption, rfl⟩

theorem faults_operand (o : Outline .operand) : o.faults = [] := by
  cases o <;> rfl

/-- Where no exit leads, nothing is laid down and nothing is raised. -/
theorem emit_nil (o : Outline .sequence) : o.emit text next [] = .ok (.pass []) := by
  cases o <;> rfl

/-- Laying a part down from at least one exit fails at its first fault. -/
theorem raises_emit (o : Outline p) (hentry : entry ≠ []) :
    Raises o.faults (o.emit text next entry) := by
  induction o generalizing next entry with
  | done | noCase | noHandler | absent | leaf => exact ⟨_, rfl⟩
  | run r rest ih =>
      rw [emit, if_neg (by simpa using hentry), faults_run]
      cases hreturns : r.returns with
      | true => exact Raises.map ⟨_, emit_nil rest⟩
      | false => exact Raises.map (ih (by simp [Fragment.vertex]))
  | step line construct rest ihFirst ihRest =>
      rw [emit, if_neg (by simpa using hentry), faults_step]
      refine (ihFirst hentry).bind fun f hf => ?_
      -- The rest can fail only if something leads out of the construct.
      have hends := ((emit_eq_ok_iff.mp hf).foretells hentry).ends
      split
      next hcompletes => exact Raises.map (ihRest (by rw [ne_eq, hends]; simp [hcompletes]))
      next hstops =>
        rw [hends.mpr (eq_false_of_ne_true hstops), emit_nil]
        exact ⟨_, rfl⟩
  | nested inner ih => exact ih hentry
  | branch d yes no ihYes ihNo =>
      rw [emit, faults_branch]
      exact (ihYes (by simp)).bind fun y _ => Raises.map (ihNo (by simp))
  | loop style d body ih =>
      rw [emit]
      exact Raises.map (ih (by simp))
  | choice d yes no ihYes ihNo | ternary d yes no ihYes ihNo =>
      rw [faults_operand] at ihYes ihNo
      rw [emit]
      exact (ihYes (by simp)).bind fun y _ => Raises.map (ihNo (by simp))
  | switch d cases ih =>
      rw [emit]
      exact Raises.map (ih (by simp))
  | guarded body handler final ihBody ihHandler ihFinal =>
      rw [emit, faults_guarded]
      refine (ihBody hentry).bind fun b hb => ?_
      have hbody := emit_eq_ok_iff.mp hb
      have hentered := hbody.entered_ne_nil hentry
      -- The final part is entered even if neither the body nor the handler completes.
      refine (ihHandler hentered).bind fun h hh => Raises.map (ihFinal ?_)
      have hhandler := emit_eq_ok_iff.mp hh
      exact (hbody.foretells hentry).finalEntry_ne_nil (hhandler.foretells hentered)
  | case kind d test body rest ihBody ihRest =>
      rw [emit, faults_case]
      refine (raises_captionOf kind).bind fun caption _ => ?_
      exact (ihBody (by simp [Fragment.vertex])).bind fun b _ => Raises.map (ihRest hentry)
  | «catch» kind d body ih =>
      rw [emit, faults_catch]
      refine (raises_captionOf kind).bind fun caption _ => Raises.map (ih ?_)
      simp [Fragment.vertex]

end Outline

namespace Tree

open Outline

variable {t : Tree} {ts : List Tree} {k : Kind}

/-! ## Faults on the tree -/

/-- The cases of a multiway branch, or the handler of a guarded block. -/
def clauses (t : Tree) : List Tree :=
  match t.kind with
  | .switch => t.cases
  | .guarded => t.handler.toList
  | _ => []

/-- A case or a handler that control comes to, from statements that it falls through. -/
def ClauseReached (root : List Tree) (c : Tree) : Prop :=
  ∃ a us i t, Reached root a us ∧ us[i]? = some t ∧ FallsThrough (us.take i) ∧ c ∈ t.clauses

/-- The faults of cases come from what stands as a case, or from the statements of one. -/
theorem mem_faults_ofCases {cs : List Tree} : k ∈ (ofCases cs).faults ↔
    ∃ c ∈ cs, k ∈ clauseFaults c.kind ∨ k ∈ (ofStatements none c.statements).faults := by
  induction cs with
  | nil =>
      rw [ofCases]
      exact iff_of_false List.not_mem_nil (by simp)
  | cons c cs ih =>
      rw [ofCases_cons, faults_case, List.mem_append, List.mem_append, ih, List.exists_mem_cons_iff,
        or_assoc]

/-- The faults of a handler come from what stands as the handler, or from its body. -/
theorem mem_faults_ofHandler {h : Option Tree} : k ∈ (ofHandler h).faults ↔
    (∃ c ∈ h.toList, k ∈ clauseFaults c.kind) ∨
      k ∈ (ofStatements none (asStatements (h.bind (·.body)))).faults := by
  cases h with
  | none =>
      rw [ofHandler, Option.bind_none, asStatements, ofStatements_nil]
      exact iff_of_false List.not_mem_nil (not_or.mpr ⟨by simp, List.not_mem_nil⟩)
  | some h =>
      rw [ofHandler_some, faults_catch, List.mem_append]
      simp

/-- The faults of a construct are those of its clauses themselves and those of its parts. -/
theorem mem_faults_construct {c : Outline .construct} (hopens : Opens t c) : k ∈ c.faults ↔
    (∃ c ∈ t.clauses, k ∈ clauseFaults c.kind) ∨
      ∃ us ∈ t.parts, k ∈ (ofStatements none us).faults := by
  unfold clauses parts
  cases hopens with
  | block hkind => simp [hkind]
  | branch hkind => simp [hkind, faults_branch]
  | loop hcaption =>
      rcases kind_of_loop_caption hcaption with ⟨hkind, _⟩ | ⟨hkind, _⟩ | ⟨hkind, _⟩ <;>
        simp [hkind]
  | choice hchoice =>
      rcases choice?_of_kind hchoice with hkind | hkind <;> simp [hkind]
  | switch hkind => simp [hkind, mem_faults_ofCases, and_or_left, exists_or]
  | guarded hkind =>
      simp only [hkind, faults_guarded, ofBody_eq, List.mem_append, mem_faults_ofHandler]
      simp only [List.exists_mem_cons_iff, List.not_mem_nil, false_and, exists_false, or_false]
      rw [or_assoc, or_left_comm]

/-- Only constructs have clauses. -/
theorem clauses_eq_nil (ht : t.isStraight = true) : t.clauses = [] := by
  unfold isStraight at ht
  unfold clauses
  split at ht <;> simp_all

/-- The faults of a list are those of its front and, if control falls through that, those of what
is behind it. -/
theorem mem_faults_cons : k ∈ (ofStatements none (t :: ts)).faults ↔
    (∃ c ∈ t.clauses, k ∈ clauseFaults c.kind) ∨
    (∃ us ∈ t.parts, k ∈ (ofStatements none us).faults) ∨
    (ofStatements none (front (t :: ts))).completes = true ∧
      k ∈ (ofStatements none (behind (t :: ts))).faults := by
  rcases front_cases t ts with ⟨ht, hfront⟩ | ⟨more, returns, hfront, hrun⟩
  · obtain ⟨c, hc⟩ := isStraight_eq_false_iff.mp ht
    have hopens := ofStatement?_eq_some_iff.mp hc
    rw [ofStatements_cons_construct hc, flush, faults_step, List.mem_append,
      mem_faults_construct hopens, or_assoc, behind, hfront, completes_singleton hopens]
    cases c.completes <;> simp
  · have ht := hrun.straight t List.mem_cons_self
    obtain ⟨count, hcount⟩ := ofStatements_front hfront hrun
    rw [clauses_eq_nil ht, Remainder.parts_eq_nil ht, hfront, completes_isRun hrun, hcount,
      faults_run]
    cases returns <;> simp

namespace Remainder

/-- The faults of a list are those of the clauses that are come to from it. -/
theorem mem_faults_iff (r : Remainder) : k ∈ (ofStatements none r.ahead).faults ↔
    ∃ r' ∈ descent.walk r, ∃ t ∈ r'.ahead.head?, ∃ c ∈ t.clauses, k ∈ clauseFaults c.kind := by
  induction r using descent.induct with
  | hnext r ih =>
      have hnext : (∃ n ∈ r.next, ∃ r' ∈ descent.walk n, ∃ t ∈ r'.ahead.head?,
          ∃ c ∈ t.clauses, k ∈ clauseFaults c.kind) ↔
          k ∈ r.next.flatMap fun n => (ofStatements none n.ahead).faults := by
        rw [List.mem_flatMap]
        exact exists_congr fun n => and_congr_right fun hn => (ih n hn).symm
      rw [descent.exists_mem_walk]
      refine Iff.trans ?_ (or_congr_right hnext.symm)
      cases hahead : r.ahead with
      | nil =>
          rw [next_of_nil hahead, ofStatements_nil]
          exact iff_of_false List.not_mem_nil (by simp)
      | cons t ts =>
          rw [mem_faults_cons, flatMap_next (fun us => (ofStatements none us).faults) hahead,
            hahead, List.mem_append, List.mem_flatMap]
          simp

end Remainder

/-- The faults of a function's body are the kinds without a caption of the clauses that control
comes to. -/
theorem mem_faults_iff_reached (root : List Tree) : k ∈ (ofStatements none root).faults ↔
    ∃ c, ClauseReached root c ∧ c.kind = k ∧ Caption.ofKind? k = none := by
  refine (Remainder.mem_faults_iff (.whole [] root)).trans ⟨?_, ?_⟩
  · rintro ⟨r, hr, t, ht, c, hc, hk⟩
    have hvalid := Remainder.valid_of_mem_walk hr
    obtain ⟨ts, hahead⟩ : ∃ ts, r.ahead = t :: ts := by
      cases hcons : r.ahead with
      | nil => simp [hcons] at ht
      | cons u us => exact ⟨us, by simpa [hcons] using ht⟩
    refine ⟨c, ⟨r.address, r.before ++ r.ahead, r.before.length, t, hvalid.reached, ?_, ?_, hc⟩,
      mem_clauseFaults.mp hk⟩
    · rw [hahead, List.getElem?_append_right (Nat.le_refl _), Nat.sub_self]
      rfl
    · rw [List.take_left]
      exact hvalid.through
  · rintro ⟨c, ⟨a, us, i, t, hreached, ht, hbefore, hc⟩, hk⟩
    have hopens : t.isStraight = false := by
      cases hstraight : t.isStraight with
      | false => rfl
      | true => simp [clauses_eq_nil hstraight] at hc
    obtain ⟨r, hr, _, _, more, hahead⟩ :=
      Remainder.exists_ahead (r := .whole a us) ht hopens hbefore
    have hwalk := Remainder.descent.walk_subset (Remainder.whole_mem_walk hreached) hr
    exact ⟨r, hwalk, t, by simp [hahead], c, hc, mem_clauseFaults.mpr hk⟩

end Tree

namespace Flow.Graph

open Cyclomatic.Tree

variable {source : Bytes} {t : Tree}

/-- To draw a function raises the first fault of its body. -/
theorem raises_ofFunction : Outline.Raises (Outline.ofStatements none (asStatements t.body)).faults
    (ofFunction source t) := by
  rw [ofFunction, Outline.ofFunction, Outline.ofBody_eq]
  exact Outline.Raises.map (Outline.raises_emit _ (by simp))

/-- What a drawing fails with is a fault of the body. -/
theorem mem_faults_of_error {kind : Kind} (herror : ofFunction source t = .error kind) :
    kind ∈ (Outline.ofStatements none (asStatements t.body)).faults := by
  have hraises := @raises_ofFunction source t
  rw [herror] at hraises
  cases hfaults : (Outline.ofStatements none (asStatements t.body)).faults with
  | nil =>
      rw [hfaults] at hraises
      obtain ⟨g, hg⟩ := hraises
      cases hg
  | cons first rest =>
      rw [hfaults] at hraises
      cases hraises
      exact List.mem_cons_self

/-- A body with a fault cannot be drawn. -/
theorem exists_error_of_mem_faults {kind : Kind}
    (hkind : kind ∈ (Outline.ofStatements none (asStatements t.body)).faults) :
    ∃ first, ofFunction source t = .error first := by
  have hraises := @raises_ofFunction source t
  cases hfaults : (Outline.ofStatements none (asStatements t.body)).faults with
  | nil =>
      rw [hfaults] at hkind
      cases hkind
  | cons first rest =>
      rw [hfaults] at hraises
      exact ⟨first, hraises⟩

/-- A function whose nodes all have their clauses in place has a graph. -/
theorem exists_ofFunction_of_inPlace (hkind : t.kind = .function)
    (hplace : ∀ n ∈ t.nodes, n.ClausesInPlace) (source : Bytes) :
    ∃ g, ofFunction source t = .ok g := by
  have hagrees : Trail.Agrees [⟨t, .entered⟩] (Outline.ofFunction t) := by
    refine Trail.agrees_function hkind fun x hx _ => hplace x.node ?_
    rw [← map_node_trails]
    exact List.mem_map_of_mem hx
  obtain ⟨g, hg, _⟩ := exists_ofFunction hagrees.captioned source
  exact ⟨g, hg⟩

/-- A graph cannot be built if control comes to a case or a handler of a kind without a caption,
and only then; and it can be built for every function of a tree that is made from a parse tree
whose clauses are what the grammar has there. -/
theorem ofFunction_fails_iff (source : Bytes) :
    (∀ t : Tree,
      ((∃ kind, ofFunction source t = .error kind) ↔
        ∃ c, ClauseReached (asStatements t.body) c ∧ Caption.ofKind? c.kind = none) ∧
      ∀ kind, ofFunction source t = .error kind →
        ∃ c, ClauseReached (asStatements t.body) c ∧ c.kind = kind) ∧
    ∀ t : ParseTree, (∀ u ∈ t.nodes, u.ClausesFit) →
      ∀ v ∈ (t.normalize source).functions, ∃ g, ofFunction source v.node = .ok g := by
  refine ⟨fun t => ⟨⟨?_, ?_⟩, ?_⟩, ?_⟩
  · rintro ⟨kind, herror⟩
    obtain ⟨c, hc, rfl, hnone⟩ := (mem_faults_iff_reached _).mp (mem_faults_of_error herror)
    exact ⟨c, hc, hnone⟩
  · rintro ⟨c, hc, hnone⟩
    exact exists_error_of_mem_faults ((mem_faults_iff_reached _).mpr ⟨c, hc, rfl, hnone⟩)
  · intro kind herror
    obtain ⟨c, hc, hkind, _⟩ := (mem_faults_iff_reached _).mp (mem_faults_of_error herror)
    exact ⟨c, hc, hkind⟩
  · intro t hfit v hv
    obtain ⟨hvisit, hkind⟩ := List.mem_filter.mp hv
    have hnode : v.node ∈ (t.normalize source).nodes := List.mem_map_of_mem hvisit
    refine exists_ofFunction_of_inPlace (by simpa using hkind) (fun n hn => ?_) source
    apply ParseTree.clausesInPlace_of_fit hfit
    rw [nodes_eq_walk] at hn hnode ⊢
    exact descent.walk_subset hnode hn

/-- A multiway branch with a statement in the place of a case, behind another statement. -/
def strayCase : Tree :=
  Sketch.function [Sketch.statement,
    .ofSlots { kind := .switch, type := "switch" } { cases := [Sketch.statement] }]

theorem strayCase_fails :
    (∃ kind, ofFunction [] strayCase = .error kind) ∧
      (∀ u ∈ ParseTree.nestedStatements.nodes, u.ClausesFit) ∧
      ∀ v ∈ (ParseTree.nestedStatements.normalize []).functions,
        ∃ g, ofFunction [] v.node = .ok g := by
  have hfit : ∀ u ∈ ParseTree.nestedStatements.nodes, u.ClausesFit := by decide +kernel
  refine ⟨((ofFunction_fails_iff []).1 strayCase).1.mpr ⟨Sketch.statement, ?_, rfl⟩, hfit,
    (ofFunction_fails_iff []).2 _ hfit⟩
  exact ⟨[], _, 1, _, .root, rfl, .straight rfl rfl .nil, List.mem_singleton.mpr rfl⟩

end Flow.Graph

end Cyclomatic
