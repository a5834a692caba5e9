import Cyclomatic.Proofs.Flow.Closing
import Cyclomatic.Proofs.Flow.Inset
import Cyclomatic.Proofs.Tree.Outlining
import Cyclomatic.Proofs.Tree.Sketch

/-! # Loops

Vertices are numbered in the order they are made, and control goes from earlier
to later ones except where it goes back to a loop. It gets into the body of a
loop through the loop alone, so that every loop is met before any vertex it is
gone back to from.
-/

namespace Cyclomatic

open Cyclomatic.Flow Cyclomatic.Flow.Fragment

namespace Flow

/-- Control that enters an exit's target has come from an earlier vertex. -/
theorem forward_of_mem_connect {entry : List Exit} {next : Nat} {e : Edge}
    (hbefore : Before entry next) (he : e ∈ connect entry next) : e.source < e.target := by
  obtain ⟨hsource, htarget⟩ := mem_connect he
  rw [htarget]
  exact hbefore _ hsource

end Flow

namespace Outline

/-- A loop that is laid down, by its number, and the fragment of its body. -/
def LoopAt (text : Range → String) (root : Call) (i : Nat) (b : Fragment) : Prop :=
  ∃ style d body entry watched, Visits text root ⟨.loop style d body, i, entry, watched⟩ ∧
    Emits text body (i + 1) [⟨i, trueLabel⟩] b

/-- An edge from which a loop goes round. -/
def Closes (text : Range → String) (root : Call) (e : Edge) : Prop :=
  ∃ b, LoopAt text root e.target b ∧ e.source ∈ b.backSources ∧ e.label = loopLabel

/-- The kind of a case or a handler. -/
def clause? : {p : Part} → Outline p → Option Kind
  | _, .case kind .. => some kind
  | _, .catch kind .. => some kind
  | _, _ => none

/-- A case or a handler that is laid down under a caption. -/
def ClauseAt (text : Range → String) (root : Call) (i : Nat) (caption : Caption) : Prop :=
  ∃ c kind, Visits text root c ∧ c.next = i ∧ c.outline.clause? = some kind ∧
    Caption.ofKind? kind = some caption

variable {text : Range → String} {p : Part} {next i : Nat} {entry : List Exit} {f b : Fragment}
  {root c c' : Call} {e : Edge} {watched : Bool} {caption : Caption}

/-- What a part calls for is entered if the part is. -/
theorem Calls.live (hcall : Calls text c c') (hlive : c.Live) (hf : c.Gives text f) : c'.Live := by
  obtain ⟨_, _, hlive', _⟩ := hcall.sits hlive hf
  exact hlive'

/-- An edge that goes back inside a part goes back in all that the part belongs to. -/
theorem Closes.of_call (hcall : Calls text c c') (hcloses : Closes text c' e) :
    Closes text c e := by
  obtain ⟨b, ⟨style, d, body, entry, watched, hvisit, hbody⟩, hback⟩ := hcloses
  exact ⟨b, ⟨style, d, body, entry, watched, .head hcall hvisit, hbody⟩, hback⟩

/-- A loop inside a part is a loop of all that the part belongs to. -/
theorem LoopAt.of_call (hcall : Calls text c c') (hloop : LoopAt text c' i b) :
    LoopAt text c i b := by
  obtain ⟨style, d, body, entry, watched, hvisit, hbody⟩ := hloop
  exact ⟨style, d, body, entry, watched, .head hcall hvisit, hbody⟩

theorem ClauseAt.of_call (hcall : Calls text c c') (hclause : ClauseAt text c' i caption) :
    ClauseAt text c i caption := by
  obtain ⟨clause, kind, hvisit, hrest⟩ := hclause
  exact ⟨clause, kind, .head hcall hvisit, hrest⟩

/-! ## Edges -/

theorem before_below (next : Nat) (label : String) (n : Nat) :
    Before [⟨next, label⟩] (next + 1 + n) :=
  (before_singleton next label).mono (Nat.le_add_right _ _)

/-- A straight run has no edges but those that lead to it. -/
theorem edges_runFragment (r : Run) :
    (runFragment text r next entry).edges = connect entry next := by
  unfold runFragment
  split <;> rfl

/-- The operands of a ternary are never gone back to. -/
theorem Emits.forward_of_operand {o : Outline p} (hf : Emits text o next entry f)
    (hpart : p = .operand) (hbefore : Before entry next) : ∀ e ∈ f.edges, e.source < e.target := by
  induction hf with
  | absent => exact List.forall_mem_nil _
  | leaf =>
      intro e he
      exact forward_of_mem_connect hbefore he
  | ternary _ _ ihYes ihNo =>
      intro e he
      rcases List.mem_append.mp he with he | he
      · rcases List.mem_append.mp he with he | he
        · exact forward_of_mem_connect hbefore he
        · exact ihYes rfl (before_singleton _ _) e he
      · exact ihNo rfl (before_below _ _ _) e he
  | _ => cases hpart

/-- An edge leads to a later vertex, or it closes a loop. -/
theorem Emits.forward_or_closes {o : Outline p} (hf : Emits text o next entry f)
    (hlive : Call.Live ⟨o, next, entry, watched⟩) (he : e ∈ f.edges) :
    e.source < e.target ∨ Closes text ⟨o, next, entry, watched⟩ e := by
  induction hf generalizing watched with
  | done | absent | unreached | noCase | noHandler => cases he
  | @run r rest next entry g hentry hrest ih =>
      rcases List.mem_append.mp he with he | he
      · rw [edges_runFragment] at he
        exact .inl (forward_of_mem_connect hlive.before he)
      · cases hreturns : r.returns with
        | true =>
            rw [hrest.eq_pass_of_returns hreturns] at he
            cases he
        | false =>
            rw [ends_runFragment hreturns] at ih
            exact (ih ⟨by simp, before_singleton _ _⟩ he).imp_right
              (.of_call (.runRest hreturns))
  | @step line construct rest next entry f g hentry hfirst hrest ihFirst ihRest =>
      rcases List.mem_append.mp he with he | he
      · exact (ihFirst ⟨hentry, hlive.before⟩ he).imp_right (.of_call .stepFirst)
      · by_cases hends : f.ends = []
        · rw [hends] at hrest
          rw [hrest.eq_pass_of_nil] at he
          cases he
        · have hcall : Calls text ⟨.step line construct rest, next, entry, watched⟩ _ :=
            .stepRest (emit_eq_ok_of_emits hfirst) hends
          have hliveRest := hcall.live hlive (.step hentry hfirst hrest)
          exact (ihRest hliveRest he).imp_right (.of_call hcall)
  | nested _ ih => exact (ih ⟨hlive.entered, hlive.before⟩ he).imp_right (.of_call .nested)
  | branch hyes _ ihYes ihNo =>
      rcases List.mem_append.mp he with he | he
      · rcases List.mem_append.mp he with he | he
        · exact .inl (forward_of_mem_connect hlive.before he)
        · exact (ihYes ⟨by simp, before_singleton _ _⟩ he).imp_right
            (.of_call .branchYes)
      · exact (ihNo ⟨by simp, before_below _ _ _⟩ he).imp_right
          (.of_call (.branchNo (emit_eq_ok_of_emits hyes)))
  | @loop style d body next entry b hbody ih =>
      rcases List.mem_append.mp he with he | he
      · rcases List.mem_append.mp he with he | he
        · exact .inl (forward_of_mem_connect hlive.before he)
        · exact (ih ⟨by simp, before_singleton _ _⟩ he).imp_right
            (.of_call .loopBody)
      · obtain ⟨s, hs, rfl⟩ := List.mem_map.mp he
        exact .inr ⟨b, ⟨style, d, body, entry, watched, .refl, hbody⟩, hs, rfl⟩
  | choice hyes hno =>
      rcases List.mem_append.mp he with he | he
      · rcases List.mem_append.mp he with he | he
        · exact .inl (forward_of_mem_connect hlive.before he)
        · exact .inl (hyes.forward_of_operand rfl (before_singleton _ _) e he)
      · exact .inl (hno.forward_of_operand rfl (before_below _ _ _) e he)
  | switch _ ih =>
      rcases List.mem_append.mp he with he | he
      · exact .inl (forward_of_mem_connect hlive.before he)
      · exact (ih ⟨by simp, before_singleton _ _⟩ he).imp_right
          (.of_call .switchCases)
  | @guarded body handler final next entry b h f hbody hhandler hfinal ihBody ihHandler ihFinal =>
      have hwhole : Call.Gives ⟨.guarded body handler final, next, entry, watched⟩ text
          ((b.protect h).finish f) := .guarded hbody hhandler hfinal
      have hhandlerCall : Calls text ⟨.guarded body handler final, next, entry, watched⟩ _ :=
        .guardedHandler (emit_eq_ok_of_emits hbody)
      have hfinalCall : Calls text ⟨.guarded body handler final, next, entry, watched⟩ _ :=
        .guardedFinal (emit_eq_ok_of_emits hbody) (emit_eq_ok_of_emits hhandler)
      rw [edges_finish] at he
      rcases List.mem_append.mp he with he | he
      · rcases List.mem_append.mp he with he | he
        · exact (ihBody ⟨hlive.entered, hlive.before⟩ he).imp_right (.of_call .guardedBody)
        · have hliveHandler := hhandlerCall.live hlive hwhole
          exact (ihHandler hliveHandler he).imp_right (.of_call hhandlerCall)
      · have hliveFinal := hfinalCall.live hlive hwhole
        exact (ihFinal hliveFinal he).imp_right (.of_call hfinalCall)
  | @case kind caption d test body rest next entry b r hcaption hbody hrest ihBody ihRest =>
      rcases List.mem_append.mp he with he | he
      · rcases List.mem_append.mp he with he | he
        · exact .inl (forward_of_mem_connect (before_caseEntry hlive.before test) he)
        · exact (ihBody ⟨by simp, before_singleton _ _⟩ he).imp_right
            (.of_call .caseBody)
      · have hcall : Calls text ⟨.case kind d test body rest, next, entry, watched⟩ _ :=
          .caseRest (emit_eq_ok_of_emits hbody)
        have hliveRest := hcall.live hlive (.case hcaption hbody hrest)
        exact (ihRest hliveRest he).imp_right (.of_call hcall)
  | «catch» _ _ ih =>
      rcases List.mem_append.mp he with he | he
      · exact .inl (forward_of_mem_connect hlive.before he)
      · exact (ih ⟨by simp, before_singleton _ _⟩ he).imp_right
          (.of_call .catchBody)
  | leaf => exact .inl (forward_of_mem_connect hlive.before he)
  | ternary hyes hno =>
      exact .inl ((Emits.ternary hyes hno).forward_of_operand rfl hlive.before e he)

/-! ## Vertices -/

/-- A decision under the caption of a loop. -/
def IsLoopVertex (v : Vertex) (caption : Caption) : Prop :=
  caption.isLoop = true ∧ ∃ site code, v = .decision caption site code

/-- A decision under another caption is no loop. -/
theorem not_isLoopVertex_decision {own : Caption} {d : Decision} (hown : own.isLoop = false) :
    ¬ IsLoopVertex (decisionVertex text own d) caption := by
  rintro ⟨hloop, site, code, hv⟩
  cases hv
  rw [hown] at hloop
  cases hloop

theorem not_isLoopVertex_runFragment {r : Run} {v : Nat × Vertex}
    (hv : v ∈ (runFragment text r next entry).vertices) : ¬ IsLoopVertex v.2 caption := by
  have hblock : v = (next, blockVertex text r) := by
    unfold runFragment at hv
    split at hv <;> exact List.mem_singleton.mp hv
  rintro ⟨_, site, code, hdecision⟩
  rw [hblock] at hdecision
  cases hdecision

/-- There are no loops among the alternatives of a ternary. -/
theorem Emits.not_isLoopVertex_operand {o : Outline p} (hf : Emits text o next entry f)
    (hpart : p = .operand) : ∀ v ∈ f.vertices, ¬ IsLoopVertex v.2 caption := by
  induction hf with
  | absent => exact List.forall_mem_nil _
  | leaf =>
      refine List.forall_mem_singleton.mpr ?_
      rintro ⟨_, site, code, hv⟩
      cases hv
  | ternary _ _ ihYes ihNo =>
      refine List.forall_mem_append.mpr ⟨List.forall_mem_append.mpr ⟨?_, ihYes rfl⟩, ihNo rfl⟩
      exact List.forall_mem_singleton.mpr (not_isLoopVertex_decision rfl)
  | _ => cases hpart

/-- A vertex under the caption of a loop is a loop, or a case or a handler in whose place
a loop stands. -/
theorem Emits.loopAt_or_clauseAt {o : Outline p} (hf : Emits text o next entry f) {v : Nat × Vertex}
    (hv : v ∈ f.vertices) (hloop : IsLoopVertex v.2 caption) :
    (∃ b, LoopAt text ⟨o, next, entry, watched⟩ v.1 b) ∨
      ClauseAt text ⟨o, next, entry, watched⟩ v.1 caption := by
  have lift {c c' : Call} (hcall : Calls text c c')
      (h : (∃ b, LoopAt text c' v.1 b) ∨ ClauseAt text c' v.1 caption) :
      (∃ b, LoopAt text c v.1 b) ∨ ClauseAt text c v.1 caption :=
    h.imp (fun ⟨b, hb⟩ => ⟨b, hb.of_call hcall⟩) (.of_call hcall)
  induction hf generalizing watched with
  | done | absent | unreached | noCase | noHandler => cases hv
  | @run r rest next entry g _ hrest ih =>
      rcases List.mem_append.mp hv with hv | hv
      · exact absurd hloop (not_isLoopVertex_runFragment hv)
      · cases hreturns : r.returns with
        | true =>
            rw [hrest.eq_pass_of_returns hreturns] at hv
            cases hv
        | false =>
            rw [ends_runFragment hreturns] at ih
            exact lift (.runRest hreturns) (ih hv)
  | @step line construct rest next entry f g _ hfirst hrest ihFirst ihRest =>
      rcases List.mem_append.mp hv with hv | hv
      · exact lift .stepFirst (ihFirst hv)
      · by_cases hends : f.ends = []
        · rw [hends] at hrest
          rw [hrest.eq_pass_of_nil] at hv
          cases hv
        · exact lift (.stepRest (emit_eq_ok_of_emits hfirst) hends) (ihRest hv)
  | nested _ ih => exact lift .nested (ih hv)
  | branch hyes _ ihYes ihNo =>
      rcases List.mem_append.mp hv with hv | hv
      · rcases List.mem_append.mp hv with hv | hv
        · obtain rfl := List.mem_singleton.mp hv
          exact absurd hloop (not_isLoopVertex_decision rfl)
        · exact lift .branchYes (ihYes hv)
      · exact lift (.branchNo (emit_eq_ok_of_emits hyes)) (ihNo hv)
  | @loop style d body next entry b hbody ih =>
      rcases List.mem_append.mp hv with hv | hv
      · obtain rfl := List.mem_singleton.mp hv
        exact .inl ⟨b, style, d, body, entry, watched, .refl, hbody⟩
      · exact lift .loopBody (ih hv)
  | choice hyes hno =>
      rcases List.mem_append.mp hv with hv | hv
      · rcases List.mem_append.mp hv with hv | hv
        · obtain rfl := List.mem_singleton.mp hv
          exact absurd hloop (not_isLoopVertex_decision rfl)
        · exact absurd hloop (hyes.not_isLoopVertex_operand rfl v hv)
      · exact absurd hloop (hno.not_isLoopVertex_operand rfl v hv)
  | switch _ ih =>
      rcases List.mem_append.mp hv with hv | hv
      · obtain rfl := List.mem_singleton.mp hv
        exact absurd hloop (not_isLoopVertex_decision rfl)
      · exact lift .switchCases (ih hv)
  | guarded hbody hhandler _ ihBody ihHandler ihFinal =>
      rw [vertices_finish] at hv
      rcases List.mem_append.mp hv with hv | hv
      · rcases List.mem_append.mp hv with hv | hv
        · exact lift .guardedBody (ihBody hv)
        · exact lift (.guardedHandler (emit_eq_ok_of_emits hbody)) (ihHandler hv)
      · exact lift (.guardedFinal (emit_eq_ok_of_emits hbody) (emit_eq_ok_of_emits hhandler))
          (ihFinal hv)
  | @case kind own d test body rest next entry b r hcaption hbody _ ihBody ihRest =>
      rcases List.mem_append.mp hv with hv | hv
      · rcases List.mem_append.mp hv with hv | hv
        · obtain rfl := List.mem_singleton.mp hv
          obtain ⟨_, site, code, hdecision⟩ := hloop
          cases hdecision
          exact .inr ⟨_, kind, .refl, rfl, rfl, captionOf_eq_ok_iff.mp hcaption⟩
        · exact lift .caseBody (ihBody hv)
      · exact lift (.caseRest (emit_eq_ok_of_emits hbody)) (ihRest hv)
  | @«catch» kind own d body next entry b hcaption _ ih =>
      rcases List.mem_append.mp hv with hv | hv
      · obtain rfl := List.mem_singleton.mp hv
        obtain ⟨_, site, code, hdecision⟩ := hloop
        cases hdecision
        exact .inr ⟨_, kind, .refl, rfl, rfl, captionOf_eq_ok_iff.mp hcaption⟩
      · exact lift .catchBody (ih hv)
  | leaf =>
      obtain rfl := List.mem_singleton.mp hv
      obtain ⟨_, site, code, hoperand⟩ := hloop
      cases hoperand
  | ternary hyes hno =>
      exact absurd hloop ((Emits.ternary hyes hno).not_isLoopVertex_operand rfl v hv)

end Outline

namespace Flow.Graph

open Outline

/-- An edge back to a loop. -/
structure GoesBack (g : Graph) (e : Edge) : Prop where
  label : e.label = loopLabel
  order : e.target ≤ e.source
  loop : ∃ v caption, (e.target, v) ∈ g.vertices ∧ IsLoopVertex v caption

/-- Without the edges back to loops control only goes onward, and it gets to where it goes
back from through the loop. -/
structure Reducible (g : Graph) : Prop where
  forward_or_back : ∀ e ∈ g.edges, e.source < e.target ∨ g.GoesBack e
  acyclic : ∀ edges ⊆ g.edges, (∀ e ∈ edges, ¬ g.GoesBack e) →
    ∀ i, ¬ Relation.TransGen (Joins edges) i i
  dominated : ∀ e ∈ g.edges, g.GoesBack e → ∀ path, Route g.edges 0 e.source path → e.target ∈ path

/-- The body of a function as a part to be laid down. -/
def bodyCall (t : Tree) : Call := ⟨Outline.ofFunction t, 1, [⟨0, ""⟩], false⟩

theorem live_bodyCall (t : Tree) : (bodyCall t).Live := ⟨by simp [bodyCall], before_singleton 0 ""⟩

variable {source : Bytes} {t : Tree} {g : Graph} {whole b : Fragment} {i s : Nat} {e : Edge}
  {path : List Nat}

/-- Where every edge leads to a larger number, so does every path. -/
theorem lt_of_transGen {edges : List Edge} (hforward : ∀ e ∈ edges, e.source < e.target) {i j : Nat}
    (hpath : Relation.TransGen (Joins edges) i j) : i < j := by
  induction hpath with
  | single hstep =>
      obtain ⟨e, he, rfl, rfl⟩ := hstep
      exact hforward e he
  | tail _ hstep ih =>
      obtain ⟨e, he, rfl, rfl⟩ := hstep
      exact Nat.lt_trans ih (hforward e he)

section

variable (hwhole : BodyOf source t whole)
  (hloop : LoopAt (Range.text source) (bodyCall t) i b)
include hwhole hloop

/-- The body of a loop lies inside the body of the function. -/
theorem sits_loop : b.Sits (i + 1) false whole 1 false := by
  obtain ⟨style, d, body, entry, watched, hvisit, hbody⟩ := hloop
  have hvisitBody : Visits _ _ _ := hvisit.tail .loopBody
  obtain ⟨b', hb', _, hsits⟩ := hvisitBody.sits (live_bodyCall t) hwhole
  obtain rfl := hbody.unique (emit_eq_ok_of_emits hb')
  exact hsits

/-- Control gets into the body of a loop through the loop. -/
theorem mem_of_route (hs : s = i ∨ b.Owns (i + 1) s) (hroute : Route (close whole).edges 0 s path) :
    i ∈ path := by
  rcases hs with rfl | hs
  · exact List.mem_of_getLast? hroute.last
  · have hsits := sits_loop hwhole hloop
    obtain ⟨style, d, body, entry, watched, hvisit, hbody⟩ := hloop
    obtain ⟨front, u, v, rest, hpath, ⟨e, he, rfl, rfl⟩, hout, hin⟩ :=
      @Route.exists_escape _ _ _ _ hroute (fun u => ¬ b.Owns (i + 1) u)
        (fun h => absurd h.1 (by omega)) (not_not_intro hs)
    have hin : b.Owns (i + 1) e.target := not_not.mp hin
    -- The step into the body is an edge of the body, entered from the loop.
    have hedge : e ∈ b.edges := by
      rcases mem_edges_close he with he | ⟨_, htarget⟩
      · rcases hsits.outside e he with he | ⟨hnot, _⟩
        · exact he
        · exact absurd hin hnot
      · have hlt := (hsits.owns _ hin).2
        rw [htarget, exitId] at hlt
        exact absurd hlt (Nat.lt_irrefl _)
    have hsource : e.source = i := by
      rcases hbody.placed.source e hedge with hsource | hsource
      · simpa using hsource
      · exact absurd hsource hout
    rw [hpath, hsource]
    simp

end

/-- An edge that closes a loop goes back to it. -/
theorem goesBack_of_closes (hwhole : BodyOf source t whole)
    (hcloses : Closes (Range.text source) (bodyCall t) e) : (close whole).GoesBack e := by
  obtain ⟨b, ⟨style, d, body, entry, watched, hvisit, hbody⟩, hback, hlabel⟩ := hcloses
  refine ⟨hlabel, ?_, decisionVertex (Range.text source) style.caption d, style.caption, ?_,
    Tree.isLoop_caption style, _, _, rfl⟩
  · rcases hbody.placed.backSources hback with hs | hs
    · exact Nat.le_of_eq hs.symm
    · exact Nat.le_of_lt hs.1
  · have hinset := Visits.inset hvisit (live_bodyCall t) hwhole (Emits.loop hbody)
    have hvertex := hinset.vertices (List.mem_append_left _ (List.mem_singleton.mpr rfl))
    exact List.mem_append_left _ (List.mem_cons_of_mem _ hvertex)

/-- A body that was entered is gone back from somewhere. -/
theorem exists_backSource {body : Outline .sequence} (hb : body.Foretells b) :
    ∃ s, s ∈ b.backSources := by
  obtain ⟨s, hs⟩ := hb.exists_outlet
  by_cases hends : b.ends = []
  · rw [hends] at hs
    exact ⟨s, mem_backSources.mpr (.inr ⟨hends, hs.resolve_left (by simp)⟩)⟩
  · obtain ⟨x, hx⟩ := List.exists_mem_of_ne_nil _ hends
    exact ⟨x.source, mem_backSources.mpr (.inl (List.mem_map_of_mem hx))⟩

/-- Each loop is gone back to. -/
theorem exists_goesBack (hwhole : BodyOf source t whole)
    (hloop : LoopAt (Range.text source) (bodyCall t) i b) :
    ∃ e ∈ (close whole).edges, (close whole).GoesBack e ∧ e.target = i := by
  obtain ⟨style, d, body, entry, watched, hvisit, hbody⟩ := id hloop
  obtain ⟨s, hs⟩ := exists_backSource (hbody.foretells (by simp))
  have hinset := Visits.inset hvisit (live_bodyCall t) hwhole (Emits.loop hbody)
  have hedge : ⟨s, i, loopLabel⟩ ∈ whole.edges := by
    apply hinset.edges_subset (Emits.loop hbody).placed
    exact List.mem_append_right _ (List.mem_map_of_mem hs)
  refine ⟨_, List.mem_append_left _ hedge, goesBack_of_closes hwhole ?_, rfl⟩
  exact ⟨b, hloop, hs, rfl⟩

/-- A graph is the body between entry and exit, and what these two add only leads onward. -/
theorem reducible_close (hwhole : BodyOf source t whole) : (close whole).Reducible := by
  have hcases : ∀ e ∈ (close whole).edges,
      e.source < e.target ∨ Closes (Range.text source) (bodyCall t) e := by
    intro e he
    rcases mem_edges_close he with he | ⟨hsource, htarget⟩
    · exact hwhole.forward_or_closes (live_bodyCall t) he
    · left
      rw [htarget, exitId]
      rcases mem_outlets_bounds hwhole hsource with hs | hs
      · omega
      · exact hs.2
  refine ⟨?_, ?_, ?_⟩
  · intro e he
    exact (hcases e he).imp_right (goesBack_of_closes hwhole)
  · intro edges hsub hforward i hcycle
    refine Nat.lt_irrefl i (lt_of_transGen (fun e he => ?_) hcycle)
    rcases hcases e (hsub he) with hlt | hcloses
    · exact hlt
    · exact absurd (goesBack_of_closes hwhole hcloses) (hforward e he)
  · intro e he hback path hroute
    rcases hcases e he with hlt | ⟨b, hloop, hs, _⟩
    · exact absurd hback.order (Nat.not_le_of_lt hlt)
    · obtain ⟨_, _, _, _, _, _, hbody⟩ := id hloop
      exact mem_of_route hwhole hloop (hbody.placed.backSources hs) hroute

/-- The graph of a function is reducible, and each decision under the caption of a loop is
gone back to, unless it was made for a case or a handler in whose place a loop stands. -/
theorem graph_reducible (hg : ofFunction source t = .ok g) :
    g.Reducible ∧ ∀ i v caption, (i, v) ∈ g.vertices → IsLoopVertex v caption →
      (∃ e ∈ g.edges, g.GoesBack e ∧ e.target = i) ∨
        ClauseAt (Range.text source) (bodyCall t) i caption := by
  obtain ⟨whole, hwhole, rfl⟩ := ofFunction_eq_ok_iff.mp hg
  refine ⟨reducible_close hwhole, ?_⟩
  intro i v caption hv hloop
  have hinner : (i, v) ∈ whole.vertices := by
    simp only [close, List.cons_append, List.mem_cons, List.mem_append, List.not_mem_nil,
      or_false] at hv
    obtain ⟨_, site, code, rfl⟩ := hloop
    rcases hv with hv | hv | hv
    · cases hv
    · exact hv
    · cases hv
  rcases hwhole.loopAt_or_clauseAt hinner hloop with ⟨b, hloopAt⟩ | hclause
  · exact .inl (exists_goesBack hwhole hloopAt)
  · exact .inr hclause

/-- A loop that may leave the function, around one that always does, through a final part. -/
def returningLoops : Tree :=
  Sketch.function [Sketch.loop [Sketch.branch [Sketch.leave] [], Sketch.loop
    [Sketch.guarded [Sketch.leave] (some [Sketch.leave]) (some [Sketch.statement])]]]

theorem returningLoops_reducible :
    ∃ g, ofFunction [] returningLoops = .ok g ∧ g.Reducible ∧
      ⟨8, 4, loopLabel⟩ ∈ g.edges ∧ ⟨4, 1, loopLabel⟩ ∈ g.edges := by
  have hg : ofFunction [] returningLoops = .ok _ := rfl
  exact ⟨_, hg, (graph_reducible hg).1, by decide, by decide⟩

/-- A guarded block with a loop in the place of its handler. -/
def loopAsHandler : Tree :=
  Sketch.function [.ofSlots { kind := .guarded, type := "try" }
    { body := some (Sketch.block [Sketch.statement]), handler := some (Sketch.loop []) }]

/-- What stands in the place of a handler goes by the caption of a loop and is not gone
back to. -/
theorem loopAsHandler_not_gone_back :
    ∃ g v, ofFunction [] loopAsHandler = .ok g ∧ (2, v) ∈ g.vertices ∧ IsLoopVertex v .whileLoop ∧
      ¬ ∃ e ∈ g.edges, g.GoesBack e ∧ e.target = 2 := by
  have hforward : ∃ g v, ofFunction [] loopAsHandler = .ok g ∧ (2, v) ∈ g.vertices ∧
      IsLoopVertex v .whileLoop ∧ ∀ e ∈ g.edges, e.target = 2 → e.source < 2 :=
    ⟨_, _, rfl, .tail _ (.tail _ (.head _)), ⟨rfl, _, _, rfl⟩, by decide⟩
  obtain ⟨g, v, hg, hv, hloop, hlt⟩ := hforward
  refine ⟨g, v, hg, hv, hloop, ?_⟩
  rintro ⟨e, he, hback, htarget⟩
  have hsource := hlt e he htarget
  exact absurd hback.order (by omega)

end Flow.Graph

end Cyclomatic
