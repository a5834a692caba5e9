import Cyclomatic.Analysis
import Cyclomatic.Proofs.ParseTree.Slots
import Cyclomatic.Proofs.Tree.Seats
import Cyclomatic.Proofs.Tree.Sketch

/-! # What a graph depends on

A graph shows where its decisions and blocks stand and how control goes from
one to the other. What is inside a straight-line statement, a condition, a case's
test, a loop's header, a parameter or an alternative of a ternary has no say in
it, as long as it takes up the same text.
-/

namespace Cyclomatic

open Cyclomatic.Flow

namespace Tree

/-- Nodes that are the same from outside: they take up the same text and lines, and control
leaves the function at both or at none. -/
structure SameShell (s t : Tree) : Prop where
  site : s.place.site = t.place.site
  exits : s.head.exits = t.head.exits

/-- Lists of nodes that have the same skeleton, standing as what the position says. The nodes that
the graph goes into are of the same kind one by one; of all else that it shows, only the shells
are the same. -/
inductive Alike : Position → List Tree → List Tree → Prop
  | nil {p} : Alike p [] []
  | straight {s t ss ts} (hs : s.isStraight = true) (ht : t.isStraight = true)
      (hshell : SameShell s t) (hrest : Alike .statement ss ts) :
      Alike .statement (s :: ss) (t :: ts)
  | block {s t ss ts} (hs : s.kind = .block) (ht : t.kind = .block)
      (hinner : Alike .statement s.statements t.statements) (hrest : Alike .statement ss ts) :
      Alike .statement (s :: ss) (t :: ts)
  | branch {s t ss ts} (hs : s.kind = .branch) (ht : t.kind = .branch) (hshell : SameShell s t)
      (htest : Option.Rel SameShell s.condition t.condition)
      (hyes : Alike .statement (asStatements s.consequent) (asStatements t.consequent))
      (hno : Alike .statement (asStatements s.alternate) (asStatements t.alternate))
      (hrest : Alike .statement ss ts) : Alike .statement (s :: ss) (t :: ts)
  | loop {s t ss ts} {style : Loop} (hkind : s.kind = t.kind)
      (hs : Caption.ofKind? s.kind = some style.caption) (hshell : SameShell s t)
      (htest : Option.Rel SameShell s.condition t.condition)
      (hbody : Alike .statement (asStatements s.body) (asStatements t.body))
      (hrest : Alike .statement ss ts) : Alike .statement (s :: ss) (t :: ts)
  | switch {s t ss ts} (hs : s.kind = .switch) (ht : t.kind = .switch) (hshell : SameShell s t)
      (htest : Option.Rel SameShell s.condition t.condition)
      (hcases : Alike .case s.cases t.cases) (hrest : Alike .statement ss ts) :
      Alike .statement (s :: ss) (t :: ts)
  | guarded {s t ss ts} (hs : s.kind = .guarded) (ht : t.kind = .guarded)
      (hbody : Alike .statement (asStatements s.body) (asStatements t.body))
      (hhandler : Alike .handler s.handler.toList t.handler.toList)
      (hfinal : Alike .statement (asStatements s.finalizer) (asStatements t.finalizer))
      (hrest : Alike .statement ss ts) : Alike .statement (s :: ss) (t :: ts)
  | choice {s t u v ss ts} (hs : s.choice? = some u) (ht : t.choice? = some v)
      (hchoice : Alike .operand [u] [v]) (hrest : Alike .statement ss ts) :
      Alike .statement (s :: ss) (t :: ts)
  | case {s t ss ts} (hkind : s.kind = t.kind) (hshell : SameShell s t)
      (htest : Option.Rel SameShell s.condition t.condition)
      (hparameter : Option.Rel SameShell s.operands.head? t.operands.head?)
      (hinner : Alike .statement s.statements t.statements) (hrest : Alike .case ss ts) :
      Alike .case (s :: ss) (t :: ts)
  /-- What has no caption ends the building of the graph, whatever it holds. -/
  | handler {s t} (hkind : s.kind = t.kind) (hshell : SameShell s t)
      (htest : Option.Rel SameShell s.condition t.condition)
      (hparameter : Option.Rel SameShell s.operands.head? t.operands.head?)
      (hbody : (Caption.ofKind? s.kind).isSome = true →
        Alike .statement (asStatements s.body) (asStatements t.body)) :
      Alike .handler [s] [t]
  | leaf {s t} (hs : s.kind ≠ .ternary) (ht : t.kind ≠ .ternary) (hshell : SameShell s t) :
      Alike .operand [s] [t]
  | ternary {s t} (hs : s.kind = .ternary) (ht : t.kind = .ternary) (hshell : SameShell s t)
      (htest : Option.Rel SameShell s.condition t.condition)
      (hyes : Alike .operand s.consequent.toList t.consequent.toList)
      (hno : Alike .operand s.alternate.toList t.alternate.toList) : Alike .operand [s] [t]

/-- Functions whose bodies have the same skeleton. -/
def SameSkeleton (f g : Tree) : Prop :=
  Alike .statement (asStatements f.body) (asStatements g.body)

/-- The second tree is the first one with other bodies for some of the functions in it, the tree
itself included. -/
inductive Rewritten : Tree → Tree → Prop
  | mk {s t} (hhead : s.head = t.head)
      (hslots : ∀ slot, ¬ (s.kind = .function ∧ slot = .body) →
        List.Forall₂ Rewritten (s.inSlot slot) (t.inSlot slot)) : Rewritten s t

/-- The second function is the first one with other bodies for some of the functions inside it. -/
structure RewrittenInside (f g : Tree) : Prop where
  head : f.head = g.head
  slots : ∀ slot, List.Forall₂ Rewritten (f.inSlot slot) (g.inSlot slot)

end Tree

/-! ## Outlines that give the same graph -/

namespace Outline

open Cyclomatic.Tree

variable {text : Range → String}

/-- What follows a straight run may be replaced by what is laid down alike. -/
theorem emit_run_congr {rest rest' : Outline .sequence} (hrest : rest.emit text = rest'.emit text)
    (r : Run) : (run r rest).emit text = (run r rest').emit text := by
  funext next entry
  rw [emit, emit, hrest]

theorem emit_flush_congr {rest rest' : Outline .sequence}
    (hrest : rest.emit text = rest'.emit text) (pending : Option Run) :
    (flush pending rest).emit text = (flush pending rest').emit text := by
  cases pending with
  | none => exact hrest
  | some r => exact emit_run_congr hrest r

/-- A construct and what follows it may be replaced by what is laid down alike; the line is not
shown. -/
theorem emit_step_congr {c c' : Outline .construct} {rest rest' : Outline .sequence}
    (hc : c.emit text = c'.emit text) (hrest : rest.emit text = rest'.emit text)
    (line line' : Int) : (step line c rest).emit text = (step line' c' rest').emit text := by
  funext next entry
  rw [emit, emit, hc, hrest]

theorem emit_nested_congr {inner inner' : Outline .sequence}
    (hinner : inner.emit text = inner'.emit text) :
    (nested inner).emit text = (nested inner').emit text := by
  funext next entry
  rw [emit, emit, hinner]

/-- The sides of a branch may be replaced by what is laid down alike. -/
theorem emit_branch_congr {yes yes' no no' : Outline .sequence}
    (hyes : yes.emit text = yes'.emit text) (hno : no.emit text = no'.emit text) (d : Decision) :
    (branch d yes no).emit text = (branch d yes' no').emit text := by
  funext next entry
  rw [emit, emit, hyes, hno]

theorem emit_loop_congr {body body' : Outline .sequence}
    (hbody : body.emit text = body'.emit text) (style : Loop) (d : Decision) :
    (loop style d body).emit text = (loop style d body').emit text := by
  funext next entry
  rw [emit, emit, hbody]

/-- The cases of a multiway branch may be replaced by what is laid down alike, if it is as
complete. -/
theorem emit_switch_congr {cases cases' : Outline .cases}
    (hcases : cases.emit text = cases'.emit text) (htested : cases.allTested = cases'.allTested)
    (d : Decision) : (switch d cases).emit text = (switch d cases').emit text := by
  funext next entry
  rw [emit, emit, hcases, htested]

/-- The parts of a guarded block may be replaced by what is laid down alike. -/
theorem emit_guarded_congr {body body' final final' : Outline .sequence}
    {handler handler' : Outline .handler} (hbody : body.emit text = body'.emit text)
    (hhandler : handler.emit text = handler'.emit text)
    (hfinal : final.emit text = final'.emit text) :
    (guarded body handler final).emit text = (guarded body' handler' final').emit text := by
  funext next entry
  rw [emit, emit, hbody, hhandler, hfinal]

theorem emit_case_congr {body body' : Outline .sequence} {rest rest' : Outline .cases}
    (hbody : body.emit text = body'.emit text) (hrest : rest.emit text = rest'.emit text)
    (kind : Kind) (d : Decision) (test : Option Range) :
    (case kind d test body rest).emit text = (case kind d test body' rest').emit text := by
  funext next entry
  rw [emit, emit, hbody, hrest]

/-- A handler without a caption fails before its body is laid down. -/
theorem emit_catch_congr {kind : Kind} {body body' : Outline .sequence}
    (hbody : (Caption.ofKind? kind).isSome = true → body.emit text = body'.emit text)
    (d : Decision) :
    (Outline.catch kind d body).emit text = (Outline.catch kind d body').emit text := by
  funext next entry
  rw [emit, emit]
  cases hcaption : Caption.ofKind? kind with
  | none =>
      rw [captionOf, hcaption]
      rfl
  | some caption => rw [hbody (by rw [hcaption]; rfl)]

/-! ## Trees of one skeleton -/

theorem range_eq {s t : Tree} (hshell : SameShell s t) : s.range = t.range :=
  congrArg Site.range hshell.site

/-- Tests with the same shell have the same text. -/
theorem map_range_eq {c c' : Option Tree} (hrel : Option.Rel SameShell c c') :
    c.map (·.range) = c'.map (·.range) := by
  cases hrel with
  | some hshell => exact congrArg some (range_eq hshell)
  | none => rfl

/-- A statement adds its place to a run, so statements with the same shell make the same run. -/
theorem extend_eq {s t : Tree} (hshell : SameShell s t) (pending : Option Run) :
    Run.extend pending s.place = Run.extend pending t.place := by
  have hsite := hshell.site
  simp only [Place.site, Place.range, Site.mk.injEq, Range.mk.injEq] at hsite
  cases pending with
  | none => exact congrArg (Run.mk · 1 false) hshell.site
  | some r => simp only [Run.extend, Run.add, hsite]

/-- Nodes of one kind and one shell make the same decision if their conditions have the same
shell; the parameter counts only for a handler. -/
theorem decision_eq {s t : Tree} (hkind : s.kind = t.kind) (hshell : SameShell s t)
    (htest : Option.Rel SameShell s.condition t.condition)
    (hparameter : s.kind = .handler → Option.Rel SameShell s.operands.head? t.operands.head?) :
    decision s.head s.condition s.operands = decision t.head t.condition t.operands := by
  have hcode : (decision s.head s.condition s.operands).code =
      (decision t.head t.condition t.operands).code := by
    unfold decision
    generalize s.condition = c at htest
    generalize t.condition = c' at htest
    cases htest with
    | some hsame => exact congrArg some (range_eq hsame)
    | none =>
        change (if s.kind = .handler then _ else _) = if t.kind = .handler then _ else _
        rw [← hkind]
        split
        next hhandler => exact map_range_eq (hparameter hhandler)
        next => rfl
  have hsite : (decision s.head s.condition s.operands).site =
      (decision t.head t.condition t.operands).site := hshell.site
  cases hs : decision s.head s.condition s.operands
  cases ht : decision t.head t.condition t.operands
  simp_all

/-- Lists of nodes that are laid down alike, standing as what the position says. -/
def Agree (text : Range → String) (p : Position) (ss ts : List Tree) : Prop :=
  match p with
  | .statement => ∀ pending,
      (ofStatements pending ss).emit text = (ofStatements pending ts).emit text
  | .case => (ofCases ss).emit text = (ofCases ts).emit text ∧
      (ofCases ss).allTested = (ofCases ts).allTested
  | .handler => (ofHandler ss.head?).emit text = (ofHandler ts.head?).emit text
  | .operand => ofOperand ss.head? = ofOperand ts.head?

variable {s t : Tree} {ss ts : List Tree}

theorem agree_nil (p : Position) : Agree text p [] [] := by
  cases p with
  | statement => exact fun _ => rfl
  | case => exact ⟨rfl, rfl⟩
  | handler => rfl
  | operand => rfl

/-- Straight-line statements with the same shell are laid down alike in front of what is. -/
theorem agree_straight (hs : s.isStraight = true) (ht : t.isStraight = true)
    (hshell : SameShell s t) (hrest : Agree text .statement ss ts) :
    Agree text .statement (s :: ss) (t :: ts) := by
  intro pending
  rw [ofStatements_cons_straight hs, ofStatements_cons_straight ht, hshell.exits,
    extend_eq hshell]
  split
  next => exact emit_run_congr (hrest none) _
  next => exact hrest _

/-- Statements that open constructs laid down alike are laid down alike in front of what is. -/
theorem agree_construct {c c' : Outline .construct} (hs : Opens s c) (ht : Opens t c')
    (hc : c.emit text = c'.emit text) (hrest : Agree text .statement ss ts) :
    Agree text .statement (s :: ss) (t :: ts) := by
  intro pending
  rw [ofStatements_cons_construct (ofStatement?_eq_some_iff.mpr hs),
    ofStatements_cons_construct (ofStatement?_eq_some_iff.mpr ht)]
  exact emit_flush_congr (emit_step_congr hc (hrest none) _ _) pending

/-- Cases with the same test and with statements laid down alike are laid down alike in front of
what is. -/
theorem agree_case (hkind : s.kind = t.kind)
    (hdecision : decision s.head s.condition s.operands = decision t.head t.condition t.operands)
    (htest : Option.Rel SameShell s.condition t.condition)
    (hinner : Agree text .statement s.statements t.statements) (hrest : Agree text .case ss ts) :
    Agree text .case (s :: ss) (t :: ts) := by
  have hrange := map_range_eq htest
  refine ⟨?_, ?_⟩
  · rw [ofCases_cons, ofCases_cons, hkind, hdecision, hrange]
    exact emit_case_congr (hinner none) hrest.1 _ _ _
  · rw [ofCases_cons, ofCases_cons, hrange, allTested, allTested, hrest.2]

/-- Ternaries with the same decision and the same alternatives are laid down alike. -/
theorem agree_ternary (hs : s.kind = .ternary) (ht : t.kind = .ternary)
    (hdecision : decision s.head s.condition s.operands = decision t.head t.condition t.operands)
    (hyes : ofOperand s.consequent = ofOperand t.consequent)
    (hno : ofOperand s.alternate = ofOperand t.alternate) :
    Agree text .operand [s] [t] := by
  change ofOperand (some s) = ofOperand (some t)
  rw [ofOperand_some, ofOperand_some, if_pos hs, if_pos ht, hdecision, hyes, hno]

/-- A ternary that is a statement is laid down as one that is an operand. -/
theorem ofChoice_eq {u v : Tree} (hu : u.kind = .ternary) (hv : v.kind = .ternary)
    (hoperand : ofOperand (some u) = ofOperand (some v)) : ofChoice u = ofChoice v := by
  rw [ofOperand_some, ofOperand_some, if_pos hu, if_pos hv] at hoperand
  injection hoperand with hdecision hyes hno
  rw [ofChoice, ofChoice, hdecision, hyes, hno]

/-- What has the same skeleton is laid down alike. -/
theorem agree_of_alike {p : Position} (halike : Alike p ss ts) : Agree text p ss ts := by
  induction halike with
  | nil => exact agree_nil _
  | straight hs ht hshell _ hrest => exact agree_straight hs ht hshell hrest
  | block hs ht _ _ hinner hrest =>
      exact agree_construct (.block hs) (.block ht) (emit_nested_congr (hinner none)) hrest
  | branch hs ht hshell htest _ _ _ hyes hno hrest =>
      refine agree_construct (.branch hs) (.branch ht) ?_ hrest
      rw [decision_eq (hs.trans ht.symm) hshell htest (by simp [hs])]
      exact emit_branch_congr (hyes none) (hno none) _
  | @loop s t _ _ style hkind hs hshell htest _ _ hbody hrest =>
      have hne : s.kind ≠ .handler := by
        intro hhandler
        rw [hhandler] at hs
        cases style <;> cases hs
      refine agree_construct (.loop hs) (.loop (hkind ▸ hs)) ?_ hrest
      rw [decision_eq hkind hshell htest fun hhandler => absurd hhandler hne]
      exact emit_loop_congr (hbody none) _ _
  | switch hs ht hshell htest _ _ hcases hrest =>
      refine agree_construct (.switch hs) (.switch ht) ?_ hrest
      rw [decision_eq (hs.trans ht.symm) hshell htest (by simp [hs])]
      exact emit_switch_congr hcases.1 hcases.2 _
  | guarded hs ht _ _ _ _ hbody hhandler hfinal hrest =>
      refine agree_construct (.guarded hs) (.guarded ht) ?_ hrest
      rw [ofBody_eq, ofBody_eq, ofBody_eq, ofBody_eq]
      rw [Agree, Option.head?_toList, Option.head?_toList] at hhandler
      exact emit_guarded_congr (hbody none) hhandler (hfinal none)
  | @choice s t u v ss ts hs ht _ _ hchoice hrest =>
      refine agree_construct (.choice hs) (.choice ht) ?_ hrest
      exact congrArg (emit text ·)
        (ofChoice_eq (kind_of_choice? hs) (kind_of_choice? ht) hchoice)
  | case hkind hshell htest hparameter _ _ hinner hrest =>
      exact agree_case hkind (decision_eq hkind hshell htest fun _ => hparameter) htest hinner hrest
  | @handler s t hkind hshell htest hparameter _ hbody =>
      change (ofHandler (some s)).emit text = (ofHandler (some t)).emit text
      rw [ofHandler_some, ofHandler_some, ← hkind,
        decision_eq hkind hshell htest fun _ => hparameter]
      exact emit_catch_congr (fun hcaption => hbody hcaption none) _
  | @leaf s t hs ht hshell =>
      change ofOperand (some s) = ofOperand (some t)
      rw [ofOperand_some, ofOperand_some, if_neg hs, if_neg ht, hshell.site]
  | ternary hs ht hshell htest _ _ hyes hno =>
      rw [Agree, Option.head?_toList, Option.head?_toList] at hyes hno
      exact agree_ternary hs ht
        (decision_eq (hs.trans ht.symm) hshell htest (by simp [hs])) hyes hno

end Outline

/-! ## Functions with other bodies inside -/

namespace Tree

variable {s t u v : Tree} {us vs : List Tree}

/-- A rewritten node keeps its kind, its place and its name. -/
theorem Rewritten.head_eq (hst : Rewritten s t) : s.head = t.head := by
  cases hst with
  | mk hhead _ => exact hhead

theorem Rewritten.kind_eq (hst : Rewritten s t) : s.kind = t.kind :=
  congrArg Head.kind hst.head_eq

/-- A rewritten node looks the same from outside. -/
theorem Rewritten.shell (hst : Rewritten s t) : SameShell s t :=
  ⟨congrArg (·.place.site) hst.head_eq, congrArg Head.exits hst.head_eq⟩

/-- What is below a rewritten node is rewritten, other than in a body. -/
theorem Rewritten.slot (hst : Rewritten s t) (slot : Slot) (hslot : slot ≠ .body) :
    List.Forall₂ Rewritten (s.inSlot slot) (t.inSlot slot) := by
  cases hst with
  | mk _ hslots => exact hslots slot fun hbody => hslot hbody.2

/-- The body of a rewritten node is rewritten too, unless the node is a function. -/
theorem Rewritten.body (hst : Rewritten s t) (hkind : s.kind ≠ .function) :
    List.Forall₂ Rewritten s.body.toList t.body.toList := by
  cases hst with
  | mk _ hslots => exact hslots .body fun hbody => hkind hbody.1

theorem Rewritten.test (hst : Rewritten s t) :
    Option.Rel SameShell s.condition t.condition := by
  have hslot : List.Forall₂ Rewritten s.condition.toList t.condition.toList :=
    hst.slot .condition nofun
  generalize s.condition = c at hslot
  generalize t.condition = c' at hslot
  cases c <;> cases c' <;> cases hslot
  next => exact .none
  next hcondition _ => exact .some hcondition.shell

theorem Rewritten.parameter (hst : Rewritten s t) :
    Option.Rel SameShell s.operands.head? t.operands.head? := by
  have hslot : List.Forall₂ Rewritten s.operands t.operands := hst.slot .operands nofun
  generalize s.operands = os at hslot
  generalize t.operands = os' at hslot
  cases hslot with
  | nil => exact .none
  | cons hfirst _ => exact .some hfirst.shell

/-- The ternary that a statement is all about is rewritten with the statement. -/
theorem Rewritten.choice? (hst : Rewritten s t) :
    Option.Rel (fun u v => Rewritten u v ∧ (u = s ∧ v = t ∨ u ∈ s.operands))
      s.choice? t.choice? := by
  have hslot : List.Forall₂ Rewritten s.operands t.operands := hst.slot .operands nofun
  unfold Tree.choice?
  rw [← hst.kind_eq, ← hst.head_eq]
  cases s.kind with
  | ternary => exact .some ⟨hst, .inl ⟨rfl, rfl⟩⟩
  | plain =>
      generalize s.operands = os at hslot
      generalize t.operands = os' at hslot
      cases hslot with
      | nil => exact .none
      | @cons u v us vs hfirst hrest =>
          cases hrest with
          | cons _ _ => exact .none
          | nil =>
              dsimp only
              rw [← hfirst.kind_eq]
              split
              next => exact .some ⟨hfirst, .inr (List.mem_singleton_self u)⟩
              next => exact .none
  | _ => exact .none

/-- To rewrite a statement does not make it a construct, nor the other way round. -/
theorem Rewritten.isStraight_eq (hst : Rewritten s t) : s.isStraight = t.isStraight := by
  have hchoice : s.choice?.isNone = t.choice?.isNone := by
    have hrel := hst.choice?
    generalize s.choice? = u at hrel
    generalize t.choice? = v at hrel
    cases hrel <;> rfl
  unfold isStraight
  rw [hst.kind_eq, hchoice]

/-- Nodes that are alike in every position. -/
structure AlikeAnywhere (s t : Tree) : Prop where
  statement : ∀ {ss ts}, Alike .statement ss ts → Alike .statement (s :: ss) (t :: ts)
  body : Alike .statement (asStatements (some s)) (asStatements (some t))
  case : ∀ {ss ts}, Alike .case ss ts → Alike .case (s :: ss) (t :: ts)
  handler : Alike .handler [s] [t]
  operand : Alike .operand [s] [t]

/-- Lists of nodes that are alike anywhere are alike as statements. -/
theorem alike_statements (hall : List.Forall₂ AlikeAnywhere us vs) : Alike .statement us vs := by
  induction hall with
  | nil => exact .nil
  | cons hfirst _ ih => exact hfirst.statement ih

theorem alike_cases (hall : List.Forall₂ AlikeAnywhere us vs) : Alike .case us vs := by
  induction hall with
  | nil => exact .nil
  | cons hfirst _ ih => exact hfirst.case ih

variable {o p : Option Tree}

/-- Bodies that are alike anywhere are alike as statements, whether or not they are blocks. -/
theorem alike_body (hall : List.Forall₂ AlikeAnywhere o.toList p.toList) :
    Alike .statement (asStatements o) (asStatements p) := by
  cases o <;> cases p <;> cases hall
  next => exact .nil
  next hone _ => exact hone.body

theorem alike_handler (hall : List.Forall₂ AlikeAnywhere o.toList p.toList) :
    Alike .handler o.toList p.toList := by
  cases o <;> cases p <;> cases hall
  next => exact .nil
  next hone _ => exact hone.handler

theorem alike_operand (hall : List.Forall₂ AlikeAnywhere o.toList p.toList) :
    Alike .operand o.toList p.toList := by
  cases o <;> cases p <;> cases hall
  next => exact .nil
  next hone _ => exact hone.operand

/-- The parts of a node that is rewritten, once they are alike in every position. -/
structure PartsAlike (s t : Tree) : Prop where
  slot : ∀ slot, slot ≠ .body → List.Forall₂ AlikeAnywhere (s.inSlot slot) (t.inSlot slot)
  body : s.kind ≠ .function → List.Forall₂ AlikeAnywhere s.body.toList t.body.toList
  operand : ∀ u ∈ s.operands, ∀ v, Rewritten u v → AlikeAnywhere u v

/-- An alternative of a ternary stays alike when it is rewritten. -/
theorem Rewritten.alike_operand (hst : Rewritten s t) (hparts : PartsAlike s t) :
    Alike .operand [s] [t] := by
  by_cases hternary : s.kind = .ternary
  · exact .ternary hternary (hst.kind_eq ▸ hternary) hst.shell hst.test
      (Tree.alike_operand (hparts.slot .consequent nofun))
      (Tree.alike_operand (hparts.slot .alternate nofun))
  · exact .leaf hternary (hst.kind_eq ▸ hternary) hst.shell

/-- A statement stays alike when it is rewritten, in front of statements that do. Each kind of
construct is gone into by its own rule. -/
theorem Rewritten.alike_statement (hst : Rewritten s t) (hparts : PartsAlike s t)
    (hrest : Alike .statement us vs) : Alike .statement (s :: us) (t :: vs) := by
  cases hstraight : s.isStraight with
  | true => exact .straight hstraight (hst.isStraight_eq ▸ hstraight) hst.shell hrest
  | false =>
      obtain ⟨c, hc⟩ := isStraight_eq_false_iff.mp hstraight
      cases ofStatement?_eq_some_iff.mp hc with
      | block hkind =>
          exact .block hkind (hst.kind_eq ▸ hkind)
            (alike_statements (hparts.slot .statements nofun)) hrest
      | branch hkind =>
          exact .branch hkind (hst.kind_eq ▸ hkind) hst.shell hst.test
            (alike_body (hparts.slot .consequent nofun))
            (alike_body (hparts.slot .alternate nofun)) hrest
      | loop hcaption =>
          have hne : s.kind ≠ .function := by
            intro hfunction
            rw [hfunction] at hcaption
            cases hcaption
          exact .loop hst.kind_eq hcaption hst.shell hst.test (alike_body (hparts.body hne)) hrest
      | switch hkind =>
          exact .switch hkind (hst.kind_eq ▸ hkind) hst.shell hst.test
            (alike_cases (hparts.slot .cases nofun)) hrest
      | guarded hkind =>
          exact .guarded hkind (hst.kind_eq ▸ hkind) (alike_body (hparts.body (by simp [hkind])))
            (Tree.alike_handler (hparts.slot .handler nofun))
            (alike_body (hparts.slot .finalizer nofun)) hrest
      | @choice u hchoice =>
          have hrel := hst.choice?
          rw [hchoice] at hrel
          generalize ht : t.choice? = choice at hrel
          cases hrel with
          | @some _ v hboth =>
              obtain ⟨hrewritten, ⟨rfl, rfl⟩ | hu⟩ := hboth
              · exact .choice hchoice ht (hst.alike_operand hparts) hrest
              · exact .choice hchoice ht (hparts.operand u hu v hrewritten).operand hrest

/-- A rewritten node whose parts are alike anywhere is alike anywhere. -/
theorem Rewritten.alikeAnywhere (hst : Rewritten s t) (hparts : PartsAlike s t) :
    AlikeAnywhere s t where
  statement hrest := hst.alike_statement hparts hrest
  body := by
    rw [asStatements, asStatements, ← hst.kind_eq]
    split
    next => exact alike_statements (hparts.slot .statements nofun)
    next => exact hst.alike_statement hparts .nil
  case hrest :=
    .case hst.kind_eq hst.shell hst.test hst.parameter
      (alike_statements (hparts.slot .statements nofun)) hrest
  handler := by
    refine .handler hst.kind_eq hst.shell hst.test hst.parameter fun hcaption => ?_
    refine alike_body (hparts.body ?_)
    intro hfunction
    rw [hfunction] at hcaption
    cases hcaption
  operand := hst.alike_operand hparts

/-- To rewrite functions inside a node changes nothing of its skeleton, by induction on the size of
the node. -/
theorem alikeAnywhere_of_rewritten (s : Tree) : ∀ t, Rewritten s t → AlikeAnywhere s t := by
  induction s using everySlot.induct with
  | hnext s ih =>
      intro t hst
      have hbelow (slot : Slot) {us vs : List Tree} (hus : us ⊆ s.inSlot slot)
          (hrewritten : List.Forall₂ Rewritten us vs) : List.Forall₂ AlikeAnywhere us vs := by
        induction hrewritten with
        | nil => exact .nil
        | @cons u v us vs huv _ ihRest =>
            have hmem : u ∈ s.offspring :=
              List.mem_flatMap.mpr ⟨slot, by cases slot <;> decide, hus List.mem_cons_self⟩
            exact .cons (ih u hmem v huv) (ihRest (List.subset_of_cons_subset hus))
      refine hst.alikeAnywhere ⟨fun slot hslot => ?_, fun hkind => ?_, fun u hu => ?_⟩
      · exact hbelow slot (List.Subset.refl _) (hst.slot slot hslot)
      · exact hbelow .body (List.Subset.refl _) (hst.body hkind)
      · exact ih u (List.mem_flatMap.mpr ⟨.operands, by decide, hu⟩)

/-- Functions that differ in the bodies of the functions inside them have the same skeleton. -/
theorem sameSkeleton_of_rewrittenInside {f g : Tree} (hfg : RewrittenInside f g) :
    SameSkeleton f g := by
  have hbody : List.Forall₂ Rewritten f.body.toList g.body.toList := hfg.slots .body
  exact alike_body (hbody.imp fun u v => alikeAnywhere_of_rewritten u v)

end Tree

namespace Analysis

/-- The diagram of a function is that of every function with the same skeleton, or there is none of
either; so other bodies for functions inside it make no difference. -/
theorem diagram_depends_on_skeleton (source : Bytes) (f g : Tree) (name path : Option String) :
    (f.SameSkeleton g →
      (diagram source f name path).result = (diagram source g name path).result) ∧
    (f.RewrittenInside g →
      (diagram source f name path).result = (diagram source g name path).result) := by
  have hskeleton : f.SameSkeleton g →
      (diagram source f name path).result = (diagram source g name path).result := by
    intro halike
    have hagree : (Outline.ofFunction f).emit (Range.text source) =
        (Outline.ofFunction g).emit (Range.text source) := by
      rw [Outline.ofFunction, Outline.ofFunction, Outline.ofBody_eq, Outline.ofBody_eq]
      exact Outline.agree_of_alike halike none
    unfold diagram Flow.Graph.ofFunction Flow.Graph.ofOutline
    rw [hagree]
  exact ⟨hskeleton, fun hinside => hskeleton (Tree.sameSkeleton_of_rewrittenInside hinside)⟩

/-- A part that takes up one byte and holds a function. -/
def holding (ss : List Tree) (start : Int) : Tree :=
  Sketch.stretch .conjunction start (start + 1) { operands := [Sketch.function ss] }

/-- A function around parts that its graph does not go into: a statement, a condition and a
parameter, and what a ternary is made on and chooses from. -/
def around (part : Int → Tree) : Tree :=
  Sketch.function
    [part 0,
     Sketch.stretch .branch 1 4
       { condition := some (part 2), consequent := some (Sketch.block [Sketch.leave]) },
     Sketch.stretch .plain 4 7
       { operands := [Sketch.stretch .ternary 4 7
           { condition := some (part 4), consequent := some (part 5)
             alternate := some (part 6) }] },
     Sketch.stretch .guarded 7 11
       { body := some (part 8)
         handler := some (Sketch.stretch .handler 9 11
           { operands := [part 9], body := some (part 10) }) }]

/-- A part that takes up one byte and holds nothing. -/
def bare (start : Int) : Tree := Sketch.stretch .plain start (start + 1)

theorem around_sameSkeleton (ss : List Tree) :
    (around bare).SameSkeleton (around (holding ss)) := by
  have hshell (n : Int) : Tree.SameShell (bare n) (holding ss n) := ⟨rfl, rfl⟩
  have hsame (t u : Tree) (hplace : t.place.site = u.place.site)
      (hexits : t.head.exits = u.head.exits) : Tree.SameShell t u := ⟨hplace, hexits⟩
  refine .straight rfl rfl (hshell 0) (.branch rfl rfl (hsame _ _ rfl rfl) (.some (hshell 2)) ?_
    .nil (.choice rfl rfl ?_ (.guarded rfl rfl ?_ ?_ .nil .nil)))
  · exact .straight rfl rfl (hsame _ _ rfl rfl) .nil
  · exact .ternary rfl rfl (hsame _ _ rfl rfl) (.some (hshell 4)) (.leaf nofun nofun (hshell 5))
      (.leaf nofun nofun (hshell 6))
  · exact .straight rfl rfl (hshell 8) .nil
  · exact .handler rfl (hsame _ _ rfl rfl) .none (.some (hshell 9))
      fun _ => .straight rfl rfl (hshell 10) .nil

theorem rewrittenInside_holding (ss ts : List Tree) (n : Int) :
    (Sketch.function [holding ss n]).RewrittenInside (Sketch.function [holding ts n]) := by
  have hfunction : Tree.Rewritten (Sketch.function ss) (Sketch.function ts) := by
    refine .mk rfl fun slot hslot => ?_
    cases slot with
    | body => exact absurd ⟨rfl, rfl⟩ hslot
    | _ => exact .nil
  have hholding : Tree.Rewritten (holding ss n) (holding ts n) := by
    refine .mk rfl fun slot _ => ?_
    cases slot with
    | operands => exact .cons hfunction .nil
    | _ => exact .nil
  have hblock : Tree.Rewritten (Sketch.block [holding ss n]) (Sketch.block [holding ts n]) := by
    refine .mk rfl fun slot _ => ?_
    cases slot with
    | statements => exact .cons hholding .nil
    | _ => exact .nil
  refine ⟨rfl, fun slot => ?_⟩
  cases slot with
  | body => exact .cons hblock .nil
  | _ => exact .nil

theorem around_same_diagram :
    (around bare).SameSkeleton (around (holding [Sketch.loop []])) ∧
    (around bare).complexity ≠ (around (holding [Sketch.loop []])).complexity ∧
    (diagram [] (around bare) none none).result =
      (diagram [] (around (holding [Sketch.loop []])) none none).result ∧
    (Sketch.function [holding [] 0]).RewrittenInside
      (Sketch.function [holding [Sketch.loop []] 0]) ∧
    (diagram [] (Sketch.function [holding [] 0]) none none).result.toOption.map
      (·.nodes.length) = some 3 ∧
    (diagram [] (Sketch.function [holding [] 0]) none none).result =
      (diagram [] (Sketch.function [holding [Sketch.loop []] 0]) none none).result := by
  have hskeleton := around_sameSkeleton [Sketch.loop []]
  have hinside := rewrittenInside_holding [] [Sketch.loop []] 0
  exact ⟨hskeleton, by decide +kernel,
    (diagram_depends_on_skeleton [] _ _ none none).1 hskeleton, hinside, by decide +kernel,
    (diagram_depends_on_skeleton [] _ _ none none).2 hinside⟩

end Analysis

end Cyclomatic
