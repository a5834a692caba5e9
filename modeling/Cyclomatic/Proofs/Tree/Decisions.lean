import Cyclomatic.Proofs.Tree.Sketch
import Cyclomatic.Proofs.Tree.Trails

/-! # Decisions of a tree and of its graph

The decisions of a function's graph are the nodes that its outline goes into,
in the order of the tree, up to where the function is left. So the graph never
has more of them than the complexity counts.
-/

namespace Cyclomatic

open Cyclomatic.Flow Cyclomatic.Tree Cyclomatic.Outline

/-- The clauses of a phrase are of the kinds that belong there. -/
def Tree.Phrase.ClausesInPlace : Phrase → Prop
  | .cases ts => ∀ c ∈ ts, c.kind = .case
  | .handler t => ∀ h ∈ t, h.kind = .handler
  | _ => True

namespace Trail

/-- The decisions of an outline are those of the nodes it was made from. Where the
function can be left, what comes after may be missing. -/
structure Agrees {p : Part} (xs : List Trail) (o : Outline p) : Prop where
  captioned : o.captioned = true
  sublist : o.marks.Sublist (marks xs)
  complete : Stays xs → o.mayReturn = false ∧ o.marks = marks xs

variable {p q r : Part} {o : Outline p} {a : Outline q} {b : Outline r} {xs ys zs : List Trail}
  {t : Tree} {ts : List Tree}

/-- What has no decisions on either side agrees. -/
theorem agrees_nil (hcaptioned : o.captioned = true) (hmarks : o.marks = [])
    (hreturn : o.mayReturn = false) (hxs : marks xs = []) : Agrees xs o where
  captioned := hcaptioned
  sublist := by simp [hmarks]
  complete _ := ⟨hreturn, by rw [hmarks, hxs]⟩

/-- A part with one part below it. -/
theorem Agrees.around (ha : Agrees ys a) (own : List Mark)
    (hcaptioned : o.captioned = a.captioned) (hmarks : o.marks = own ++ a.marks)
    (hreturn : o.mayReturn = a.mayReturn) (hxs : marks xs = own ++ marks ys)
    (hstays : Stays xs → Stays ys) : Agrees xs o where
  captioned := by rw [hcaptioned, ha.captioned]
  sublist := by
    rw [hmarks, hxs]
    exact ha.sublist.append_left own
  complete hxsStay := by
    obtain ⟨hareturn, hamarks⟩ := ha.complete (hstays hxsStay)
    exact ⟨by rw [hreturn, hareturn], by rw [hmarks, hxs, hamarks]⟩

/-- A part with two parts below it, both of which are laid down. -/
theorem Agrees.both (ha : Agrees ys a) (hb : Agrees zs b) (own : List Mark)
    (hcaptioned : o.captioned = (a.captioned && b.captioned))
    (hmarks : o.marks = own ++ (a.marks ++ b.marks))
    (hreturn : o.mayReturn = (a.mayReturn || b.mayReturn))
    (hxs : marks xs = own ++ (marks ys ++ marks zs))
    (hstays : Stays xs → Stays ys ∧ Stays zs) : Agrees xs o where
  captioned := by rw [hcaptioned, ha.captioned, hb.captioned, Bool.and_self]
  sublist := by
    rw [hmarks, hxs]
    exact (ha.sublist.append hb.sublist).append_left own
  complete hxsStay := by
    obtain ⟨hysStay, hzsStay⟩ := hstays hxsStay
    obtain ⟨hareturn, hamarks⟩ := ha.complete hysStay
    obtain ⟨hbreturn, hbmarks⟩ := hb.complete hzsStay
    exact ⟨by rw [hreturn, hareturn, hbreturn, Bool.or_self],
      by rw [hmarks, hxs, hamarks, hbmarks]⟩

/-! ## Lists of statements -/

/-- A straight statement of a list from which nothing leaves does not leave the function. -/
theorem Stays.exits (hstays : Stays (statements ts)) (ht : t ∈ ts)
    (hstraight : t.isStraight = true) : t.head.exits = false := by
  have hmem : (⟨t, t.standing⟩ : Trail) ∈ descent.walkFrom (statements ts) := by
    rw [Descent.walkFrom_eq_flatMap]
    exact List.mem_flatMap.mpr ⟨_, List.mem_map_of_mem ht, descent.self_mem_walk _⟩
  exact hstays _ hmem (standing_of_isStraight hstraight)

/-- A run adds no decisions to those of the statements behind it. -/
theorem Agrees.run {first : Tree} {more rest : List Tree} {returns : Bool} {site : Site}
    {count : Nat} {o : Outline .sequence} (hrun : IsRun first more rest returns)
    (ho : Agrees (statements rest) o) :
    Agrees (statements (first :: (more ++ rest))) (.run ⟨site, count, returns⟩ o) := by
  have hmarks : marks (statements (first :: (more ++ rest))) = marks (statements rest) := by
    rw [← List.cons_append, statements_append, marks_append,
      marks_statements_of_isStraight hrun.straight, List.nil_append]
  refine ⟨ho.captioned, ?_, ?_⟩
  · rw [hmarks, Outline.marks]
    split
    next => exact List.nil_sublist _
    next => exact ho.sublist
  · intro hstays
    -- The last statement of the block says whether the function is left there.
    have hreturns : returns = false := by
      rw [← hrun.last]
      have hlast : more.getLastD first ∈ first :: more := by
        rw [List.getLastD_eq_getLast?]
        cases hmore : more.getLast? with
        | none => exact List.mem_cons_self
        | some u => exact List.mem_cons_of_mem _ (List.mem_of_getLast? hmore)
      refine hstays.exits ?_ (hrun.straight _ hlast)
      rw [← List.cons_append]
      exact List.mem_append_left _ hlast
    rw [← List.cons_append, statements_append, stays_append] at hstays
    obtain ⟨hreturn, hexact⟩ := ho.complete hstays.2
    subst hreturns
    exact ⟨hreturn, hexact.trans hmarks.symm⟩

/-- A construct and the statements behind it have the decisions of both. -/
theorem Agrees.step {c : Outline .construct} {rest : List Tree} {line : Int}
    {o : Outline .sequence} (hc : Agrees [⟨t, .entered⟩] c) (ht : t.standing = .entered)
    (ho : Agrees (statements rest) o) : Agrees (statements (t :: rest)) (.step line c o) := by
  have htrails : statements (t :: rest) = [⟨t, .entered⟩] ++ statements rest := by
    rw [statements_cons, ht]
    rfl
  rw [htrails]
  refine ⟨Bool.and_eq_true_iff.mpr ⟨hc.captioned, ho.captioned⟩, ?_, ?_⟩
  · rw [marks_append, Outline.marks]
    refine hc.sublist.append ?_
    split
    next => exact ho.sublist
    next => exact List.nil_sublist _
  · intro hstays
    obtain ⟨hfirst, hrest⟩ := stays_append.mp hstays
    obtain ⟨hcreturn, hcmarks⟩ := hc.complete hfirst
    obtain ⟨horeturn, homarks⟩ := ho.complete hrest
    have hcompletes : c.completes = true := by
      have := completes_or_mayReturn c
      simpa [hcreturn] using this
    constructor
    · simp [Outline.mayReturn, hcreturn, horeturn]
    · rw [marks_append, Outline.marks, if_pos hcompletes, hcmarks, homarks]

/-- A body is one statement, or a block right above its statements. -/
theorem statements_body (body : Option Tree) :
    statements body.toList = statements (asStatements body) ∨
      ∃ t : Tree, t.kind = .block ∧ statements body.toList = [⟨t, .entered⟩] ∧
        next ⟨t, .entered⟩ = statements (asStatements body) := by
  cases body with
  | none => exact .inl rfl
  | some t =>
      by_cases hkind : t.kind = .block
      · have ht : t.standing = .entered := by simp [Tree.standing, isStraight, hkind]
        refine .inr ⟨t, hkind, by simp [ht], ?_⟩
        rw [next_block hkind, asStatements, if_pos hkind]
      · exact .inl (by rw [asStatements, if_neg hkind, Option.toList_some])

/-- A body that is a block has the decisions of its statements. -/
theorem marks_body (body : Option Tree) :
    marks (statements body.toList) = marks (statements (asStatements body)) := by
  rcases statements_body body with heq | ⟨t, hkind, heq, hnext⟩
  · rw [heq]
  · rw [heq, marks_entered, hnext, hkind]
    rfl

theorem stays_body {body : Option Tree} (hstays : Stays (statements body.toList)) :
    Stays (statements (asStatements body)) := by
  rcases statements_body body with heq | ⟨t, _, heq, hnext⟩
  · rwa [heq] at hstays
  · rwa [heq, stays_entered, hnext] at hstays

theorem inPlace_body {body : Option Tree} (hplace : InPlace (statements body.toList)) :
    InPlace (statements (asStatements body)) := by
  rcases statements_body body with heq | ⟨t, _, heq, hnext⟩
  · rwa [heq] at hplace
  · rw [heq, inPlace_entered, hnext] at hplace
    exact hplace.2

theorem Agrees.body {body : Option Tree} {o : Outline .sequence}
    (ho : Agrees (statements (asStatements body)) o) : Agrees (statements body.toList) o :=
  ho.around [] rfl rfl rfl (marks_body body) stays_body

/-! ## Parts that come from one node -/

theorem Agrees.nested {o : Outline .sequence} (hkind : t.kind = .block)
    (ho : Agrees (statements t.statements) o) : Agrees [⟨t, .entered⟩] (.nested o) := by
  refine ho.around [] rfl rfl rfl ?_ ?_
  · simp [marks_entered, hkind, next_block hkind, Caption.ofKind?]
  · simp [stays_entered, next_block hkind]

/-- A guarded block has the decisions of its three parts. -/
theorem Agrees.guarded {body final : Outline .sequence} {handler : Outline .handler}
    (hkind : t.kind = .guarded) (hbody : Agrees (statements t.body.toList) body)
    (hhandler : Agrees (clauses t.handler.toList) handler)
    (hfinal : Agrees (statements t.finalizer.toList) final) :
    Agrees [⟨t, .entered⟩] (.guarded body handler final) := by
  have hxs : marks [⟨t, .entered⟩] = marks (statements t.body.toList) ++
      marks (clauses t.handler.toList) ++ marks (statements t.finalizer.toList) := by
    simp [marks_entered, hkind, next_guarded hkind, Caption.ofKind?]
  refine ⟨?_, ?_, ?_⟩
  · rw [Outline.captioned, hbody.captioned, hhandler.captioned, hfinal.captioned]
    rfl
  · rw [Outline.marks, hxs]
    exact (hbody.sublist.append hhandler.sublist).append hfinal.sublist
  · intro hstays
    rw [stays_entered, next_guarded hkind, stays_append, stays_append] at hstays
    obtain ⟨hbreturn, hbmarks⟩ := hbody.complete hstays.1.1
    obtain ⟨hhreturn, hhmarks⟩ := hhandler.complete hstays.1.2
    obtain ⟨hfreturn, hfmarks⟩ := hfinal.complete hstays.2
    rw [Outline.mayReturn, Outline.marks, hxs, hbreturn, hhreturn, hfreturn, hbmarks, hhmarks,
      hfmarks]
    exact ⟨rfl, rfl⟩

section

variable {d : Decision} (hsite : d.site = t.place.site)
include hsite

/-- A branch is a decision, and has those of its two ways. -/
theorem Agrees.branch {yes no : Outline .sequence} (hkind : t.kind = .branch)
    (hyes : Agrees (statements t.consequent.toList) yes)
    (hno : Agrees (statements t.alternate.toList) no) :
    Agrees [⟨t, .entered⟩] (.branch d yes no) := by
  refine hyes.both hno [⟨.branch, d.site⟩] rfl rfl rfl ?_ ?_
  · simp [marks_entered, hkind, next_branch hkind, Caption.ofKind?, hsite]
  · simp [stays_entered, next_branch hkind]

/-- A loop is a decision, and has those of its body. -/
theorem Agrees.loop {style : Loop} {body : Outline .sequence}
    (hcaption : Caption.ofKind? t.kind = some style.caption)
    (hbody : Agrees (statements t.body.toList) body) :
    Agrees [⟨t, .entered⟩] (.loop style d body) := by
  obtain ⟨before, after, hnext⟩ := next_loop hcaption
  refine hbody.around [⟨style.caption, d.site⟩] rfl rfl rfl ?_ ?_
  · simp [marks_entered, hcaption, hnext, hsite]
  · simp [stays_entered, hnext]

/-- A multiway branch is a decision, and has those of its cases. -/
theorem Agrees.switch {cases : Outline .cases} (hkind : t.kind = .switch)
    (hcases : Agrees (clauses t.cases) cases) : Agrees [⟨t, .entered⟩] (.switch d cases) := by
  refine hcases.around [⟨.switch, d.site⟩] rfl rfl rfl ?_ ?_
  · simp [marks_entered, hkind, next_switch hkind, Caption.ofKind?, hsite]
  · simp [stays_entered, next_switch hkind]

/-- A case is a decision, and has those of its statements. The cases behind it come after. -/
theorem Agrees.case {test : Option Range} {body : Outline .sequence} {rest : Outline .cases}
    (hkind : t.kind = .case) (hbody : Agrees (statements t.statements) body)
    (hrest : Agrees (clauses ts) rest) :
    Agrees (clauses (t :: ts)) (.case t.kind d test body rest) := by
  have hcons : clauses (t :: ts) = [⟨t, .entered⟩] ++ clauses ts := rfl
  refine hbody.both hrest [⟨.case, d.site⟩] ?_ ?_ rfl ?_ ?_
  · simp [Outline.captioned, hkind, Caption.ofKind?]
  · simp [Outline.marks, clauseMark, hkind, Caption.ofKind?]
  · rw [hcons, marks_append, marks_entered, next_case hkind]
    simp [hkind, Caption.ofKind?, hsite]
  · rw [hcons, stays_append, stays_entered, next_case hkind, stays_append]
    exact fun hstays => ⟨hstays.1.2, hstays.2⟩

/-- A handler is a decision, and has those of its body. -/
theorem Agrees.catch {body : Outline .sequence} (hkind : t.kind = .handler)
    (hbody : Agrees (statements t.body.toList) body) :
    Agrees [⟨t, .entered⟩] (.catch t.kind d body) := by
  refine hbody.around [⟨.handler, d.site⟩] ?_ ?_ rfl ?_ ?_
  · simp [Outline.captioned, hkind, Caption.ofKind?]
  · simp [Outline.marks, clauseMark, hkind, Caption.ofKind?]
  · simp [marks_entered, hkind, next_handler hkind, Caption.ofKind?, hsite]
  · simp [stays_entered, next_handler hkind]

/-- A ternary is laid down in the same way as a statement and as an operand. -/
theorem Agrees.ternary {yes no : Outline .operand} (hkind : t.kind = .ternary)
    (hyes : Agrees (operands t.consequent.toList) yes)
    (hno : Agrees (operands t.alternate.toList) no)
    (hcaptioned : o.captioned = true) (hreturn : o.mayReturn = false)
    (hmarks : o.marks = ⟨.ternary, d.site⟩ :: (yes.marks ++ no.marks)) :
    Agrees [⟨t, .entered⟩] o := by
  refine hyes.both hno [⟨.ternary, d.site⟩] ?_ hmarks ?_ ?_ ?_
  · rw [hcaptioned, captioned_operand, captioned_operand, Bool.and_self]
  · simp [hreturn]
  · simp [marks_entered, hkind, next_ternary hkind, Caption.ofKind?, hsite]
  · simp [stays_entered, next_ternary hkind]

end

/-- A statement that is nothing but a ternary agrees where the ternary does. -/
theorem Agrees.choice {u : Tree} (hchoice : t.choice? = some u) (hu : Agrees [⟨u, .entered⟩] o) :
    Agrees [⟨t, .entered⟩] o := by
  rcases choice?_of_kind hchoice with hkind | hkind
  · have htu : t = u := by simpa [choice?, hkind] using hchoice
    rwa [htu]
  · refine hu.around [] rfl rfl rfl ?_ ?_
    · simp [marks_entered, hkind, next_choice hkind hchoice, Caption.ofKind?]
    · simp [stays_entered, next_choice hkind hchoice]

theorem inPlace_choice {u : Tree} (hchoice : t.choice? = some u)
    (hplace : InPlace [⟨t, .entered⟩]) : InPlace [⟨u, .entered⟩] := by
  rcases choice?_of_kind hchoice with hkind | hkind
  · have htu : t = u := by simpa [choice?, hkind] using hchoice
    rwa [← htu]
  · rw [inPlace_entered, next_choice hkind hchoice] at hplace
    exact hplace.2

/-! ## Outlines with what they are made from -/

/-- What a walk goes through for a phrase. -/
def ofPhrase : Phrase → List Trail
  | .statements ts => statements ts
  | .statement t => [⟨t, .entered⟩]
  | .operand t => operands t.toList
  | .cases ts => clauses ts
  | .handler t => clauses t.toList

theorem operands_ternary (hkind : t.kind = .ternary) : operands [t] = [⟨t, .entered⟩] := by
  simp [operands, operandStanding, hkind]

theorem operands_leaf (hkind : t.kind ≠ .ternary) : operands [t] = asides [t] := by
  simp [operands, operandStanding, asides, hkind]

/-- What an outline lays down agrees with what it is made from. -/
theorem agrees_of_outlined {phrase : Phrase} (houtlined : phrase.Outlined o)
    (hclauses : phrase.ClausesInPlace) (hplace : InPlace (ofPhrase phrase)) :
    Agrees (ofPhrase phrase) o := by
  induction o generalizing phrase with
  | done =>
      cases houtlined with
      | statements hsplits =>
          cases hsplits
          exact agrees_nil rfl rfl rfl marks_nil
  | run r rest ih =>
      cases houtlined with
      | statements hsplits =>
          cases hsplits with
          | run hrun =>
              rw [ofPhrase, ← List.cons_append, statements_append, inPlace_append] at hplace
              exact .run hrun (ih (outlined_statements _) trivial hplace.2)
  | step line construct rest ihFirst ihRest =>
      cases houtlined with
      | statements hsplits =>
          cases hsplits with
          | @step t rest _ hopens =>
              have hstraight : t.isStraight = false :=
                isStraight_eq_false_iff.mpr ⟨_, ofStatement?_eq_some_iff.mpr hopens⟩
              have ht : t.standing = .entered := by simp [Tree.standing, hstraight]
              have hsplit : statements (t :: rest) = [⟨t, .entered⟩] ++ statements rest := by
                rw [statements_cons, ht]
                rfl
              rw [ofPhrase, hsplit, inPlace_append] at hplace
              exact .step (ihFirst (.statement hopens) trivial hplace.1) ht
                (ihRest (outlined_statements _) trivial hplace.2)
  | nested inner ih =>
      cases houtlined with
      | statement hopens =>
          cases hopens with
          | block hkind =>
              rw [ofPhrase, inPlace_entered, next_block hkind] at hplace
              exact .nested hkind (ih (outlined_statements _) trivial hplace.2)
  | branch d yes no ihYes ihNo =>
      cases houtlined with
      | statement hopens =>
          cases hopens with
          | branch hkind =>
              rw [ofPhrase, inPlace_entered, next_branch hkind, inPlace_append,
                inPlace_append] at hplace
              obtain ⟨_, ⟨_, hyes⟩, hno⟩ := hplace
              exact .branch rfl hkind
                (ihYes (outlined_statements _) trivial (inPlace_body hyes)).body
                (ihNo (outlined_statements _) trivial (inPlace_body hno)).body
  | loop style d body ih =>
      cases houtlined with
      | statement hopens =>
          cases hopens with
          | loop hcaption =>
              obtain ⟨before, after, hnext⟩ := next_loop hcaption
              rw [ofPhrase, inPlace_entered, hnext, inPlace_append, inPlace_append] at hplace
              obtain ⟨_, ⟨_, hbody⟩, _⟩ := hplace
              exact .loop rfl hcaption
                (ih (outlined_statements _) trivial (inPlace_body hbody)).body
  | choice d yes no ihYes ihNo =>
      cases houtlined with
      | statement hopens =>
          cases hopens with
          | @choice u hchoice =>
              have hkind := kind_of_choice? hchoice
              have hinner := inPlace_choice hchoice hplace
              rw [inPlace_entered, next_ternary hkind, inPlace_append, inPlace_append] at hinner
              obtain ⟨_, ⟨_, hyes⟩, hno⟩ := hinner
              exact .choice hchoice (.ternary rfl hkind (ihYes (outlined_operand _) trivial hyes)
                (ihNo (outlined_operand _) trivial hno) rfl rfl rfl)
  | switch d cases ih =>
      cases houtlined with
      | statement hopens =>
          cases hopens with
          | switch hkind =>
              rw [ofPhrase, inPlace_entered, next_switch hkind, inPlace_append] at hplace
              obtain ⟨hself, _, hcases⟩ := hplace
              exact .switch rfl hkind (ih (outlined_cases _) (hself.cases hkind) hcases)
  | guarded body handler final ihBody ihHandler ihFinal =>
      cases houtlined with
      | statement hopens =>
          cases hopens with
          | guarded hkind =>
              rw [ofPhrase, inPlace_entered, next_guarded hkind, inPlace_append,
                inPlace_append] at hplace
              obtain ⟨hself, ⟨hbody, hhandler⟩, hfinal⟩ := hplace
              rw [ofBody_eq] at ihBody ihFinal
              rw [ofBody_eq, ofBody_eq]
              exact .guarded hkind
                (ihBody (outlined_statements _) trivial (inPlace_body hbody)).body
                (ihHandler (outlined_handler _) (hself.handler hkind) hhandler)
                (ihFinal (outlined_statements _) trivial (inPlace_body hfinal)).body
  | noCase | noHandler | absent =>
      cases houtlined
      exact agrees_nil rfl rfl rfl marks_nil
  | case kind d test body rest ihBody ihRest =>
      cases houtlined with
      | case =>
          obtain ⟨hkind, hkinds⟩ := List.forall_mem_cons.mp hclauses
          obtain ⟨_, hbody, hrest⟩ := inPlace_cons.mp hplace
          rw [next_case hkind, inPlace_append] at hbody
          exact .case rfl hkind (ihBody (outlined_statements _) trivial hbody.2)
            (ihRest (outlined_cases _) hkinds hrest)
  | «catch» kind d body ih =>
      cases houtlined with
      | @«catch» t =>
          have hkind : t.kind = .handler := hclauses t rfl
          have hself : ofPhrase (.handler (some t)) = [⟨t, .entered⟩] := rfl
          rw [hself, inPlace_entered, next_handler hkind, inPlace_append] at hplace
          obtain ⟨_, _, hbody⟩ := hplace
          exact .catch rfl hkind (ih (outlined_statements _) trivial (inPlace_body hbody)).body
  | leaf site =>
      cases houtlined with
      | @leaf t hkind =>
          have hself : ofPhrase (.operand (some t)) = asides [t] := operands_leaf hkind
          rw [hself]
          exact agrees_nil rfl rfl rfl (marks_asides [t])
  | ternary d yes no ihYes ihNo =>
      cases houtlined with
      | @ternary t hkind =>
          have hself : ofPhrase (.operand (some t)) = [⟨t, .entered⟩] := operands_ternary hkind
          rw [hself] at hplace ⊢
          rw [inPlace_entered, next_ternary hkind, inPlace_append, inPlace_append] at hplace
          obtain ⟨_, ⟨_, hyes⟩, hno⟩ := hplace
          exact .ternary rfl hkind (ihYes (outlined_operand _) trivial hyes)
            (ihNo (outlined_operand _) trivial hno) rfl rfl rfl

/-- The outline of a function has the decisions of the function, if its clauses are in place. -/
theorem agrees_function (hkind : t.kind = .function) (hplace : InPlace [⟨t, .entered⟩]) :
    Agrees [⟨t, .entered⟩] (Outline.ofFunction t) := by
  rw [Outline.ofFunction, ofBody_eq]
  rw [inPlace_entered, next_function hkind, inPlace_append] at hplace
  obtain ⟨_, _, hbody⟩ := hplace
  refine (agrees_of_outlined (outlined_statements _) trivial (inPlace_body hbody)).body.around []
    rfl rfl rfl ?_ ?_
  · simp [marks_entered, hkind, next_function hkind, Caption.ofKind?]
  · simp [stays_entered, next_function hkind]

/-! ## Counting -/

/-- All kinds that add a path have a caption, except for operators. -/
theorem isSome_ofKind? {kind : Kind} (hdecides : kind.decides = true) (hand : kind ≠ .conjunction)
    (hor : kind ≠ .disjunction) : (Caption.ofKind? kind).isSome = true := by
  cases kind with
  | conjunction => exact absurd rfl hand
  | disjunction => exact absurd rfl hor
  | _ => first | rfl | cases hdecides

/-- There are clauses in two slots only. -/
theorem role_eq_clause {kind : Kind} {slot : Slot} (hrole : kind.role slot = .clause) :
    kind = .switch ∧ slot = .cases ∨ kind = .guarded ∧ slot = .handler := by
  unfold Kind.role at hrole
  split at hrole
  case h_12 => exact .inl ⟨rfl, rfl⟩
  case h_13 => exact .inr ⟨rfl, rfl⟩
  all_goals cases hrole

/-- A decision that an outline goes into has a caption. -/
theorem isSome_caption_of_entered {child : Tree} {slot : Slot} (hplace : t.ClausesInPlace)
    (hchild : child ∈ t.inSlot slot) (hentered : child.standingAs (t.kind.role slot) = .entered)
    (hdecides : child.kind.decides = true) : (Caption.ofKind? child.kind).isSome = true := by
  cases hrole : t.kind.role slot with
  | statement =>
      rw [hrole, Tree.standingAs, Tree.standing, ite_eq_right_iff] at hentered
      have hstraight : child.isStraight ≠ true := fun h => Standing.noConfusion (hentered h)
      apply isSome_ofKind? hdecides
      · intro hkind
        simp [isStraight, choice?, hkind] at hstraight
      · intro hkind
        simp [isStraight, choice?, hkind] at hstraight
  | clause =>
      rcases role_eq_clause hrole with ⟨hkind, rfl⟩ | ⟨hkind, rfl⟩
      · rw [hplace.cases hkind child hchild]
        rfl
      · rw [hplace.handler hkind child (by simpa [Tree.inSlot] using hchild)]
        rfl
  | operand =>
      rw [hrole, Tree.standingAs, Tree.operandStanding] at hentered
      split at hentered
      next hkind =>
        rw [hkind]
        rfl
      next => cases hentered
  | aside =>
      rw [hrole] at hentered
      cases hentered

/-- What an outline goes into, and what adds a path, has a caption. Operators are never gone
into. -/
theorem isSome_caption_of_mem_next {x y : Trail} (hplace : x.node.ClausesInPlace)
    (hy : y ∈ x.next) (hentered : y.standing = .entered) (hdecides : y.node.kind.decides = true) :
    (Caption.ofKind? y.node.kind).isSome = true := by
  obtain ⟨⟨slot, child⟩, hmem, rfl⟩ := List.mem_map.mp hy
  have hchild : child ∈ x.node.inSlot slot := by
    obtain ⟨_, _, hslot⟩ := List.mem_flatMap.mp hmem
    obtain ⟨_, hu, heq⟩ := List.mem_map.mp hslot
    cases heq
    exact hu
  by_cases hx : x.standing = .entered
  · have hstanding : child.standingAs (x.node.kind.role slot) = .entered := by
      simpa [hx] using hentered
    exact isSome_caption_of_entered hplace hchild hstanding hdecides
  · simp [hx] at hentered

/-- Whether a node becomes a decision that a path is counted for. -/
def branches (x : Trail) : Bool := (x.mark?.map Mark.branches).getD false

/-- The decisions that paths are counted for come from the nodes that become such decisions. -/
theorem countP_marks (t : Tree) :
    (marks [⟨t, .entered⟩]).countP Mark.branches = t.trails.countP branches :=
  List.countP_filterMap

theorem decides_of_branches {x : Trail} (hx : x.branches = true) :
    x.node.kind.decides = true := by
  unfold branches mark? at hx
  split at hx
  next => cases hkind : x.node.kind <;> simp_all [Caption.ofKind?, Kind.decides, Mark.branches]
  next => cases hx

theorem branches_of_decides {x : Trail} (hentered : x.standing = .entered)
    (hcaption : (Caption.ofKind? x.node.kind).isSome = true)
    (hdecides : x.node.kind.decides = true) : x.branches = true := by
  unfold branches mark?
  rw [if_pos hentered]
  cases hkind : x.node.kind <;> simp_all [Caption.ofKind?, Kind.decides, Mark.branches]

/-- The decision points of a function are counted on its trails. -/
theorem countP_decides (t : Tree) :
    t.trails.countP (·.node.kind.decides) = t.decisionPoints := by
  rw [decisionPoints, ← map_node_trails, List.countP_map]
  rfl

end Trail

namespace Flow.Graph

/-- The number of decisions of a graph, multiway branches left out. -/
def branchings (g : Graph) : Nat := g.marks.countP Mark.branches

/-- A function's graph has at most as many decisions as the complexity counts, and as
many if nothing leaves the function and every decision is one that the outline goes into. -/
theorem branchings_le_complexity {t : Tree} (hkind : t.kind = .function)
    (hplace : ∀ n ∈ t.nodes, n.ClausesInPlace) (source : Bytes) :
    ∃ g, ofFunction source t = .ok g ∧ g.branchings ≤ t.complexity - 1 ∧
      ((∀ x ∈ t.trails, x.standing = .passed → x.node.head.exits = false) →
        (∀ x ∈ t.trails, x.node.kind.decides = true → x.standing = .entered) →
        g.branchings = t.complexity - 1) := by
  have hnode {x : Trail} (hx : x ∈ t.trails) : x.node.ClausesInPlace := by
    apply hplace
    rw [← map_node_trails]
    exact List.mem_map_of_mem hx
  have hagrees := Trail.agrees_function hkind fun x hx _ => hnode hx
  obtain ⟨g, hg, hmarks⟩ := exists_ofFunction hagrees.captioned source
  have hscore : t.complexity - 1 = t.decisionPoints := Nat.add_sub_cancel_left 1 _
  refine ⟨g, hg, ?_, ?_⟩
  · calc g.branchings
        ≤ (Trail.marks [⟨t, .entered⟩]).countP Mark.branches := by
          rw [branchings, hmarks]
          exact hagrees.sublist.countP_le
      _ = t.trails.countP Trail.branches := Trail.countP_marks t
      _ ≤ t.trails.countP (·.node.kind.decides) :=
          List.countP_mono_left fun x _ => Trail.decides_of_branches
      _ = t.complexity - 1 := by rw [Trail.countP_decides, hscore]
  · intro hstays hentered
    -- An outline goes into no decision without a caption, so all of them are counted.
    have hcaption : ∀ x ∈ t.trails, x.standing = .entered → x.node.kind.decides = true →
        (Caption.ofKind? x.node.kind).isSome = true := by
      refine Trail.descent.forall_mem_walk (P := fun x => x.standing = .entered →
        x.node.kind.decides = true → (Caption.ofKind? x.node.kind).isSome = true) ?_ ?_
      · intro _ hdecides
        simp [hkind, Kind.decides] at hdecides
      · intro x hx _ y hy hstanding
        exact Trail.isSome_caption_of_mem_next (hnode hx) hy hstanding
    rw [hscore, branchings, hmarks, (hagrees.complete hstays).2, Trail.countP_marks,
      ← Trail.countP_decides]
    refine List.countP_congr fun x hx => ⟨Trail.decides_of_branches, fun hdecides => ?_⟩
    have hstanding := hentered x hx hdecides
    exact Trail.branches_of_decides hstanding (hcaption x hx hstanding hdecides) hdecides

/-- A loop around a multiway branch, one case of which branches, and then a guarded statement. -/
def switchInLoop : Tree :=
  Sketch.function
    [Sketch.loop [Sketch.switch [[Sketch.branch [Sketch.statement] []], [Sketch.statement]]],
      Sketch.guarded [Sketch.statement] (some [Sketch.statement]) none]

theorem switchInLoop_branchings :
    (∀ n ∈ switchInLoop.nodes, n.ClausesInPlace) ∧ switchInLoop.complexity = 6 ∧
      ∃ g, ofFunction [] switchInLoop = .ok g ∧ g.branchings = 5 := by
  have hplace : ∀ n ∈ switchInLoop.nodes, n.ClausesInPlace := by decide +kernel
  have hcomplexity : switchInLoop.complexity = 6 := by decide +kernel
  obtain ⟨g, hg, _, hcount⟩ := branchings_le_complexity rfl hplace []
  refine ⟨hplace, hcomplexity, g, hg, ?_⟩
  rw [hcount (by decide +kernel) (by decide +kernel), hcomplexity]

end Flow.Graph

end Cyclomatic
