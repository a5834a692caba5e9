import Cyclomatic.Proofs.Flow.Shape

/-! # How a tree is outlined

A statement of a tree opens a construct of the outline, or it goes straight on
and becomes part of a run. What a list of statements, an operand of a ternary or
a list of cases is outlined as is told here by cases, and every construct of the
outline is traced back to the statement that opens it.
-/

namespace Cyclomatic

open Cyclomatic.Flow

namespace Tree

/-- The ternary that a statement is, or is all there is to. -/
def choice? (t : Tree) : Option Tree :=
  match t.kind with
  | .ternary => some t
  | .plain =>
      match t.operands with
      | [u] => if t.head.exits = false ∧ u.kind = .ternary then some u else none
      | _ => none
  | _ => none

/-- A statement that control goes straight through. -/
def isStraight (t : Tree) : Bool :=
  match t.kind with
  | .block | .branch | .whileLoop | .doLoop | .forLoop | .switch | .guarded => false
  | _ => t.choice?.isNone

/-- Straight-line statements that make up one block, at the front of a list: nothing
before the last one leaves the function, and if that does not either, the block goes
as far as it can. -/
structure IsRun (first : Tree) (more rest : List Tree) (returns : Bool) : Prop where
  straight : ∀ t ∈ first :: more, t.isStraight = true
  inner : ∀ t ∈ (first :: more).dropLast, t.head.exits = false
  last : (more.getLastD first).head.exits = returns
  maximal : returns = false → ∀ t ∈ rest.head?, t.isStraight = false

/-- A run without its first statement is a run. -/
theorem IsRun.tail {first u : Tree} {more rest : List Tree} {returns : Bool}
    (hrun : IsRun first (u :: more) rest returns) : IsRun u more rest returns where
  straight t ht := hrun.straight t (List.mem_cons_of_mem _ ht)
  inner t ht := hrun.inner t (List.mem_cons_of_mem _ ht)
  last := by rw [← hrun.last, List.getLastD_cons]
  maximal := hrun.maximal

/-- From the start of one statement to the end of another. -/
def extent (first last : Tree) : Site :=
  ⟨⟨first.place.startByte, last.place.endByte⟩, first.place.startLine, last.place.endLine⟩

/-- The number of blocks and decisions that can be met in a list of statements. -/
def nodeCount (ts : List Tree) : Nat := (Outline.ofStatements none ts).laid

/-- The number of vertices of an operand of a ternary. -/
def operandCount (t : Option Tree) : Nat := (Outline.ofOperand t).laid

/-- What has an outline of its own: a list of statements, a statement that is not straight, an
operand of a ternary, the cases of a multiway branch, or a handler. -/
inductive Phrase where
  | statements (ts : List Tree)
  | statement (t : Tree)
  | operand (t : Option Tree)
  | cases (ts : List Tree)
  | handler (t : Option Tree)

end Tree

namespace Outline

open Cyclomatic.Tree

/-- The outline of a ternary that is a statement. -/
def ofChoice (u : Tree) : Outline .construct :=
  .choice (decision u.head u.condition u.operands) (ofOperand u.consequent) (ofOperand u.alternate)

theorem soleChoice?_singleton (u : Tree) :
    soleChoice? [u] = if u.kind = .ternary then some (ofChoice u) else none := by
  obtain ⟨head, c, q, a, b, h, f, v, ss, cs, os⟩ := u
  rw [soleChoice?]
  rfl

/-- A plain statement is all a ternary if a ternary is its only operand and it does not leave the
function. -/
theorem map_choice?_plain {t : Tree} (hkind : t.kind = .plain) :
    t.choice?.map ofChoice = if t.head.exits then none else soleChoice? t.operands := by
  rw [choice?, hkind]
  match t.operands with
  | [] => simp [soleChoice?]
  | [u] =>
      rw [soleChoice?_singleton]
      cases t.head.exits <;> by_cases hu : u.kind = .ternary <;> simp [hu]
  | _ :: _ :: _ => simp [soleChoice?]

/-- The construct that a statement opens, by the kind of the statement. -/
theorem ofStatement?_eq (t : Tree) : ofStatement? t =
    match t.kind with
    | .block => some (.nested (ofStatements none t.statements))
    | .branch => some (.branch (decision t.head t.condition t.operands) (ofBody t.consequent)
        (ofBody t.alternate))
    | .whileLoop => some (.loop .pretest (decision t.head t.condition t.operands) (ofBody t.body))
    | .doLoop => some (.loop .posttest (decision t.head t.condition t.operands) (ofBody t.body))
    | .forLoop => some (.loop .counting (decision t.head t.condition t.operands) (ofBody t.body))
    | .switch => some (.switch (decision t.head t.condition t.operands) (ofCases t.cases))
    | .guarded => some (.guarded (ofBody t.body) (ofHandler t.handler) (ofBody t.finalizer))
    | _ => t.choice?.map ofChoice := by
  obtain ⟨head, c, q, a, b, h, f, v, ss, cs, os⟩ := t
  rw [ofStatement?]
  cases hkind : head.kind with
  | plain =>
      have hplain : (Tree.node head c q a b h f v ss cs os).kind = .plain := hkind
      simp only [hplain]
      exact (map_choice?_plain hplain).symm
  | _ => simp [Tree.kind, Tree.head, choice?, hkind, Tree.condition, Tree.operands, ofChoice,
      Tree.statements, Tree.consequent, Tree.alternate, Tree.body, Tree.cases, Tree.handler,
      Tree.finalizer]

/-- A statement opens a construct exactly if it is not straight. -/
theorem isSome_ofStatement? (t : Tree) : (ofStatement? t).isSome = !t.isStraight := by
  rw [ofStatement?_eq, isStraight]
  cases hkind : t.kind with
  | _ => simp

theorem ofStatements_nil (pending : Option Run) :
    ofStatements pending [] = flush pending .done := by
  rw [ofStatements]

/-- A construct ends the run before it. -/
theorem ofStatements_cons_construct {t : Tree} {c : Outline .construct}
    (ht : ofStatement? t = some c) (pending : Option Run) (ts : List Tree) :
    ofStatements pending (t :: ts) =
      flush pending (.step t.place.startLine c (ofStatements none ts)) := by
  rw [ofStatements, ht]

theorem ofStatement?_eq_none {t : Tree} (ht : t.isStraight = true) : ofStatement? t = none := by
  rw [← Option.not_isSome_iff_eq_none, isSome_ofStatement?, ht]
  simp

/-- A straight statement is added to the pending run. If it leaves the function the run ends with
it. -/
theorem ofStatements_cons_straight {t : Tree} (ht : t.isStraight = true) (pending : Option Run)
    (ts : List Tree) :
    ofStatements pending (t :: ts) =
      if t.head.exits then
        .run { Run.extend pending t.place with returns := true } (ofStatements none ts)
      else ofStatements (some (Run.extend pending t.place)) ts := by
  rw [ofStatements, ofStatement?_eq_none ht]

/-- A body is outlined as the list of its statements. -/
theorem ofBody_eq (t : Option Tree) : ofBody t = ofStatements none (asStatements t) := by
  match t with
  | none => rw [ofBody, asStatements, ofStatements_nil]; rfl
  | some (.node head c q a b h f v ss cs os) =>
      rw [ofBody, asStatements]
      by_cases hkind : head.kind = .block
      · rw [if_pos hkind]
        exact (congrArg _ (if_pos hkind)).symm
      · rw [if_neg hkind]
        have hlist : (if (Tree.node head c q a b h f v ss cs os).kind = .block then
            (Tree.node head c q a b h f v ss cs os).statements
            else [.node head c q a b h f v ss cs os]) = [.node head c q a b h f v ss cs os] :=
          if_neg hkind
        rw [hlist, ofStatements]
        cases ofStatement? (.node head c q a b h f v ss cs os) with
        | some c => rw [ofStatements_nil]; rfl
        | none =>
            simp only [ofStatements_nil, last, Tree.head]
            cases head.exits <;> rfl

/-- A run that cannot go on is closed. -/
theorem ofStatements_some {rest : List Tree} (hrest : ∀ t ∈ rest.head?, t.isStraight = false)
    (r : Run) : ofStatements (some r) rest = .run r (ofStatements none rest) := by
  cases rest with
  | nil =>
      rw [ofStatements_nil, ofStatements_nil]
      rfl
  | cons t ts =>
      have hsome : (ofStatement? t).isSome = true := by
        rw [isSome_ofStatement?, hrest t rfl]
        rfl
      obtain ⟨c, hc⟩ := Option.isSome_iff_exists.mp hsome
      rw [ofStatements_cons_construct hc, ofStatements_cons_construct hc]
      rfl

/-- Statements that make up one block become one run. -/
theorem ofStatements_run {first : Tree} {more rest : List Tree} {returns : Bool}
    (hrun : IsRun first more rest returns) (pending : Option Run) :
    ∃ count, ofStatements pending (first :: (more ++ rest)) =
      .run ⟨⟨⟨(Run.extend pending first.place).site.range.start,
        (more.getLastD first).place.endByte⟩, (Run.extend pending first.place).site.line,
        (more.getLastD first).place.endLine⟩, count, returns⟩ (ofStatements none rest) := by
  -- The pending run keeps the start; each further statement moves the end.
  induction more generalizing first pending with
  | nil =>
      refine ⟨(Run.extend pending first.place).count, ?_⟩
      rw [List.nil_append, ofStatements_cons_straight (hrun.straight first (by simp))]
      have hexits : first.head.exits = returns := hrun.last
      cases returns with
      | false =>
          rw [if_neg (by simp [hexits]), ofStatements_some (hrun.maximal rfl)]
          cases pending <;> rfl
      | true =>
          rw [if_pos hexits]
          cases pending <;> rfl
  | cons u more ih =>
      have hexits : first.head.exits = false := hrun.inner first (by simp)
      obtain ⟨count, hcount⟩ := ih hrun.tail (some (Run.extend pending first.place))
      refine ⟨count, ?_⟩
      rw [ofStatements_cons_straight (hrun.straight first (by simp)), if_neg (by simp [hexits]),
        List.cons_append, hcount, List.getLastD_cons]
      rfl

/-- A statement that opens a construct lays down what the construct does. -/
theorem laid_ofStatements_singleton {t : Tree} {c : Outline .construct}
    (ht : ofStatement? t = some c) : nodeCount [t] = c.laid := by
  rw [nodeCount, ofStatements_cons_construct ht, ofStatements_nil]
  simp [flush, laid]

theorem allTested_ofCases {ts : List Tree} :
    allTested (ofCases ts) = true ↔ ∀ c ∈ ts, c.condition.isSome := by
  induction ts with
  | nil =>
      rw [ofCases]
      simp [allTested]
  | cons t ts ih =>
      obtain ⟨head, c, q, a, b, h, f, v, ss, cs, os⟩ := t
      rw [ofCases, allTested, Bool.and_eq_true, ih, List.forall_mem_cons]
      simp [Tree.condition]

theorem ofCases_cons (t : Tree) (ts : List Tree) : ofCases (t :: ts) =
    .case t.kind (decision t.head t.condition t.operands) (t.condition.map (·.range))
      (ofStatements none t.statements) (ofCases ts) := by
  obtain ⟨head, c, q, a, b, h, f, v, ss, cs, os⟩ := t
  rw [ofCases]
  rfl

theorem ofOperand_some (t : Tree) : ofOperand (some t) =
    if t.kind = .ternary then .ternary (decision t.head t.condition t.operands)
      (ofOperand t.consequent) (ofOperand t.alternate)
    else .leaf t.place.site := by
  obtain ⟨head, c, q, a, b, h, f, v, ss, cs, os⟩ := t
  rw [ofOperand]
  rfl

theorem ofHandler_some (h : Tree) : ofHandler (some h) =
    .catch h.kind (decision h.head h.condition h.operands)
      (ofStatements none (asStatements h.body)) := by
  rw [← ofBody_eq]
  obtain ⟨head, c, q, a, b, h, f, v, ss, cs, os⟩ := h
  rw [ofHandler]
  rfl

/-- A caption is given for a kind exactly if the kind has one. -/
theorem captionOf_eq_ok_iff {kind : Kind} {caption : Caption} :
    captionOf kind = .ok caption ↔ Caption.ofKind? kind = some caption := by
  unfold captionOf
  split <;> simp_all

end Outline

namespace Tree

open Outline

/-- The construct that a statement opens, by what the statement is. -/
inductive Opens (t : Tree) : Outline .construct → Prop
  | block (hkind : t.kind = .block) : Opens t (.nested (ofStatements none t.statements))
  | branch (hkind : t.kind = .branch) :
      Opens t (.branch (decision t.head t.condition t.operands)
        (ofStatements none (asStatements t.consequent))
        (ofStatements none (asStatements t.alternate)))
  | loop {style : Loop} (hcaption : Caption.ofKind? t.kind = some style.caption) :
      Opens t (.loop style (decision t.head t.condition t.operands)
        (ofStatements none (asStatements t.body)))
  | choice {u : Tree} (hchoice : t.choice? = some u) :
      Opens t (.choice (decision u.head u.condition u.operands) (ofOperand u.consequent)
        (ofOperand u.alternate))
  | switch (hkind : t.kind = .switch) :
      Opens t (.switch (decision t.head t.condition t.operands) (ofCases t.cases))
  | guarded (hkind : t.kind = .guarded) :
      Opens t (.guarded (ofBody t.body) (ofHandler t.handler) (ofBody t.finalizer))

/-- A loop has its style by its kind. -/
theorem kind_of_loop_caption {kind : Kind} {style : Loop}
    (hcaption : Caption.ofKind? kind = some style.caption) :
    kind = .whileLoop ∧ style = .pretest ∨ kind = .doLoop ∧ style = .posttest ∨
      kind = .forLoop ∧ style = .counting := by
  cases kind <;> cases style <;> simp_all [Caption.ofKind?, Loop.caption]

theorem exists_caption_eq {caption : Caption} (hloop : caption.isLoop = true) :
    ∃ style : Loop, style.caption = caption := by
  cases caption with
  | whileLoop => exact ⟨.pretest, rfl⟩
  | doLoop => exact ⟨.posttest, rfl⟩
  | forLoop => exact ⟨.counting, rfl⟩
  | _ => cases hloop

theorem isLoop_caption (style : Loop) : style.caption.isLoop = true := by
  cases style <;> rfl

theorem choice?_of_kind {t u : Tree} (hchoice : t.choice? = some u) :
    t.kind = .ternary ∨ t.kind = .plain := by
  unfold choice? at hchoice
  split at hchoice
  next hkind => exact .inl hkind
  next hkind => exact .inr hkind
  next => cases hchoice

/-- What a statement opens is told by its kind and by what is in its slots, one way for each. -/
theorem ofStatement?_eq_some_iff {t : Tree} {c : Outline .construct} :
    ofStatement? t = some c ↔ Opens t c := by
  constructor
  · intro hsome
    rw [ofStatement?_eq] at hsome
    simp only [ofBody_eq] at hsome
    split at hsome
    next hkind =>
      cases hsome
      exact .block hkind
    next hkind =>
      cases hsome
      exact .branch hkind
    next hkind =>
      cases hsome
      exact .loop (by rw [hkind]; rfl)
    next hkind =>
      cases hsome
      exact .loop (by rw [hkind]; rfl)
    next hkind =>
      cases hsome
      exact .loop (by rw [hkind]; rfl)
    next hkind =>
      cases hsome
      exact .switch hkind
    next hkind =>
      cases hsome
      rw [← ofBody_eq, ← ofBody_eq]
      exact .guarded hkind
    next =>
      obtain ⟨u, hu, rfl⟩ := Option.map_eq_some_iff.mp hsome
      exact .choice hu
  · intro hopens
    rw [ofStatement?_eq]
    cases hopens with
    | block hkind => rw [hkind]
    | branch hkind => simp only [hkind, ofBody_eq]
    | loop hcaption =>
        rcases kind_of_loop_caption hcaption with ⟨hkind, rfl⟩ | ⟨hkind, rfl⟩ | ⟨hkind, rfl⟩ <;>
          simp only [hkind, ofBody_eq]
    | choice hchoice =>
        rcases choice?_of_kind hchoice with hkind | hkind <;>
          simp only [hkind, hchoice, Option.map_some, ofChoice]
    | switch hkind => simp only [hkind]
    | guarded hkind => simp only [hkind]

/-- What is chosen is a ternary. -/
theorem kind_of_choice? {t u : Tree} (hchoice : t.choice? = some u) : u.kind = .ternary := by
  unfold choice? at hchoice
  split at hchoice
  next hkind =>
    cases hchoice
    exact hkind
  next =>
    split at hchoice
    next u' _ =>
      split at hchoice
      next hu =>
        cases hchoice
        exact hu.2
      next => cases hchoice
    next => cases hchoice
  next => cases hchoice

/-- The outline of a list of statements, by what the list starts with. -/
inductive Splits : List Tree → Outline .sequence → Prop
  | nil : Splits [] .done
  | run {first more rest returns count} (hrun : IsRun first more rest returns) :
      Splits (first :: (more ++ rest))
        (.run ⟨extent first (more.getLastD first), count, returns⟩ (ofStatements none rest))
  | step {t rest c} (hopens : Opens t c) :
      Splits (t :: rest) (.step t.place.startLine c (ofStatements none rest))

theorem isStraight_eq_false_iff {t : Tree} :
    t.isStraight = false ↔ ∃ c, ofStatement? t = some c := by
  rw [← Option.isSome_iff_exists, isSome_ofStatement?]
  simp

/-- A straight statement alone is a run, if it leaves the function or what comes next is not
straight. -/
theorem isRun_singleton {t : Tree} {rest : List Tree} (ht : t.isStraight = true)
    (hrest : t.head.exits = false → ∀ u ∈ rest.head?, u.isStraight = false) :
    IsRun t [] rest t.head.exits where
  straight u hu := by rwa [List.mem_singleton.mp hu]
  inner := nofun
  last := rfl
  maximal := hrest

/-- A straight statement that does not leave the function makes a run one longer. -/
theorem IsRun.cons {t first : Tree} {more rest : List Tree} {returns : Bool}
    (hrun : IsRun first more rest returns) (ht : t.isStraight = true)
    (hexits : t.head.exits = false) : IsRun t (first :: more) rest returns where
  straight := List.forall_mem_cons.mpr ⟨ht, hrun.straight⟩
  inner := List.forall_mem_cons.mpr ⟨hexits, hrun.inner⟩
  last := by rw [← hrun.last, List.getLastD_cons]
  maximal := hrun.maximal

/-- A list starts with a construct or with statements that make up one block. -/
theorem opens_or_isRun (t : Tree) (ts : List Tree) :
    t.isStraight = false ∨ ∃ more rest returns, ts = more ++ rest ∧ IsRun t more rest returns := by
  induction ts generalizing t with
  | nil =>
      cases ht : t.isStraight with
      | false => exact .inl rfl
      | true => exact .inr ⟨[], [], _, rfl, isRun_singleton ht nofun⟩
  | cons u ts ih =>
      cases ht : t.isStraight with
      | false => exact .inl rfl
      | true =>
          cases hexits : t.head.exits with
          | true =>
              exact .inr ⟨[], u :: ts, _, rfl, isRun_singleton ht (by simp [hexits])⟩
          | false =>
              -- The block goes as far as the one that the next statement starts.
              rcases ih u with hu | ⟨more, rest, returns, rfl, hrun⟩
              · exact .inr ⟨[], u :: ts, _, rfl, isRun_singleton ht (by simpa using fun _ => hu)⟩
              · exact .inr ⟨u :: more, rest, returns, rfl, hrun.cons ht hexits⟩

/-- Every list of statements starts with a run, or with a construct, or is empty. Its outline is
put together accordingly. -/
theorem splits (ts : List Tree) : Splits ts (ofStatements none ts) := by
  cases ts with
  | nil =>
      rw [ofStatements_nil]
      exact .nil
  | cons t ts =>
      rcases opens_or_isRun t ts with ht | ⟨more, rest, returns, rfl, hrun⟩
      · obtain ⟨c, hc⟩ := isStraight_eq_false_iff.mp ht
        rw [ofStatements_cons_construct hc]
        exact .step (ofStatement?_eq_some_iff.mp hc)
      · obtain ⟨count, hcount⟩ := ofStatements_run hrun none
        rw [hcount]
        exact .run hrun

/-- A phrase with its outline. -/
inductive Phrase.Outlined : Phrase → {p : Part} → Outline p → Prop
  | statements {ts o} (hsplits : Splits ts o) : Outlined (.statements ts) o
  | statement {t c} (hopens : Opens t c) : Outlined (.statement t) c
  | absent : Outlined (.operand none) .absent
  | leaf {t} (hkind : t.kind ≠ .ternary) : Outlined (.operand (some t)) (.leaf t.place.site)
  | ternary {t} (hkind : t.kind = .ternary) :
      Outlined (.operand (some t)) (.ternary (decision t.head t.condition t.operands)
        (ofOperand t.consequent) (ofOperand t.alternate))
  | noCase : Outlined (.cases []) .noCase
  | case {t ts} : Outlined (.cases (t :: ts))
      (.case t.kind (decision t.head t.condition t.operands) (t.condition.map (·.range))
        (ofStatements none t.statements) (ofCases ts))
  | noHandler : Outlined (.handler none) .noHandler
  | catch {t} : Outlined (.handler (some t))
      (.catch t.kind (decision t.head t.condition t.operands)
        (ofStatements none (asStatements t.body)))

theorem outlined_statements (ts : List Tree) :
    (Phrase.statements ts).Outlined (ofStatements none ts) :=
  .statements (splits ts)

/-- Each operand of a ternary has its outline, a ternary or a leaf. -/
theorem outlined_operand (t : Option Tree) : (Phrase.operand t).Outlined (ofOperand t) := by
  cases t with
  | none =>
      rw [ofOperand]
      exact .absent
  | some t =>
      rw [ofOperand_some]
      split
      next hkind => exact .ternary hkind
      next hkind => exact .leaf hkind

/-- Cases have their outlines one after the other. -/
theorem outlined_cases (ts : List Tree) : (Phrase.cases ts).Outlined (ofCases ts) := by
  cases ts with
  | nil =>
      rw [ofCases]
      exact .noCase
  | cons t ts =>
      rw [ofCases_cons]
      exact .case

theorem outlined_handler (t : Option Tree) : (Phrase.handler t).Outlined (ofHandler t) := by
  cases t with
  | none =>
      rw [ofHandler]
      exact .noHandler
  | some t =>
      rw [ofHandler_some]
      exact .catch

/-! ## Statement positions -/

/-- The statements right below a statement. -/
def substatements (t : Tree) : List Tree :=
  match t.kind with
  | .block => t.statements
  | .branch => asStatements t.consequent ++ asStatements t.alternate
  | .whileLoop | .doLoop | .forLoop => asStatements t.body
  | .switch => t.cases.flatMap (·.statements)
  | .guarded => asStatements t.body ++ asStatements (t.handler.bind (·.body)) ++
      asStatements t.finalizer
  | _ => []

/-- The statements of a list and all statements below them. -/
inductive StatementOf : List Tree → Tree → Prop
  | listed {ts t} (ht : t ∈ ts) : StatementOf ts t
  | inside {ts t u} (ht : t ∈ ts) (hu : StatementOf t.substatements u) : StatementOf ts u

theorem StatementOf.mono {ts us : List Tree} {t : Tree} (ht : StatementOf ts t) (hsub : ts ⊆ us) :
    StatementOf us t := by
  cases ht with
  | listed hmem => exact .listed (hsub hmem)
  | inside hmem hinside => exact .inside (hsub hmem) hinside

theorem not_statementOf_nil {t : Tree} : ¬ StatementOf [] t := by
  intro ht
  cases ht with
  | listed hmem => cases hmem
  | inside hmem => cases hmem

/-- What holds of all statements of a list holds of the first, of those below it, and of those of
the rest. -/
theorem forall_statementOf_cons {P : Tree → Prop} {t : Tree} {ts : List Tree} :
    (∀ s, StatementOf (t :: ts) s → P s) ↔
      P t ∧ (∀ s, StatementOf t.substatements s → P s) ∧ ∀ s, StatementOf ts s → P s := by
  constructor
  · intro hall
    refine ⟨hall t (.listed List.mem_cons_self), fun s hs => ?_, fun s hs => ?_⟩
    · exact hall s (.inside List.mem_cons_self hs)
    · exact hall s (hs.mono (List.subset_cons_self t ts))
  · rintro ⟨hself, hinside, hothers⟩ s hs
    cases hs with
    | listed hmem =>
        rcases List.mem_cons.mp hmem with rfl | hmem
        · exact hself
        · exact hothers s (.listed hmem)
    | inside hmem hs =>
        rcases List.mem_cons.mp hmem with rfl | hmem
        · exact hinside s hs
        · exact hothers s (.inside hmem hs)

/-- The statements that a phrase lists. -/
def Phrase.listed : Phrase → List Tree
  | .statements ts => ts
  | .statement t => [t]
  | .operand _ => []
  | .cases ts => ts.flatMap (·.statements)
  | .handler t => asStatements (t.bind (·.body))

theorem substatements_of_loop_caption {t : Tree} {style : Loop}
    (hcaption : Caption.ofKind? t.kind = some style.caption) :
    t.substatements = asStatements t.body := by
  unfold substatements
  rcases kind_of_loop_caption hcaption with ⟨hkind, _⟩ | ⟨hkind, _⟩ | ⟨hkind, _⟩ <;> rw [hkind]

/-- Each construct of an outline is opened by a statement. -/
theorem all_of_outlined {test : Outline .construct → Bool} {p : Part} {o : Outline p}
    {phrase : Phrase} (hphrase : phrase.Outlined o) (hpart : p ≠ .handler)
    (htest : ∀ t c, StatementOf phrase.listed t → Opens t c → test c = true) :
    o.all test = true := by
  have hself {t : Tree} : StatementOf (Phrase.statement t).listed t :=
    .listed (by simp [Phrase.listed])
  have hbelow {t u : Tree} {us : List Tree} (hsub : us ⊆ t.substatements)
      (hu : StatementOf us u) : StatementOf (Phrase.statement t).listed u :=
    .inside (by simp [Phrase.listed]) (hu.mono hsub)
  induction o generalizing phrase with
  | done | noCase | absent | leaf | ternary => rfl
  | run r rest ih =>
      cases hphrase with
      | statements hsplits =>
          cases hsplits with
          | run hrun =>
              refine ih (outlined_statements _) (by simp) fun t c ht => htest t c (ht.mono ?_)
              exact List.subset_cons_of_subset _ (List.subset_append_right _ _)
  | step line construct rest ihFirst ihRest =>
      cases hphrase with
      | statements hsplits =>
          cases hsplits with
          | step hopens =>
              refine Bool.and_eq_true_iff.mpr ⟨?_, ?_⟩
              · refine ihFirst (.statement hopens) (by simp) fun t c ht => htest t c (ht.mono ?_)
                exact List.cons_subset_cons _ (List.nil_subset _)
              · refine ihRest (outlined_statements _) (by simp) fun t c ht => htest t c (ht.mono ?_)
                exact List.subset_cons_self _ _
  | nested inner ih =>
      cases hphrase with
      | statement hopens =>
          refine Bool.and_eq_true_iff.mpr ⟨htest _ _ hself hopens, ?_⟩
          cases hopens with
          | block hkind =>
              refine ih (outlined_statements _) (by simp) fun t c ht => htest t c (hbelow ?_ ht)
              simp [substatements, hkind, Phrase.listed]
  | branch d yes no ihYes ihNo =>
      cases hphrase with
      | statement hopens =>
          have hc := htest _ _ hself hopens
          cases hopens with
          | branch hkind =>
              refine Bool.and_eq_true_iff.mpr ⟨Bool.and_eq_true_iff.mpr ⟨hc, ?_⟩, ?_⟩
              · refine ihYes (outlined_statements _) (by simp) fun t c ht => htest t c (hbelow ?_ ht)
                simp [substatements, hkind, Phrase.listed]
              · refine ihNo (outlined_statements _) (by simp) fun t c ht => htest t c (hbelow ?_ ht)
                simp [substatements, hkind, Phrase.listed]
  | loop style d body ih =>
      cases hphrase with
      | statement hopens =>
          refine Bool.and_eq_true_iff.mpr ⟨htest _ _ hself hopens, ?_⟩
          cases hopens with
          | loop hcaption =>
              refine ih (outlined_statements _) (by simp) fun t c ht => htest t c (hbelow ?_ ht)
              rw [substatements_of_loop_caption hcaption]
              exact List.Subset.refl _
  | choice d yes no =>
      cases hphrase with
      | statement hopens => exact htest _ _ hself hopens
  | switch d cases ih =>
      cases hphrase with
      | statement hopens =>
          refine Bool.and_eq_true_iff.mpr ⟨htest _ _ hself hopens, ?_⟩
          cases hopens with
          | switch hkind =>
              refine ih (outlined_cases _) (by simp) fun t c ht => htest t c (hbelow ?_ ht)
              simp [substatements, hkind, Phrase.listed]
  | guarded body handler final =>
      cases hphrase with
      | statement hopens => exact htest _ _ hself hopens
  | case kind d test body rest ihBody ihRest =>
      cases hphrase with
      | case =>
          refine Bool.and_eq_true_iff.mpr ⟨?_, ?_⟩
          · refine ihBody (outlined_statements _) (by simp) fun t c ht => htest t c (ht.mono ?_)
            simp [Phrase.listed]
          · refine ihRest (outlined_cases _) (by simp) fun t c ht => htest t c (ht.mono ?_)
            simp [Phrase.listed]
  | noHandler | «catch» => exact absurd rfl hpart

end Tree

end Cyclomatic
