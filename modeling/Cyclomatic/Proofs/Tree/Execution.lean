import Cyclomatic.Proofs.Flow.Course
import Cyclomatic.Proofs.Tree.Outlining

/-! # Executions of a tree

What it means to carry out the statements of a tree, said on the tree itself
and without a graph: straight runs of statements are blocks, a decision goes
one of its ways, a loop goes round any number of times. An execution is the
list of blocks and decisions that are met, each with the number it has when
those that can be met are counted in the order of the source. The executions
of a tree are the courses of its outline.
-/

namespace Cyclomatic

open Cyclomatic.Flow

namespace Tree

open Outline

def blockVertex (text : Range → String) (first last : Tree) : Vertex :=
  .block (extent first last) (text (extent first last).range)

def decisionVertex (text : Range → String) (caption : Caption) (t : Tree) : Vertex :=
  Outline.decisionVertex text caption (Outline.decision t.head t.condition t.operands)

/-- The executions of a phrase whose first block or decision has the given number. -/
inductive Executes (text : Range → String) :
    Phrase → Nat → List (Nat × Vertex) → Outcome → Prop
  | nil {n} : Executes text (.statements []) n [] .goesOn
  | run {first more rest n w out} (hrun : IsRun first more rest false)
      (hrest : Executes text (.statements rest) (n + 1) w out) :
      Executes text (.statements (first :: (more ++ rest))) n
        ((n, blockVertex text first (more.getLastD first)) :: w) out
  | leave {first more rest n} (hrun : IsRun first more rest true) :
      Executes text (.statements (first :: (more ++ rest))) n
        [(n, blockVertex text first (more.getLastD first))] .leaves
  | step {t rest n w w' out} (hfirst : Executes text (.statement t) n w .goesOn)
      (hrest : Executes text (.statements rest) (n + nodeCount [t]) w' out) :
      Executes text (.statements (t :: rest)) n (w ++ w') out
  | stepLeave {t rest n w} (hfirst : Executes text (.statement t) n w .leaves) :
      Executes text (.statements (t :: rest)) n w .leaves
  | block {t n w out} (hkind : t.kind = .block)
      (hinner : Executes text (.statements t.statements) n w out) :
      Executes text (.statement t) n w out
  | consequent {t n w out} (hkind : t.kind = .branch)
      (hyes : Executes text (.statements (asStatements t.consequent)) (n + 1) w out) :
      Executes text (.statement t) n ((n, decisionVertex text .branch t) :: w) out
  | alternate {t n w out} (hkind : t.kind = .branch)
      (hno : Executes text (.statements (asStatements t.alternate))
        (n + 1 + nodeCount (asStatements t.consequent)) w out) :
      Executes text (.statement t) n ((n, decisionVertex text .branch t) :: w) out
  | loop {t caption n rounds} (hcaption : Caption.ofKind? t.kind = some caption)
      (hloop : caption.isLoop = true)
      (hrounds : ∀ round ∈ rounds,
        Executes text (.statements (asStatements t.body)) (n + 1) round .goesOn) :
      Executes text (.statement t) n
        ((n, decisionVertex text caption t) ::
          laps (n, decisionVertex text caption t) rounds) .goesOn
  | loopLeave {t caption n rounds last} (hcaption : Caption.ofKind? t.kind = some caption)
      (hloop : caption.isLoop = true)
      (hrounds : ∀ round ∈ rounds,
        Executes text (.statements (asStatements t.body)) (n + 1) round .goesOn)
      (hlast : Executes text (.statements (asStatements t.body)) (n + 1) last .leaves) :
      Executes text (.statement t) n
        ((n, decisionVertex text caption t) ::
          (laps (n, decisionVertex text caption t) rounds ++ last)) .leaves
  | choice {t u n w out} (hchoice : t.choice? = some u)
      (hoperand : Executes text (.operand (some u)) n w out) :
      Executes text (.statement t) n w out
  | switch {t n w out} (hkind : t.kind = .switch)
      (hcases : Executes text (.cases t.cases) (n + 1) w out) :
      Executes text (.statement t) n ((n, decisionVertex text .switch t) :: w) out
  | noCase {t n} (hkind : t.kind = .switch) (htested : ∀ c ∈ t.cases, c.condition.isSome) :
      Executes text (.statement t) n [(n, decisionVertex text .switch t)] .goesOn
  | absent {n} : Executes text (.operand none) n [] .goesOn
  | leaf {t n} (hkind : t.kind ≠ .ternary) :
      Executes text (.operand (some t)) n
        [(n, .operand t.place.site (text t.place.site.range))] .goesOn
  | ternaryYes {t n w out} (hkind : t.kind = .ternary)
      (hyes : Executes text (.operand t.consequent) (n + 1) w out) :
      Executes text (.operand (some t)) n ((n, decisionVertex text .ternary t) :: w) out
  | ternaryNo {t n w out} (hkind : t.kind = .ternary)
      (hno : Executes text (.operand t.alternate) (n + 1 + operandCount t.consequent) w out) :
      Executes text (.operand (some t)) n ((n, decisionVertex text .ternary t) :: w) out
  | here {t rest caption n w out} (hcaption : Caption.ofKind? t.kind = some caption)
      (hbody : Executes text (.statements t.statements) (n + 1) w out) :
      Executes text (.cases (t :: rest)) n ((n, decisionVertex text caption t) :: w) out
  | later {t rest n w out}
      (hrest : Executes text (.cases rest) (n + 1 + nodeCount t.statements) w out) :
      Executes text (.cases (t :: rest)) n w out

variable {text : Range → String} {n : Nat} {w : List (Nat × Vertex)} {out : Outcome}

/-- The executions of a function's body, numbered from one on. -/
def Execution (source : Bytes) (t : Tree) (w : List (Nat × Vertex)) : Prop :=
  ∃ out, Executes (Range.text source) (.statements (asStatements t.body)) 1 w out

/-- If a statement is a loop, its body can be carried out to the end. -/
def GoesRound (text : Range → String) (t : Tree) : Prop :=
  ∀ caption, Caption.ofKind? t.kind = some caption → caption.isLoop = true →
    ∃ n w, Executes text (.statements (asStatements t.body)) n w .goesOn

/-- What the executions of a phrase are, on its outline. -/
def Phrase.Follows (text : Range → String) :
    Phrase → Nat → List (Nat × Vertex) → Outcome → Prop
  | .statements ts, n, w, out => Course text (ofStatements none ts) n w out
  | .statement t, n, w, out => ∃ c, ofStatement? t = some c ∧ Course text c n w out
  | .operand t, n, w, out => Course text (ofOperand t) n w out
  | .cases ts, n, w, out => Course text (ofCases ts) n w out
  | .handler t, n, w, out => Course text (ofHandler t) n w out

/-- As a statement, a ternary runs as it does as an operand. -/
theorem course_ofChoice_iff {u : Tree} (hu : u.kind = .ternary) :
    Course text (ofChoice u) n w out ↔ Course text (ofOperand (some u)) n w out := by
  rw [ofOperand_some, if_pos hu, ofChoice, course_choice_iff, course_ternary_iff]

/-- Every execution is a course of the outline. -/
theorem Executes.follows {phrase : Phrase} (hexec : Executes text phrase n w out) :
    phrase.Follows text n w out := by
  induction hexec with
  | nil =>
      rw [Phrase.Follows, ofStatements_nil]
      exact .done
  | run hrun _ ih =>
      obtain ⟨count, hcount⟩ := ofStatements_run hrun none
      rw [Phrase.Follows, hcount]
      exact .runOn rfl ih
  | leave hrun =>
      obtain ⟨count, hcount⟩ := ofStatements_run hrun none
      rw [Phrase.Follows, hcount]
      exact .runOff rfl
  | step _ _ ihFirst ihRest =>
      obtain ⟨c, hc, hfirst⟩ := ihFirst
      rw [Phrase.Follows, ofStatements_cons_construct hc]
      rw [laid_ofStatements_singleton hc] at ihRest
      exact .stepOn hfirst ihRest
  | stepLeave _ ih =>
      obtain ⟨c, hc, hfirst⟩ := ih
      rw [Phrase.Follows, ofStatements_cons_construct hc]
      exact .stepOff hfirst
  | block hkind _ ih =>
      exact ⟨_, ofStatement?_eq_some_iff.mpr (.block hkind), .nested ih⟩
  | consequent hkind _ ih => exact ⟨_, ofStatement?_eq_some_iff.mpr (.branch hkind), .branchYes ih⟩
  | alternate hkind _ ih => exact ⟨_, ofStatement?_eq_some_iff.mpr (.branch hkind), .branchNo ih⟩
  | loop hcaption hloop _ ih =>
      obtain ⟨style, rfl⟩ := exists_caption_eq hloop
      exact ⟨_, ofStatement?_eq_some_iff.mpr (.loop hcaption), .loopOn ih⟩
  | loopLeave hcaption hloop _ _ ihRounds ihLast =>
      obtain ⟨style, rfl⟩ := exists_caption_eq hloop
      exact ⟨_, ofStatement?_eq_some_iff.mpr (.loop hcaption), .loopOff ihRounds ihLast⟩
  | choice hchoice _ ih =>
      have hcourse := (course_ofChoice_iff (kind_of_choice? hchoice)).mpr ih
      exact ⟨_, ofStatement?_eq_some_iff.mpr (.choice hchoice), hcourse⟩
  | switch hkind _ ih => exact ⟨_, ofStatement?_eq_some_iff.mpr (.switch hkind), .switchCase ih⟩
  | noCase hkind htested =>
      exact ⟨_, ofStatement?_eq_some_iff.mpr (.switch hkind),
        .switchNone (allTested_ofCases.mpr htested)⟩
  | absent =>
      rw [Phrase.Follows, ofOperand]
      exact .absent
  | leaf hkind =>
      rw [Phrase.Follows, ofOperand_some, if_neg hkind]
      exact .leaf
  | ternaryYes hkind _ ih =>
      rw [Phrase.Follows, ofOperand_some, if_pos hkind]
      exact .ternaryYes ih
  | ternaryNo hkind _ ih =>
      rw [Phrase.Follows, ofOperand_some, if_pos hkind]
      exact .ternaryNo ih
  | here hcaption _ ih =>
      rw [Phrase.Follows, ofCases_cons]
      exact .caseHere (captionOf_eq_ok_iff.mpr hcaption) ih
  | later _ ih =>
      rw [Phrase.Follows, ofCases_cons]
      exact .caseLater ih

/-- Every course of the outline is an execution. -/
theorem executes_of_course {p : Part} {o : Outline p} (hcourse : Course text o n w out)
    {phrase : Phrase} (hphrase : phrase.Outlined o) : Executes text phrase n w out := by
  -- Each rule for courses fixes the shape of the outline, and that the shape of the phrase.
  induction hcourse generalizing phrase with
  | done =>
      cases hphrase with
      | statements hsplits =>
          cases hsplits
          exact .nil
  | runOn hreturns _ ih =>
      cases hphrase with
      | statements hsplits =>
          cases hsplits with
          | run hrun =>
              obtain rfl := hreturns
              exact .run hrun (ih (outlined_statements _))
  | runOff hreturns =>
      cases hphrase with
      | statements hsplits =>
          cases hsplits with
          | run hrun =>
              obtain rfl := hreturns
              exact .leave hrun
  | stepOn _ _ ihFirst ihRest =>
      cases hphrase with
      | statements hsplits =>
          cases hsplits with
          | step hopens =>
              refine .step (ihFirst (.statement hopens)) ?_
              rw [laid_ofStatements_singleton (ofStatement?_eq_some_iff.mpr hopens)]
              exact ihRest (outlined_statements _)
  | stepOff _ ih =>
      cases hphrase with
      | statements hsplits =>
          cases hsplits with
          | step hopens => exact .stepLeave (ih (.statement hopens))
  | nested _ ih =>
      cases hphrase with
      | statement hopens =>
          cases hopens with
          | block hkind => exact .block hkind (ih (outlined_statements _))
  | branchYes _ ih =>
      cases hphrase with
      | statement hopens =>
          cases hopens with
          | branch hkind => exact .consequent hkind (ih (outlined_statements _))
  | branchNo _ ih =>
      cases hphrase with
      | statement hopens =>
          cases hopens with
          | branch hkind => exact .alternate hkind (ih (outlined_statements _))
  | @loopOn style _ _ _ _ _ ih =>
      cases hphrase with
      | statement hopens =>
          cases hopens with
          | loop hcaption =>
              exact .loop hcaption (isLoop_caption style) fun round hround =>
                ih round hround (outlined_statements _)
  | @loopOff style _ _ _ _ _ _ _ ihRounds ihLast =>
      cases hphrase with
      | statement hopens =>
          cases hopens with
          | loop hcaption =>
              exact .loopLeave hcaption (isLoop_caption style)
                (fun round hround => ihRounds round hround (outlined_statements _))
                (ihLast (outlined_statements _))
  | choiceYes _ ih =>
      cases hphrase with
      | statement hopens =>
          cases hopens with
          | choice hchoice =>
              have hoperand := ih (outlined_operand _)
              exact .choice hchoice (.ternaryYes (kind_of_choice? hchoice) hoperand)
  | choiceNo _ ih =>
      cases hphrase with
      | statement hopens =>
          cases hopens with
          | choice hchoice =>
              have hoperand := ih (outlined_operand _)
              exact .choice hchoice (.ternaryNo (kind_of_choice? hchoice) hoperand)
  | switchCase _ ih =>
      cases hphrase with
      | statement hopens =>
          cases hopens with
          | switch hkind => exact .switch hkind (ih (outlined_cases _))
  | switchNone htested =>
      cases hphrase with
      | statement hopens =>
          cases hopens with
          | switch hkind => exact .noCase hkind (allTested_ofCases.mp htested)
  | caseHere hcaption _ ih =>
      cases hphrase with
      | case => exact .here (captionOf_eq_ok_iff.mp hcaption) (ih (outlined_statements _))
  | caseLater _ ih =>
      cases hphrase with
      | case => exact .later (ih (outlined_cases _))
  | absent =>
      cases hphrase with
      | absent => exact .absent
  | leaf =>
      cases hphrase with
      | leaf hkind => exact .leaf hkind
  | ternaryYes _ ih =>
      cases hphrase with
      | ternary hkind => exact .ternaryYes hkind (ih (outlined_operand _))
  | ternaryNo _ ih =>
      cases hphrase with
      | ternary hkind => exact .ternaryNo hkind (ih (outlined_operand _))

/-- The executions of a list of statements are the courses of its outline. -/
theorem executes_statements_iff {ts : List Tree} :
    Executes text (.statements ts) n w out ↔ Course text (ofStatements none ts) n w out :=
  ⟨fun hexec => hexec.follows, fun hcourse => executes_of_course hcourse (outlined_statements ts)⟩

end Tree

end Cyclomatic
