import Cyclomatic.Proofs.ParseTree.Presents
import Cyclomatic.Proofs.Tree.Decisions

/-! # Decisions of a parse tree and of its graph

The decisions of a function's graph, ternaries aside, are the branching
statements and clauses that are exposed in its parse tree, one for one and in
the same order. A branching statement below one that is not exposed, such as the
loop that a label stands before, is missing from the graph.
-/

namespace Cyclomatic.ParseTree

open Cyclomatic.Flow Cyclomatic.Trail

/-- The branching statements and clauses of a function that are exposed. -/
def exposedMarks (source : Bytes) (t : ParseTree) : List Mark := t.exposed.filterMap (mark? source)

/-- The branching statements and clauses of a function outside nested functions. -/
def occurringMarks (source : Bytes) (t : ParseTree) : List Mark :=
  t.occurring.filterMap (mark? source)

section

variable {source : Bytes} {t : ParseTree}

/-- A function becomes a function, with the body that stands in its field. -/
theorem normalize_of_isFunction (ht : t.isFunction = true) :
    (t.normalize source).kind = .function ∧
      (t.normalize source).body = (t.field? "body").map (normalize source) := by
  unfold isFunction at ht
  split at ht
  next own hform =>
    rw [← treeOf?_toChild, normalize_eq, Tree.assemble, ← form, hform]
    exact ⟨rfl, rfl⟩
  next => cases ht

/-- A function has the decisions of the statements in its body, if its clauses are in place and no
statement leaves it. -/
theorem presents_function (ht : t.isFunction = true)
    (hplace : ∀ u ∈ t.exposed, u.ClausesInPlace) (hstay : ∀ u ∈ t.exposed, u.form ≠ .exit) :
    Presents source (asStatements (t.field? "body").toList) [⟨t.normalize source, .entered⟩] := by
  obtain ⟨hkind, hbody⟩ := @normalize_of_isFunction source t ht
  have hexposed : t.exposed = (asStatements (t.field? "body").toList).flatMap exposure.walk :=
    exposure.walkFrom_eq_flatMap _
  rw [hexposed] at hplace hstay
  have hstatements : ∀ v ∈ asStatements (t.field? "body").toList,
      Presents source [v] [trail source v] := fun v hv => by
    apply presents_trail
    · exact fun w hw => hplace w (List.mem_flatMap.mpr ⟨v, hv, hw⟩)
    · exact fun w hw => hstay w (List.mem_flatMap.mpr ⟨v, hv, hw⟩)
  refine .below rfl (Presents.clausesInPlace_of_kind (by simp [hkind]) (by simp [hkind])) ?_ ?_
  · simp [Trail.mark?, hkind, Caption.ofKind?]
  · rw [next_function hkind, hbody]
    exact (Presents.asides _).append (.body hstatements)

/-- Every decision that is exposed occurs, and none more often than it occurs. -/
theorem exposedMarks_subperm (hplace : ∀ u ∈ t.exposed, u.ClausesInPlace) :
    (t.exposedMarks source).Subperm (t.occurringMarks source) := by
  obtain ⟨us, hperm, hsub⟩ := exposed_subperm_occurring hplace
  exact (hperm.filterMap _).symm.subperm.trans (hsub.filterMap _).subperm

/-- The decisions of a graph, ternaries aside, are the branching statements and clauses that
are exposed. So each of those that occur has its one decision exactly if all are exposed. -/
theorem graph_decides_exposed (ht : t.isFunction = true)
    (hplace : ∀ u ∈ t.exposed, u.ClausesInPlace) (hstay : ∀ u ∈ t.exposed, u.form ≠ .exit)
    (source : Bytes) :
    ∃ g, Graph.ofFunction source (t.normalize source) = .ok g ∧
      g.marks.filter (·.caption ≠ .ternary) = t.exposedMarks source ∧
      ((∀ m, (g.marks.filter (·.caption ≠ .ternary)).count m = (t.occurringMarks source).count m) ↔
        (t.occurringMarks source).length = (t.exposedMarks source).length) := by
  have hpresents : Presents source _ _ := presents_function ht hplace hstay
  have hagrees := agrees_function (normalize_of_isFunction ht).1 hpresents.inPlace
  obtain ⟨g, hg, hmarks⟩ := Graph.exists_ofFunction hagrees.captioned source
  have hexposed : g.marks.filter (·.caption ≠ .ternary) = t.exposedMarks source := by
    rw [hmarks, (hagrees.complete hpresents.stays).2, hpresents.marks_eq]
    rfl
  refine ⟨g, hg, hexposed, ?_⟩
  rw [hexposed, ← List.perm_iff_count]
  constructor
  · intro hperm
    exact hperm.length_eq.symm
  · intro hlength
    exact (exposedMarks_subperm hplace).perm_of_length_le (Nat.le_of_eq hlength)

end

/-- A named node, for trees without punctuation. -/
def sketch (type : String) (start stop : Nat) (field : Option String)
    (children : List ParseTree) : ParseTree :=
  .node { type, start, stop, field } children

/-- A loop in a branch with another branch as its alternative, then a guarded block whose
final part loops, and a multiway branch that loops in its default case. -/
def nestedStatements : ParseTree :=
  sketch "function_declaration" 0 100 none
    [sketch "statement_block" 10 100 "body"
      [sketch "if_statement" 11 40 none
        [sketch "statement_block" 15 25 "consequence"
          [sketch "while_statement" 16 24 none [sketch "statement_block" 20 24 "body" []]],
          sketch "else_clause" 26 40 "alternative"
            [sketch "if_statement" 30 40 none [sketch "statement_block" 35 40 "consequence" []]]],
        sketch "try_statement" 41 70 none
          [sketch "statement_block" 42 45 "body" [],
            sketch "catch_clause" 46 55 "handler" [sketch "statement_block" 50 55 "body" []],
            sketch "finally_clause" 56 70 "finalizer"
              [sketch "statement_block" 60 70 "body"
                [sketch "do_statement" 61 69 none [sketch "statement_block" 62 65 "body" []]]]],
        sketch "switch_statement" 71 99 none
          [sketch "switch_body" 75 99 "body"
            [sketch "switch_case" 76 80 none [sketch "number" 77 78 "value" []],
              sketch "switch_default" 81 98 none
                [sketch "for_in_statement" 85 98 none []]]]]]

theorem nestedStatements_decided :
    (∀ u ∈ nestedStatements.exposed, u.ClausesInPlace) ∧
      (∀ u ∈ nestedStatements.exposed, u.form ≠ .exit) ∧
      ∃ g, Graph.ofFunction [] (nestedStatements.normalize []) = .ok g ∧
        (g.marks.filter (·.caption ≠ .ternary)).map (·.caption) =
          [.branch, .whileLoop, .branch, .handler, .doLoop, .switch, .case, .case, .forLoop] ∧
        ∀ m, (g.marks.filter (·.caption ≠ .ternary)).count m =
          (nestedStatements.occurringMarks []).count m := by
  have hplace : ∀ u ∈ nestedStatements.exposed, u.ClausesInPlace := by decide +kernel
  have hstay : ∀ u ∈ nestedStatements.exposed, u.form ≠ .exit := by decide +kernel
  have hfunction : nestedStatements.isFunction = true := by decide +kernel
  obtain ⟨g, hg, hmarks, hall⟩ := graph_decides_exposed hfunction hplace hstay []
  refine ⟨hplace, hstay, g, hg, ?_, hall.mpr (by decide +kernel)⟩
  rw [hmarks]
  decide +kernel

/-- A function with nothing in it but a loop that a label stands before. -/
def labeledLoop : ParseTree :=
  sketch "function_declaration" 0 42 none
    [sketch "statement_block" 13 42 "body"
      [sketch "labeled_statement" 15 40 none
        [sketch "statement_identifier" 15 20 "label" [],
          sketch "while_statement" 22 40 "body"
            [sketch "parenthesized_expression" 28 31 "condition"
              [sketch "identifier" 29 30 none []],
              sketch "statement_block" 32 40 "body"
                [sketch "expression_statement" 34 38 none []]]]]]

/-- The loop behind the label has no decision. -/
theorem labeledLoop_undecided :
    labeledLoop.isFunction = true ∧ (∀ u ∈ labeledLoop.occurring, u.form ≠ .exit) ∧
      labeledLoop.occurringMarks [] = [⟨.whileLoop, ⟨22, 40⟩, 1, 1⟩] ∧
      ∃ g, Graph.ofFunction [] (labeledLoop.normalize []) = .ok g ∧ g.marks = [] := by
  refine ⟨by decide +kernel, by decide +kernel, by decide +kernel, _, rfl, ?_⟩
  decide

end Cyclomatic.ParseTree
