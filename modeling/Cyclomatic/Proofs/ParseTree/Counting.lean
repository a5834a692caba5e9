import Cyclomatic.Proofs.ParseTree.Decisions
import Cyclomatic.Proofs.ParseTree.Origins
import Cyclomatic.Tree.Functions

/-! # Counting decisions and functions in a parse tree

The complexity of a file and its list of functions are read off the syntax tree,
but can be told from the parse tree: no node is counted twice, and none is
missed if all that counts stands where it is looked for.
-/

namespace Cyclomatic.ParseTree

variable {source : Bytes} {t u : ParseTree}

/-! ## Trees in which nothing is missed -/

/-- A node that is to be counted: a decision or a function. -/
def counts (t : ParseTree) : Bool :=
  t.row.named && (t.decides || functionTypes.contains t.row.type)

/-- Whether a node counts, or one below it does. -/
def bears (t : ParseTree) : Bool := t.nodes.any counts

/-- The forms whose parts are found by the fields they stand in. -/
def readsFields (t : ParseTree) : Bool :=
  match t.form with
  | .branch | .ternary | .whileLoop | .doLoop | .forLoop | .forIn | .declarator | .function _
  | .switch | .guarded | .handler => true
  | _ => false

/-- What counts is below a node only where it is looked for. -/
structure ConformsAt (u : ParseTree) : Prop where
  barren : u.row.isComment = true ∨ u.form = .identifier ∨ u.row.named = false →
    ∀ c ∈ u.children, c.bears = false
  fields : ∀ name ∈ u.fields, ∀ c ∈ u.inField? name, c.row.listed = true
  beside : u.readsFields = true → ∀ c ∈ u.beside, c.bears = false
  /-- What is looked through does not count itself. -/
  wrappers : ∀ w ∈ u.wrappers, w.counts = false
  /-- The final part of a guarded block is found by its field as well. -/
  final : u.form = .guarded → ∀ w ∈ u.wrappers,
    (∀ c ∈ w.inField? "body", c.row.listed = true) ∧
      ∀ c ∈ without ["body"] w.children, c.bears = false
  /-- No statement of a case is mistaken for its tested value. -/
  test : u.form = .case → ∀ c ∈ u.beside, u.isTest c = true → c.bears = false

structure Conforms (t : ParseTree) : Prop where
  named : t.row.named = true
  at_nodes : ∀ u ∈ t.nodes, u.ConformsAt

instance (u : ParseTree) : Decidable u.ConformsAt :=
  decidable_of_iff
    ((u.row.isComment = true ∨ u.form = .identifier ∨ u.row.named = false →
        ∀ c ∈ u.children, c.bears = false) ∧
      (∀ name ∈ u.fields, ∀ c ∈ u.inField? name, c.row.listed = true) ∧
      (u.readsFields = true → ∀ c ∈ u.beside, c.bears = false) ∧
      (∀ w ∈ u.wrappers, w.counts = false) ∧
      (u.form = .guarded → ∀ w ∈ u.wrappers,
        (∀ c ∈ w.inField? "body", c.row.listed = true) ∧
          ∀ c ∈ without ["body"] w.children, c.bears = false) ∧
      (u.form = .case → ∀ c ∈ u.beside, u.isTest c = true → c.bears = false))
    ⟨fun ⟨h₁, h₂, h₃, h₄, h₅, h₆⟩ => ⟨h₁, h₂, h₃, h₄, h₅, h₆⟩,
      fun h => ⟨h.barren, h.fields, h.beside, h.wrappers, h.final, h.test⟩⟩

instance (t : ParseTree) : Decidable t.Conforms :=
  decidable_of_iff (t.row.named = true ∧ ∀ u ∈ t.nodes, u.ConformsAt)
    ⟨fun h => ⟨h.1, h.2⟩, fun h => ⟨h.named, h.at_nodes⟩⟩

/-- Where nothing counts at or below a node, none of the nodes there counts. -/
theorem counts_of_bears (hbears : u.bears = false) {v : ParseTree} (hv : v ∈ u.nodes) :
    v.counts = false := by
  unfold bears at hbears
  rw [List.any_eq_false] at hbears
  simpa using hbears v hv

theorem bears_of_children (hself : u.counts = false) (hbelow : ∀ c ∈ u.children, c.bears = false) :
    u.bears = false := by
  have hnodes : u.nodes = u :: u.children.flatMap nodes := descent.walk_eq u
  rw [bears, hnodes, List.any_cons, hself, Bool.false_or, List.any_eq_false]
  intro v hv
  obtain ⟨c, hc, hv⟩ := List.mem_flatMap.mp hv
  simp [counts_of_bears (hbelow c hc) hv]

/-- No comment counts, whatever is written in it. -/
theorem counts_of_isComment (hcomment : u.row.isComment = true) : u.counts = false := by
  simp only [Row.isComment, Bool.or_eq_true, decide_eq_true_eq] at hcomment
  rcases hcomment with (htype | htype) | htype <;>
    simp [counts, decides, htype, decisionTypes, functionTypes]

/-- A node that is no part of the syntax bears nothing. -/
theorem bears_of_not_listed (hu : u.ConformsAt) (hlisted : u.row.listed = false) :
    u.bears = false := by
  rw [Row.listed, Bool.and_eq_false_iff, Bool.not_eq_false'] at hlisted
  rcases hlisted with hnamed | hcomment
  · exact bears_of_children (by simp [counts, hnamed]) (hu.barren (.inr (.inr hnamed)))
  · exact bears_of_children (counts_of_isComment hcomment) (hu.barren (.inl hcomment))

theorem mem_children_of_mem_wrappers {w : ParseTree} (hw : w ∈ u.wrappers) : w ∈ u.children := by
  rw [wrappers_eq] at hw
  obtain ⟨name, _, hw⟩ := List.mem_flatMap.mp hw
  exact List.mem_of_find?_eq_some (Option.mem_toList.mp hw)

theorem mem_nodes_of_mem_children {c : ParseTree} (hc : c ∈ u.children) : c ∈ u.nodes :=
  descent.mem_walk_of_mem_next hc (descent.self_mem_walk c)

/-- No comment is passed over in a field that holds what is listed. -/
theorem hidden_eq_nil {name : String} (hlisted : ∀ c ∈ u.inField? name, c.row.listed = true) :
    u.hidden name = [] := by
  unfold hidden
  cases hfield : u.inField? name with
  | none => rfl
  | some c =>
      have hc := hlisted c hfield
      rw [Row.listed, Bool.and_eq_true, Bool.not_eq_true'] at hc
      simp [Option.filter_some, hc.2]

theorem mem_inField?_of_mem_read {reading : String × Bool} {c : ParseTree}
    (hc : c ∈ u.read reading) : c ∈ u.inField? reading.1 := by
  unfold read at hc
  split at hc
  · exact (Option.filter_eq_some_iff.mp (Option.mem_toList.mp hc)).1
  · exact Option.mem_toList.mp hc

section

variable (hconforms : ∀ v ∈ u.nodes, v.ConformsAt)
include hconforms

theorem bears_of_mem_unlisted {c : ParseTree} (hc : c ∈ u.unlisted) : c.bears = false := by
  obtain ⟨hchild, hlisted⟩ := List.mem_filter.mp hc
  have hnode := hconforms c (mem_nodes_of_mem_children hchild)
  exact bears_of_not_listed hnode (by simpa using hlisted)

/-- A node that conforms has no comments in the fields it reads. -/
theorem passedOver_eq_nil : u.passedOver = [] := by
  refine List.flatMap_eq_nil_iff.mpr fun reading hreading => hidden_eq_nil ?_
  refine (hconforms u (descent.self_mem_walk u)).fields reading.1 ?_
  exact List.mem_append_left _ (List.mem_map_of_mem (List.mem_of_mem_filter hreading))

/-- What is left out bears nothing. -/
theorem bears_of_mem_leftOut {c : ParseTree} (hc : c ∈ u.leftOut) : c.bears = false := by
  have hself := hconforms u (descent.self_mem_walk u)
  have hwrapper : ∀ w ∈ u.wrappers, ∀ v ∈ w.nodes, v.ConformsAt := fun w hw v hv => by
    have hnode := mem_nodes_of_mem_children (mem_children_of_mem_wrappers hw)
    exact hconforms v (descent.walk_subset hnode hv)
  unfold leftOut at hc
  cases hform : u.form with
  | switch =>
      rw [hform] at hc
      rcases List.mem_append.mp hc with hc | hc
      · exact hself.beside (by simp [readsFields, hform]) c hc
      · obtain ⟨w, hw, hc⟩ := List.mem_flatMap.mp hc
        exact bears_of_mem_unlisted (hwrapper w hw) hc
  | guarded =>
      rw [hform] at hc
      rcases List.mem_append.mp hc with hc | hc
      · exact hself.beside (by simp [readsFields, hform]) c hc
      · obtain ⟨w, hw, hc⟩ := List.mem_flatMap.mp hc
        obtain ⟨hbody, hrest⟩ := hself.final hform w hw
        rw [hidden_eq_nil hbody, List.nil_append] at hc
        exact hrest c hc
  | case =>
      rw [hform] at hc
      obtain ⟨hbeside, hnot⟩ := List.mem_filter.mp hc
      -- What is listed beside the tested value is left out only if it is taken for the value.
      cases hlisted : c.row.listed with
      | false =>
          refine bears_of_mem_unlisted hconforms (List.mem_filter.mpr ⟨?_, by simp [hlisted]⟩)
          exact children_perm.symm.subset (by simp [hbeside])
      | true => exact hself.test hform c hbeside (by simpa [hlisted] using hnot)
  | block | parenthesized | elseClause | binary | default | exit | other =>
      rw [hform] at hc
      exact bears_of_mem_unlisted hconforms hc
  | identifier =>
      rw [hform] at hc
      refine hself.barren (.inr (.inl hform)) c (children_perm.symm.subset ?_)
      exact List.mem_append_right _ (List.mem_append_right _ hc)
  | _ =>
      rw [hform] at hc
      exact hself.beside (by simp [readsFields, hform]) c hc

/-- What a node leaves out does not count, if the node conforms. What it leaves out with all below
it bears nothing, and what it looks through does not count itself. -/
theorem counts_of_mem_loss {v : ParseTree} (hv : v ∈ u.loss) : v.counts = false := by
  rw [loss, lost, passedOver_eq_nil hconforms, List.nil_append] at hv
  rcases List.mem_append.mp hv with hv | hv
  · exact (hconforms u (descent.self_mem_walk u)).wrappers v hv
  · obtain ⟨c, hc, hv⟩ := List.mem_flatMap.mp hv
    exact counts_of_bears (bears_of_mem_leftOut hconforms hc) hv

/-- What is handed on is part of the syntax. -/
theorem listed_of_mem_taken {c : ParseTree} (hc : c ∈ u.taken) : c.row.listed = true := by
  have hself := hconforms u (descent.self_mem_walk u)
  rcases List.mem_append.mp hc with hc | hc
  · obtain ⟨reading, hreading, hc⟩ := List.mem_flatMap.mp hc
    refine hself.fields reading.1 ?_ c (mem_inField?_of_mem_read hc)
    exact List.mem_append_left _ (List.mem_map_of_mem hreading)
  · have hlisted : ∀ w : ParseTree, c ∈ w.listed → c.row.listed = true := fun w hw =>
      (List.mem_filter.mp hw).2
    unfold spread at hc
    cases hform : u.form with
    | switch =>
        rw [hform] at hc
        obtain ⟨w, _, hc⟩ := List.mem_flatMap.mp hc
        exact hlisted w hc
    | guarded =>
        rw [hform] at hc
        obtain ⟨w, hw, hc⟩ := List.mem_flatMap.mp hc
        refine (hself.final hform w hw).1 c ?_
        exact (Option.filter_eq_some_iff.mp (Option.mem_toList.mp hc)).1
    | case =>
        rw [hform] at hc
        simp only [untested_eq, List.mem_filter, Bool.and_eq_true] at hc
        exact hc.2.1
    | block | parenthesized | elseClause | binary | default | exit | other =>
        rw [hform] at hc
        exact hlisted u hc
    | _ =>
        rw [hform] at hc
        cases hc

end

/-! ## Counting -/

/-- Nodes of a syntax tree are counted where they come from. -/
theorem countP_nodes_normalize {p : Tree → Bool} {q : ParseTree → Bool}
    (hsame : ∀ u, u.sole? = none → p (u.normalize source) = q u)
    (hsole : ∀ u, u.sole? ≠ none → q u = false) :
    (t.normalize source).nodes.countP p = (taking.walk t).countP q := by
  rw [nodes_normalize, List.countP_map, origins, List.countP_filter]
  refine List.countP_congr fun u _ => ?_
  cases hu : u.sole? with
  | none => simp [hsame u hu]
  | some v => simp [hsole u (by simp [hu])]

/-- No more nodes are handed on than there are, of whatever sort. -/
theorem countP_taking_le (q : ParseTree → Bool) :
    (taking.walk t).countP q ≤ t.nodes.countP q := by
  rw [nodes_perm.countP_eq, List.countP_append]
  exact Nat.le_add_right _ _

/-- Of the sorts that count, all named nodes are handed on. -/
theorem countP_taking_eq (ht : t.Conforms) {q : ParseTree → Bool}
    (hq : ∀ u, u.row.named = true → q u = true → u.counts = true) :
    (taking.walk t).countP q = t.nodes.countP fun u => u.row.named && q u := by
  have htaking : ∀ u ∈ taking.walk t, u ∈ t.nodes := fun u hu =>
    nodes_perm.symm.subset (List.mem_append_left _ hu)
  have hbelow : ∀ u ∈ taking.walk t, ∀ v ∈ u.nodes, v.ConformsAt := fun u hu v hv =>
    ht.at_nodes v (descent.walk_subset (htaking u hu) hv)
  have hnamed : ∀ u ∈ taking.walk t, u.row.named = true := by
    refine taking.forall_mem_walk ht.named fun u hu _ c hc => ?_
    have hlisted := listed_of_mem_taken (hbelow u hu) hc
    exact (Bool.and_eq_true_iff.mp hlisted).1
  -- The nodes that the walk does not come to are lost at one that it comes to.
  have hloss : ((taking.walk t).flatMap loss).countP (fun u => u.row.named && q u) = 0 := by
    refine List.countP_eq_zero.mpr fun v hv hcounts => ?_
    obtain ⟨u, hu, hv⟩ := List.mem_flatMap.mp hv
    obtain ⟨hvnamed, hvq⟩ := Bool.and_eq_true_iff.mp hcounts
    have := counts_of_mem_loss (hbelow u hu) hv
    simp [hq v hvnamed hvq] at this
  rw [nodes_perm.countP_eq, List.countP_append, hloss, Nat.add_zero]
  exact List.countP_congr fun u hu => by simp [hnamed u hu]

/-- Only parentheses and the keyword of an alternative give way to what they enclose. -/
theorem form_of_sole? (hsole : u.sole? ≠ none) :
    u.form = .parenthesized ∨ u.form = .elseClause := by
  unfold sole? at hsole
  split at hsole
  next hform _ => exact .inl hform
  next hform _ => exact .inr hform
  next => exact absurd rfl hsole

theorem contains_functionTypes : functionTypes.contains u.row.type = u.isFunction := by
  rw [Bool.eq_iff_iff, List.contains_iff_mem, isFunction_iff]

/-- A tree has one summary for each of its functions. -/
theorem length_functionSummaries (n : Tree) :
    n.functionSummaries.length = n.nodes.countP (·.kind = .function) := by
  rw [Tree.functionSummaries, List.length_map, Tree.functions, ← List.countP_eq_length_filter,
    Tree.nodes, List.countP_map]
  rfl

/-- Every node of a syntax tree comes from a node of the parse tree with its type and its range,
no two from the same. So no decision and no function is counted twice; and none is missed where
the tree conforms. -/
theorem normalize_counts_once (source : Bytes) (t : ParseTree) :
    (∃ us : List ParseTree, us.Subperm t.nodes ∧
      (t.normalize source).nodes = us.map (normalize source) ∧
      ∀ u ∈ us, (u.normalize source).head.type = u.row.type ∧
        (u.normalize source).range = u.row.range) ∧
    (t.normalize source).decisionPoints ≤ t.nodes.countP decides ∧
    (t.normalize source).functionSummaries.length ≤
      t.nodes.countP (functionTypes.contains ·.row.type) ∧
    (t.Conforms →
      (t.normalize source).decisionPoints = t.nodes.countP (fun u => u.row.named && u.decides) ∧
      (t.normalize source).functionSummaries.length =
        t.nodes.countP fun u => u.row.named && functionTypes.contains u.row.type) := by
  have htaking : (taking.walk t).Subperm t.nodes :=
    (List.sublist_append_left _ _).subperm.trans nodes_perm.symm.subperm
  have horigins : ∀ u ∈ t.origins, u.sole? = none := fun u hu => by
    simpa using (List.mem_filter.mp hu).2
  have hdecisions : (t.normalize source).decisionPoints = (taking.walk t).countP decides := by
    refine countP_nodes_normalize (fun u hu => ?_) fun u hu => ?_
    · rw [kind_normalize hu, decides_kindOf]
    · rw [decides_eq]
      rcases form_of_sole? hu with hform | hform <;> rw [hform]
  have hfunctions : (t.normalize source).functionSummaries.length =
      (taking.walk t).countP fun u => functionTypes.contains u.row.type := by
    rw [length_functionSummaries]
    refine countP_nodes_normalize (fun u hu => ?_) fun u hu => ?_
    · rw [kind_normalize hu, contains_functionTypes, Bool.eq_iff_iff, decide_eq_true_eq,
        kindOf_eq_function_iff]
    · rw [contains_functionTypes, isFunction]
      rcases form_of_sole? hu with hform | hform <;> rw [hform]
  refine ⟨⟨t.origins, List.filter_sublist.subperm.trans htaking, nodes_normalize, fun u hu => ?_⟩,
    ?_, ?_, fun ht => ⟨?_, ?_⟩⟩
  · rw [normalize_of_sole?_eq_none (horigins u hu)]
    exact ⟨rfl, rfl⟩
  · exact hdecisions ▸ countP_taking_le decides
  · exact hfunctions ▸ countP_taking_le _
  · exact hdecisions.trans (countP_taking_eq ht fun u hu hq => by simp [counts, hu, hq])
  · refine hfunctions.trans (countP_taking_eq ht fun u hu hq => ?_)
    rw [counts, hu, hq, Bool.or_true, Bool.and_true]

/-- Punctuation, a keyword or an operator. -/
def token (type : String) (start stop : Nat) (field : Option String) : ParseTree :=
  .node { type, start, stop, field, named := false } []

/-- A comment, then a function that is bound to a variable: a branch on two conditions, whose
first part returns one of two values and whose other part is a multiway branch with a comment
between its cases, then a guarded block. -/
def annotatedBinding : ParseTree :=
  sketch "program" 0 200 none
    [sketch "comment" 0 10 none [],
      sketch "lexical_declaration" 11 200 none
        [token "const" 11 16 none,
          sketch "variable_declarator" 17 199 none
            [sketch "identifier" 17 18 "name" [], token "=" 19 20 none,
              sketch "arrow_function" 21 199 "value"
                [sketch "identifier" 21 22 "parameter" [], token "=>" 23 25 none,
                  sketch "statement_block" 26 199 "body" [branch, guarded]]]]]
where
  branch :=
    sketch "if_statement" 27 140 none
      [token "if" 27 29 none,
        sketch "parenthesized_expression" 30 38 "condition"
          [token "(" 30 31 none,
            sketch "binary_expression" 31 37 none
              [sketch "identifier" 31 32 "left" [], token "&&" 33 35 "operator",
                sketch "identifier" 36 37 "right" []],
            token ")" 37 38 none],
        sketch "statement_block" 39 70 "consequence"
          [sketch "return_statement" 40 69 none
            [token "return" 40 46 none,
              sketch "ternary_expression" 47 68 none
                [sketch "identifier" 47 48 "condition" [], token "?" 49 50 none,
                  sketch "number" 51 52 "consequence" [], token ":" 53 54 none,
                  sketch "number" 55 56 "alternative" []]]],
        sketch "else_clause" 71 140 "alternative"
          [token "else" 71 75 none, sketch "statement_block" 76 140 none [multiway]]]
  multiway :=
    sketch "switch_statement" 77 139 none
      [sketch "identifier" 84 85 "value" [],
        sketch "switch_body" 87 139 "body"
          [sketch "switch_case" 88 100 none
            [token "case" 88 92 none, sketch "number" 93 94 "value" [], token ":" 94 95 none,
              sketch "expression_statement" 96 100 "body" []],
            sketch "comment" 101 110 none [],
            sketch "switch_default" 111 138 none [token "default" 111 118 none]]]
  guarded :=
    sketch "try_statement" 141 198 none
      [sketch "statement_block" 145 150 "body" [],
        sketch "catch_clause" 151 170 "handler"
          [sketch "identifier" 158 159 "parameter" [], sketch "statement_block" 160 170 "body" []],
        sketch "finally_clause" 171 198 "finalizer"
          [token "finally" 171 178 none,
            sketch "statement_block" 179 198 "body" [sketch "while_statement" 180 197 none []]]]

theorem annotatedBinding_counted :
    annotatedBinding.Conforms ∧ (annotatedBinding.normalize []).decisionPoints = 7 ∧
      (annotatedBinding.normalize []).functionSummaries.length = 1 := by
  have hconforms : annotatedBinding.Conforms := by decide +kernel
  obtain ⟨_, _, _, hexact⟩ := normalize_counts_once [] annotatedBinding
  obtain ⟨hdecisions, hfunctions⟩ := hexact hconforms
  exact ⟨hconforms, hdecisions.trans (by decide +kernel), hfunctions.trans (by decide +kernel)⟩

end Cyclomatic.ParseTree
