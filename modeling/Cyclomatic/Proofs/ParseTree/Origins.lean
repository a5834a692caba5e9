import Cyclomatic.Proofs.ParseTree.Presents

/-! # The origins of syntax nodes

Every node of a syntax tree comes from a node of the parse tree, and no two come
from the same one. Which nodes a parse node hands on to the syntax tree and
which it leaves out is told here by its form, once for all that is counted or
looked for in syntax trees.
-/

namespace Cyclomatic

namespace ParseTree

variable {source : Bytes} {t u : ParseTree}

/-- Every node of a parse tree, in source order. -/
def nodes (t : ParseTree) : List ParseTree := descent.walk t

/-! ## What a node hands on -/

/-- The node that takes the place of one which does nothing but enclose it. -/
def sole? (t : ParseTree) : Option ParseTree :=
  match t.form, t.listed with
  | .parenthesized, [u] | .elseClause, [u] => some u
  | _, _ => none

/-- The field that holds the parameters of a function. -/
def parameterField (t : ParseTree) : String :=
  if (t.inField? "parameters").isSome then "parameters" else "parameter"

/-- The fields whose nodes become children of a node, and for each of them whether a comment
in it is passed over. -/
def reads (t : ParseTree) : List (String × Bool) :=
  match t.form with
  | .function _ => [(t.parameterField, false), ("body", true)]
  | .declarator => [("name", false), ("value", true)]
  | .branch | .ternary => [("condition", true), ("consequence", true), ("alternative", true)]
  | .whileLoop => [("condition", true), ("body", true)]
  | .doLoop => [("body", true), ("condition", true)]
  | .forLoop => [("initializer", false), ("increment", false), ("condition", true), ("body", true)]
  | .forIn => [("left", false), ("right", false), ("body", true)]
  | .switch => [("value", true)]
  | .case => [("value", false)]
  | .guarded => [("body", true), ("handler", true)]
  | .handler => [("parameter", false), ("body", true)]
  | _ => []

/-- The node in a field that is read. -/
def read (t : ParseTree) (reading : String × Bool) : List ParseTree :=
  if reading.2 then (t.field? reading.1).toList else (t.inField? reading.1).toList

/-- The nodes that become children by other ways than a field of their parent. -/
def spread (t : ParseTree) : List ParseTree :=
  match t.form with
  | .switch => t.wrappers.flatMap listed
  | .guarded => t.wrappers.flatMap fun w => (w.field? "body").toList
  | .case => t.untested
  | .block | .parenthesized | .elseClause | .binary | .default | .exit | .other => t.listed
  | _ => []

/-- The nodes that become the children of a node, in the order of its slots. -/
def taken (t : ParseTree) : List ParseTree := t.reads.flatMap t.read ++ t.spread

/-! ## Types that are counted -/

/-- The types of branching statements and clauses, and of ternaries. -/
def decisionTypes : List String :=
  ["if_statement", "while_statement", "do_statement", "for_statement", "for_in_statement",
   "ternary_expression", "switch_case", "switch_default", "catch_clause"]

def functionTypes : List String :=
  ["function_declaration", "generator_function_declaration", "function_expression", "function",
   "generator_function", "arrow_function", "method_definition"]

def operator? (t : ParseTree) : Option String := (t.inField? "operator").map (·.row.type)

/-- Whether a node is of a type that adds a path, or a binary expression with an operator that
does. -/
def decides (t : ParseTree) : Bool :=
  decisionTypes.contains t.row.type || t.row.type = "binary_expression" &&
    (t.operator? = some "&&" || t.operator? = some "||")

/-- The types that add a path, by their forms. -/
theorem mem_decisionTypes_iff : t.row.type ∈ decisionTypes ↔
    t.form ∈ [.branch, .whileLoop, .doLoop, .forLoop, .forIn, .ternary, .case, .default,
      .handler] := by
  constructor
  · intro htype
    have hforms : t.row.type ∈ [Form.branch, .whileLoop, .doLoop, .forLoop, .forIn, .ternary, .case,
        .default, .handler].flatMap Form.types := htype
    obtain ⟨form, hform, htype⟩ := List.mem_flatMap.mp hforms
    rwa [form_of_mem_types htype]
  · intro hform
    have htype : t.row.type ∈ t.form.types := by
      refine mem_types_form fun heq => ?_
      simp [heq] at hform
    exact List.mem_flatMap.mpr ⟨t.form, hform, htype⟩

theorem type_eq_binary_iff : t.row.type = "binary_expression" ↔ t.form = .binary := by
  constructor
  · intro htype
    exact form_of_mem_types (by simp [htype, Form.types])
  · intro hform
    have htype := mem_types_form (t := t) (by simp [hform])
    simpa [hform, Form.types] using htype

/-- Of all operators only conjunction and disjunction add a path. -/
theorem decides_operatorKind (operator : Option String) :
    (Tree.operatorKind operator).decides = true ↔ operator = some "&&" ∨ operator = some "||" := by
  unfold Tree.operatorKind
  split <;> simp_all [Kind.decides]

/-- Whether a node adds a path is told by its form, and by the operator of a binary expression. -/
theorem decides_eq : t.decides =
    match t.form with
    | .branch | .whileLoop | .doLoop | .forLoop | .forIn | .ternary | .case | .default
    | .handler => true
    | .binary => (Tree.operatorKind t.operator?).decides
    | _ => false := by
  rw [decides, Bool.eq_iff_iff, Bool.or_eq_true, List.contains_iff_mem, mem_decisionTypes_iff]
  simp only [type_eq_binary_iff]
  cases t.form with
  | binary => simp [decides_operatorKind]
  | _ => simp

/-- The forms of functions are told by their types. -/
theorem isFunction_iff : t.isFunction = true ↔ t.row.type ∈ functionTypes := by
  have hperm : functionTypes.Perm
      ([OwnName.always, .plainOnly, .never].flatMap fun own => (Form.function own).types) := by
    decide
  rw [hperm.mem_iff, List.mem_flatMap, isFunction]
  constructor
  · intro hfunction
    split at hfunction
    next own hform =>
      have htype := mem_types_form (t := t) (by simp [hform])
      exact ⟨own, by cases own <;> simp, hform ▸ htype⟩
    next => cases hfunction
  · rintro ⟨own, _, htype⟩
    rw [form_of_mem_types htype]

/-! ## The syntax node that a parse node becomes -/

theorem slots_operatorKind (operator : Option String) :
    (Tree.operatorKind operator).slots = [.operands] := by
  unfold Tree.operatorKind
  split <;> rfl

theorem operatorKind_ne_function (operator : Option String) :
    Tree.operatorKind operator ≠ .function := by
  unfold Tree.operatorKind
  split <;> simp

/-- What is found in some fields is what stands there, after it was rewritten. -/
theorem treesOf_toChild (names : List String) :
    Child.treesOf names (t.children.map (toChild source)) =
      (names.flatMap fun name => (t.inField? name).toList).map (normalize source) := by
  unfold Child.treesOf
  induction names with
  | nil => rfl
  | cons name names ih =>
      rw [List.filterMap_cons, inField?_toChild, List.flatMap_cons, List.map_append, ← ih]
      cases t.inField? name <;> rfl

/-- Parameters are found under one name or, failing that, under the other. -/
theorem parameters_toChild :
    ((Child.inField? "parameters" (t.children.map (toChild source))).or
      (Child.inField? "parameter" (t.children.map (toChild source)))).toList.map (·.tree) =
      (t.inField? t.parameterField).toList.map (normalize source) := by
  rw [inField?_toChild, inField?_toChild, parameterField]
  cases hlist : t.inField? "parameters" with
  | none => cases hsingle : t.inField? "parameter" <;> simp [hsingle]
  | some p => simp [hlist]

/-- The kind of the syntax node that a node becomes. -/
def kindOf (t : ParseTree) : Kind :=
  match t.form with
  | .block | .elseClause => .block
  | .function _ => .function
  | .declarator => .binding
  | .branch => .branch
  | .ternary => .ternary
  | .binary => Tree.operatorKind t.operator?
  | .whileLoop => .whileLoop
  | .doLoop => .doLoop
  | .forLoop | .forIn => .forLoop
  | .switch => .switch
  | .case | .default => .case
  | .guarded => .guarded
  | .handler => .handler
  | .identifier => .identifier
  | .parenthesized | .exit | .other => .plain

/-- A node adds a path in the syntax tree if it does in the parse tree. -/
theorem decides_kindOf : t.kindOf.decides = t.decides := by
  rw [decides_eq, kindOf]
  cases t.form <;> rfl

/-- Functions become functions, and nothing else does. -/
theorem kindOf_eq_function_iff : t.kindOf = .function ↔ t.isFunction = true := by
  unfold kindOf isFunction
  cases t.form with
  | binary => simp [operatorKind_ne_function]
  | _ => simp

/-- The name of the syntax node that a node becomes. -/
def nameOf? (source : Bytes) (t : ParseTree) : Option String :=
  match t.form with
  | .function own => Tree.ownName? source own (t.children.map (toChild source))
  | .declarator => Tree.boundName? source (t.children.map (toChild source))
  | .identifier => some (t.row.text source)
  | _ => none

def headOf (source : Bytes) (t : ParseTree) : Head :=
  { t.row.head source t.kindOf with
    name := t.nameOf? source
    operator := if t.form = .binary then t.operator? else none
    exits := t.form = .exit }

/-- The slots of the syntax node that a node becomes. -/
def slotsOf (source : Bytes) (t : ParseTree) : Tree.Slots :=
  let field name := (t.field? name).map (normalize source)
  let direct name := (t.inField? name).toList.map (normalize source)
  let rest := t.spread.map (normalize source)
  match t.form with
  | .block | .elseClause | .default => { statements := rest }
  | .parenthesized | .binary | .exit | .other => { operands := rest }
  | .function _ => { operands := direct t.parameterField, body := field "body" }
  | .declarator => { operands := direct "name", value := field "value" }
  | .branch | .ternary =>
      { condition := field "condition", consequent := field "consequence"
        alternate := field "alternative" }
  | .whileLoop | .doLoop => { condition := field "condition", body := field "body" }
  | .forLoop =>
      { operands := direct "initializer" ++ direct "increment", condition := field "condition"
        body := field "body" }
  | .forIn => { operands := direct "left" ++ direct "right", body := field "body" }
  | .switch => { condition := field "value", cases := rest }
  | .case => { condition := (t.inField? "value").map (normalize source), statements := rest }
  | .guarded =>
      { body := field "body", handler := field "handler"
        finalizer := ((t.inField? "finalizer").bind (field? "body")).map (normalize source) }
  | .handler => { operands := direct "parameter", body := field "body" }
  | .identifier => {}

/-- A node that only encloses another becomes what the other becomes. -/
theorem normalize_of_sole?_eq_some {v : ParseTree} (hsole : u.sole? = some v) :
    u.normalize source = v.normalize source := by
  unfold sole? at hsole
  split at hsole
  next hform hlisted =>
    cases hsole
    rw [normalize_eq, Tree.assemble, ← form, hform]
    simp only [unwrap_toChild, hlisted]
  next hform hlisted =>
    cases hsole
    rw [normalize_eq, Tree.assemble, ← form, hform]
    simp only [unwrap_toChild, hlisted]
  next => cases hsole

theorem unwrap_of_sole?_eq_none (hsole : u.sole? = none)
    (hform : u.form = .parenthesized ∨ u.form = .elseClause) (whole : List Tree → Tree) :
    Tree.unwrap (u.children.map (toChild source)) whole =
      whole (u.listed.map (normalize source)) := by
  rw [unwrap_toChild]
  split
  next v hlisted => rcases hform with hform | hform <;> simp [sole?, hform, hlisted] at hsole
  next => rfl

/-- All other nodes become a node of their own, with its own head and slots. -/
theorem normalize_of_sole?_eq_none (hsole : u.sole? = none) :
    u.normalize source = .ofSlots (u.headOf source) (u.slotsOf source) := by
  rw [normalize_eq, Tree.assemble, headOf, slotsOf, kindOf, nameOf?, spread, ← form]
  cases hform : u.form with
  | parenthesized =>
      simp only [unwrap_of_sole?_eq_none hsole (.inl hform)]
      rfl
  | elseClause =>
      simp only [unwrap_of_sole?_eq_none hsole (.inr hform)]
      rfl
  | switch =>
      have hcases := @cases_toChild source u hform
      rw [substatements, hform] at hcases
      simp only [← hcases, treeOf?_toChild]
      rfl
  | guarded =>
      simp only [treeOf?_toChild, finalizer_toChild]
      rfl
  | function own =>
      simp only [treeOf?_toChild, parameters_toChild]
      rfl
  | case =>
      simp only [inField?_toChild, caseStatements_toChild, Option.map_map]
      rfl
  | binary =>
      have hoperator : (Child.inField? "operator" (u.children.map (toChild source))).map
          (·.row.type) = u.operator? := by
        rw [inField?_toChild, operator?, Option.map_map]
        simp only [Function.comp_def, row_toChild]
      simp only [hoperator, listed_toChild, trees_toChild]
      rfl
  | _ =>
      simp only [treeOf?_toChild, treesOf_toChild, listed_toChild, trees_toChild,
        List.flatMap_cons, List.flatMap_nil, List.append_nil, List.map_append]
      rfl

/-- The kind of what a node becomes is told by its form. -/
theorem kind_normalize (hsole : u.sole? = none) : (u.normalize source).kind = u.kindOf := by
  rw [normalize_of_sole?_eq_none hsole]
  rfl

/-- A slot that is not one of the node's kind is empty. -/
theorem inSlot_normalize (hsole : u.sole? = none) {slot : Slot} (hslot : slot ∉ u.kindOf.slots) :
    (u.normalize source).inSlot slot = [] := by
  rw [normalize_of_sole?_eq_none hsole, slotsOf]
  unfold kindOf at hslot
  cases hform : u.form with
  | binary =>
      simp only [hform, slots_operatorKind] at hslot
      cases slot <;> first | rfl | simp at hslot
  | _ =>
      rw [hform] at hslot
      cases slot <;> first | rfl | simp [Kind.slots] at hslot

/-- The children of what a node becomes come from the nodes that it hands on, in the same order. -/
theorem children_normalize (hsole : u.sole? = none) :
    (u.normalize source).children = u.taken.map (normalize source) := by
  rw [Tree.children, kind_normalize hsole, normalize_of_sole?_eq_none hsole, taken, slotsOf, kindOf,
    reads, spread]
  cases hform : u.form with
  | binary => simp [slots_operatorKind, Tree.inSlot, Tree.operands, Tree.ofSlots]
  | guarded =>
      simp only [wrappers, hform]
      cases u.inField? "finalizer" <;>
        simp [Kind.slots, Tree.inSlot, Tree.ofSlots, read, Tree.body, Tree.handler, Tree.finalizer,
          Option.toList_map]
  | _ =>
      simp [Kind.slots, Tree.inSlot, Tree.ofSlots, read, Tree.condition, Tree.consequent,
        Tree.alternate, Tree.body, Tree.value, Tree.statements, Tree.cases, Tree.operands,
        Option.toList_map]

/-! ## What a node leaves out -/

/-- A comment in a field where comments are passed over. -/
def hidden (t : ParseTree) (name : String) : List ParseTree :=
  ((t.inField? name).filter (·.row.isComment)).toList

def passedOver (t : ParseTree) : List ParseTree :=
  (t.reads.filter (·.2)).flatMap fun reading => t.hidden reading.1

/-- The fields that a node looks at, those of the nodes it looks through included. -/
def fields (t : ParseTree) : List String :=
  t.reads.map (·.1) ++ match t.form with
    | .switch => ["body"]
    | .guarded => ["finalizer"]
    | _ => []

/-- The children that stand in none of the fields that a node looks at, or are not the first
there. -/
def beside (t : ParseTree) : List ParseTree := without t.fields t.children

def unlisted (t : ParseTree) : List ParseTree := t.children.filter (!·.row.listed)

/-- Whether a node is taken for the tested value of a case. -/
def isTest (t c : ParseTree) : Bool :=
  (t.inField? "value").any fun test => c.row.start == test.row.start && c.row.type == test.row.type

/-- The nodes that are left out with all that is below them, comments in fields aside. -/
def leftOut (t : ParseTree) : List ParseTree :=
  match t.form with
  | .switch => t.beside ++ t.wrappers.flatMap unlisted
  | .guarded => t.beside ++
      t.wrappers.flatMap fun w => w.hidden "body" ++ without ["body"] w.children
  | .case => t.beside.filter fun c => !(c.row.listed && !t.isTest c)
  | .block | .parenthesized | .elseClause | .binary | .default | .exit | .other => t.unlisted
  | _ => t.beside

/-- All nodes that are left out with what is below them. -/
def lost (t : ParseTree) : List ParseTree := t.passedOver ++ t.leftOut

/-- In a field there is a node that counts as syntax, or a comment, or nothing. -/
theorem toList_inField? (name : String) :
    (t.inField? name).toList = (t.field? name).toList ++ t.hidden name := by
  unfold field? hidden
  cases t.inField? name with
  | none => rfl
  | some c => cases hcomment : c.row.isComment <;> simp [Option.filter_some, hcomment]

/-- What stands in the fields that are read is handed on, comments that are passed over aside. -/
theorem reads_perm (readings : List (String × Bool)) :
    (readings.flatMap fun reading => (t.inField? reading.1).toList).Perm
      (readings.flatMap t.read ++
        (readings.filter (·.2)).flatMap fun reading => t.hidden reading.1) := by
  induction readings with
  | nil => exact List.Perm.refl _
  | cons reading readings ih =>
      obtain ⟨name, passes⟩ := reading
      cases passes with
      | false =>
          simp only [List.flatMap_cons, read, Bool.false_eq_true, if_false, List.append_assoc,
            List.filter_cons]
          exact ih.append_left _
      | true =>
          simp only [List.flatMap_cons, read, if_true, List.append_assoc, List.filter_cons,
            toList_inField? name]
          refine List.Perm.append_left _ ((ih.append_left _).trans ?_)
          exact List.perm_append_comm_assoc _ _ _

theorem parameterField_ne_body : t.parameterField ≠ "body" := by
  unfold parameterField
  split <;> simp

theorem nodup_fields : t.fields.Nodup := by
  unfold fields reads
  cases t.form with
  | function own => simp [parameterField_ne_body]
  | _ => simp

/-- The nodes that are looked through are found by their fields. -/
theorem wrappers_eq : t.wrappers = (match t.form with
    | .switch => ["body"]
    | .guarded => ["finalizer"]
    | _ => []).flatMap fun name => (t.inField? name).toList := by
  unfold wrappers
  cases t.form <;> simp

/-- The children of a node by what becomes of them. -/
theorem children_perm : t.children.Perm
    (t.reads.flatMap t.read ++ t.passedOver ++ (t.wrappers ++ t.beside)) := by
  have hfields := (inFields_append_without_perm (nodup_fields (t := t)) t.children).symm
  refine hfields.trans ?_
  have hsplit : (t.fields.flatMap fun name =>
      (t.children.find? fun c => c.row.field == some name).toList) =
      (t.reads.flatMap fun reading => (t.inField? reading.1).toList) ++ t.wrappers := by
    rw [fields, List.flatMap_append, wrappers_eq, List.flatMap_map]
    rfl
  rw [hsplit, List.append_assoc]
  exact (reads_perm t.reads).append_right _

/-- A child is listed or not. -/
theorem listed_append_unlisted_perm : (t.listed ++ t.unlisted).Perm t.children :=
  List.filter_append_perm _ _

/-- The statements of a case are the listed children that are not taken for its tested value. -/
theorem untested_eq : t.untested = t.children.filter fun c => c.row.listed && !t.isTest c := by
  unfold untested listed isTest
  cases t.inField? "value" with
  | none => simp
  | some test =>
      simp only [List.filter_filter, Option.any_some]
      refine List.filter_congr fun c _ => ?_
      rw [Bool.and_comm, Bool.not_and]
      rfl

/-- The statements of a case stand beside its tested value. -/
theorem untested_perm (hform : t.form = .case) :
    t.untested.Perm (t.beside.filter fun c => c.row.listed && !t.isTest c) := by
  have hchildren := @children_perm t
  simp only [reads, passedOver, wrappers, read, hform, List.flatMap_singleton] at hchildren
  simp only [Bool.false_eq_true, if_false, List.filter_cons, List.filter_nil, List.flatMap_nil,
    List.append_nil, List.nil_append] at hchildren
  -- The tested value itself is not among what is spread.
  have htest :
      (t.inField? "value").toList.filter (fun c => c.row.listed && !t.isTest c) = [] := by
    cases hvalue : t.inField? "value" <;> simp [isTest, hvalue]
  have hfilter := hchildren.filter fun c => c.row.listed && !t.isTest c
  rwa [← untested_eq, List.filter_append, htest, List.nil_append] at hfilter

open List in
/-- Some nodes with all that is below them, if each child of theirs is kept or dropped. -/
theorem flatMap_walk_perm {kept dropped : ParseTree → List ParseTree}
    (hparts : ∀ w : ParseTree, w.children.Perm (kept w ++ dropped w)) (ws : List ParseTree) :
    (ws.flatMap descent.walk).Perm ((ws.flatMap kept).flatMap descent.walk ++
      (ws ++ (ws.flatMap dropped).flatMap descent.walk)) := by
  have hwalk (w : ParseTree) : (descent.walk w).Perm
      ((kept w).flatMap descent.walk ++ ([w] ++ (dropped w).flatMap descent.walk)) := by
    have hchildren := (hparts w).flatMap_right descent.walk
    rw [List.flatMap_append] at hchildren
    rw [descent.walk_eq]
    exact (hchildren.cons w).trans List.perm_middle.symm
  calc ws.flatMap descent.walk
      ~ ws.flatMap fun w =>
          (kept w).flatMap descent.walk ++ ([w] ++ (dropped w).flatMap descent.walk) :=
        Perm.flatMap_left ws fun w _ => hwalk w
    _ ~ (ws.flatMap fun w => (kept w).flatMap descent.walk) ++
          ws.flatMap fun w => [w] ++ (dropped w).flatMap descent.walk :=
        (flatMap_append_perm ws _ _).symm
    _ ~ (ws.flatMap kept).flatMap descent.walk ++
          (ws ++ (ws.flatMap dropped).flatMap descent.walk) := by
        have hown := (flatMap_append_perm ws (fun w => [w]) fun w =>
          (dropped w).flatMap descent.walk).symm
        rw [flatMap_singleton'] at hown
        rw [flatMap_assoc, flatMap_assoc]
        exact hown.append_left _

/-- What is neither in a field that is read nor passed over is spread, looked through or left
out. -/
theorem spread_perm : ((t.wrappers ++ t.beside).flatMap descent.walk).Perm
    (t.spread.flatMap descent.walk ++ (t.wrappers ++ t.leftOut.flatMap descent.walk)) := by
  have hwrappers := @wrappers_eq t
  unfold spread leftOut
  rw [List.flatMap_append]
  cases hform : t.form with
  | switch =>
      have hbelow := flatMap_walk_perm (fun w => listed_append_unlisted_perm.symm) t.wrappers
      refine (hbelow.append_right _).trans ?_
      simp only [List.flatMap_append, List.append_assoc]
      exact List.Perm.append_left _ (List.Perm.append_left _ List.perm_append_comm)
  | guarded =>
      have hparts (w : ParseTree) : w.children.Perm
          ((w.field? "body").toList ++ (w.hidden "body" ++ without ["body"] w.children)) := by
        have hfields := inFields_append_without_perm (by simp : ["body"].Nodup) w.children
        rw [List.flatMap_singleton] at hfields
        rw [← List.append_assoc, ← toList_inField?]
        exact hfields.symm
      refine ((flatMap_walk_perm hparts t.wrappers).append_right _).trans ?_
      simp only [List.flatMap_append, List.append_assoc]
      exact List.Perm.append_left _ (List.Perm.append_left _ List.perm_append_comm)
  | case =>
      rw [hform] at hwrappers
      simp only [hwrappers, List.flatMap_nil, List.nil_append]
      rw [← List.flatMap_append]
      have huntested := (untested_perm hform).symm
      refine List.Perm.flatMap_right _ (List.Perm.trans ?_ (huntested.append_right _))
      exact (List.filter_append_perm _ _).symm
  | block | parenthesized | elseClause | binary | default | exit | other =>
      have hbeside : t.beside = t.children := by
        simp [beside, fields, reads, hform, without]
      rw [hform] at hwrappers
      simp only [hwrappers, hbeside, List.flatMap_nil, List.nil_append]
      rw [← List.flatMap_append]
      exact listed_append_unlisted_perm.symm.flatMap_right _
  | _ =>
      rw [hform] at hwrappers
      simp [hwrappers]

/-- What of the nodes below a node does not reach the syntax tree, as far as the node itself
leaves it out. -/
def loss (t : ParseTree) : List ParseTree := t.wrappers ++ t.lost.flatMap descent.walk

/-- All nodes below a node are below one that it hands on, or are left out. -/
theorem taken_append_loss_perm :
    (t.children.flatMap descent.walk).Perm (t.taken.flatMap descent.walk ++ t.loss) := by
  have hchildren := (@children_perm t).flatMap_right descent.walk
  refine hchildren.trans ?_
  rw [List.flatMap_append]
  refine (spread_perm.append_left _).trans ?_
  simp only [taken, loss, lost, List.flatMap_append, List.append_assoc]
  refine List.Perm.append_left _ ((List.perm_append_comm_assoc _ _ _).trans ?_)
  exact List.Perm.append_left _ (List.perm_append_comm_assoc _ _ _)

/-! ## The walk to all that is handed on -/

theorem length_flatMap {α : Type} {f : ParseTree → List α} {ts : List ParseTree}
    (hlength : ∀ u ∈ ts, (f u).length = u.size) : (ts.flatMap f).length = total size ts := by
  induction ts with
  | nil => rfl
  | cons u ts ih =>
      obtain ⟨hu, hts⟩ := List.forall_mem_cons.mp hlength
      rw [List.flatMap_cons, List.length_append, hu, ih hts, total]

/-- The size of a tree is the number of its nodes. -/
theorem length_walk (t : ParseTree) : (descent.walk t).length = t.size := by
  induction t using descent.induct with
  | hnext t ih =>
      obtain ⟨row, cs⟩ := t
      rw [descent.walk_eq, List.length_cons, length_flatMap ih, size, sizeList_eq, Nat.add_comm]
      rfl

/-- The nodes that a node hands on are smaller than the node, all together. -/
theorem total_size_taken_lt (t : ParseTree) : total size t.taken < t.size := by
  have hlength := (@taken_append_loss_perm t).length_eq
  rw [List.length_append, length_flatMap fun u _ => length_walk u,
    length_flatMap fun u _ => length_walk u] at hlength
  have hchildren : total size t.children < t.size := descent.shrinks t
  omega

/-- To all that is handed on to the syntax tree. -/
def taking : Descent ParseTree where
  next := taken
  size := size
  shrinks := total_size_taken_lt

/-- The nodes that the nodes of the syntax tree come from, in the order of the syntax tree. -/
def origins (t : ParseTree) : List ParseTree := (taking.walk t).filter (·.sole?.isNone)

/-- Every node of a parse tree is handed on once, or else is left out once by a node that is handed
on. -/
theorem nodes_perm : t.nodes.Perm (taking.walk t ++ (taking.walk t).flatMap loss) := by
  have hperm := taking.flatMap_walk_perm_append (fun u => @taken_append_loss_perm u) [t]
  rwa [List.flatMap_singleton] at hperm

theorem taken_of_sole? {v : ParseTree} (hsole : t.sole? = some v) : t.taken = [v] := by
  unfold sole? at hsole
  split at hsole
  next hform hlisted =>
    cases hsole
    simp [taken, reads, spread, hform, hlisted]
  next hform hlisted =>
    cases hsole
    simp [taken, reads, spread, hform, hlisted]
  next => cases hsole

/-- The origins of a tree: the node itself, unless it only encloses another, and the origins of
what it hands on. -/
theorem origins_eq : t.origins =
    (if t.sole?.isNone then [t] else []) ++ t.taken.flatMap origins := by
  rw [origins, taking.walk_eq, List.filter_cons, List.filter_flatMap]
  split <;> rfl

/-- The nodes of a syntax tree come from their origins, one each and in the same order. -/
theorem nodes_normalize : (t.normalize source).nodes = t.origins.map (normalize source) := by
  induction t using taking.induct with
  | hnext t ih =>
      rw [origins_eq]
      cases hsole : t.sole? with
      | some v =>
          have htaken := taken_of_sole? hsole
          have hv := ih v (by simp [taking, htaken])
          rw [normalize_of_sole?_eq_some hsole, hv, htaken]
          simp
      | none =>
          have hbelow : t.taken.flatMap (fun v => (v.normalize source).nodes) =
              t.taken.flatMap fun v => v.origins.map (normalize source) :=
            List.flatMap_congr ih
          have hnext : Tree.descent.next (t.normalize source) = t.taken.map (normalize source) :=
            children_normalize hsole
          rw [Tree.nodes_eq_walk, Tree.descent.walk_eq, hnext, List.flatMap_map]
          simp only [← Tree.nodes_eq_walk, hbelow, List.map_flatMap, Option.isNone_none, if_true,
            List.cons_append, List.nil_append, List.map_cons]

end ParseTree

end Cyclomatic
