import Mathlib.Data.List.Flatten
import Cyclomatic.ParseTree.Normalize
import Cyclomatic.Proofs.Flow.Marks
import Cyclomatic.Proofs.Walk

/-! # Statements that are exposed

A statement of a parse tree is exposed if every node above it, up to the body of
the function, is one whose statements a syntax tree keeps as statements: a
block, an else clause, a branch, a loop, a multiway branch with its cases, or a
guarded block with its handler and its final part. What is exposed occurs in the
function, but more may occur there.
-/

namespace Cyclomatic

open Cyclomatic.Flow

namespace Form

/-- The types of the nodes of a form. All other types have the form `other`. -/
def types : Form → List String
  | .block => ["program", "statement_block"]
  | .parenthesized => ["parenthesized_expression"]
  | .elseClause => ["else_clause"]
  | .function .always => ["function_declaration", "generator_function_declaration"]
  | .function .plainOnly => ["method_definition"]
  | .function .never => ["function_expression", "function", "generator_function", "arrow_function"]
  | .declarator => ["variable_declarator"]
  | .branch => ["if_statement"]
  | .ternary => ["ternary_expression"]
  | .binary => ["binary_expression"]
  | .whileLoop => ["while_statement"]
  | .doLoop => ["do_statement"]
  | .forLoop => ["for_statement"]
  | .forIn => ["for_in_statement"]
  | .switch => ["switch_statement"]
  | .case => ["switch_case"]
  | .default => ["switch_default"]
  | .guarded => ["try_statement"]
  | .handler => ["catch_clause"]
  | .identifier => ["identifier", "shorthand_property_identifier"]
  | .exit => ["return_statement", "throw_statement"]
  | .other => []

/-- Each type is listed for one form only, the one it has. -/
theorem ofType_of_mem_types {form : Form} {type : String} (htype : type ∈ form.types) :
    ofType type = form := by
  have hall : ∀ s ∈ form.types, ofType s = form := by
    cases form with
    | function own => cases own <;> decide
    | _ => decide
  exact hall type htype

/-- Each type that has a form is listed for it. -/
theorem mem_types_ofType {type : String} (htype : ofType type ≠ .other) :
    type ∈ (ofType type).types := by
  unfold ofType at htype ⊢
  split <;> simp_all [types]

/-- What a node of a form is called as a decision, if it is one that is no expression. -/
def caption? : Form → Option Caption
  | .branch => some .branch
  | .whileLoop => some .whileLoop
  | .doLoop => some .doLoop
  | .forLoop | .forIn => some .forLoop
  | .switch => some .switch
  | .case | .default => some .case
  | .handler => some .handler
  | _ => none

/-- The forms of loops. -/
def loop? : Form → Option Loop
  | .whileLoop => some .pretest
  | .doLoop => some .posttest
  | .forLoop | .forIn => some .counting
  | _ => none

end Form

namespace ParseTree

def form (t : ParseTree) : Form := t.row.form

def isFunction (t : ParseTree) : Bool :=
  match t.form with
  | .function _ => true
  | _ => false

/-- A part of a multiway branch or of a guarded block; it does not stand as a statement. -/
def isClause (t : ParseTree) : Bool :=
  match t.form with
  | .case | .default | .handler => true
  | _ => false

/-- The decision that a node calls for. -/
def mark? (source : Bytes) (t : ParseTree) : Option Mark :=
  t.form.caption?.map (⟨·, (t.row.place source).site⟩)

/-- The children that count as syntax. -/
def listed (t : ParseTree) : List ParseTree := t.children.filter (·.row.listed)

/-- The first child in a field. -/
def inField? (name : String) (t : ParseTree) : Option ParseTree :=
  t.children.find? fun c => c.row.field == some name

/-- The first child in a field, unless a comment stands there. -/
def field? (name : String) (t : ParseTree) : Option ParseTree :=
  (t.inField? name).filter (!·.row.isComment)

/-- The children of a case without its tested value. -/
def untested (t : ParseTree) : List ParseTree :=
  match t.inField? "value" with
  | none => t.listed
  | some test =>
      t.listed.filter fun c => c.row.start != test.row.start || c.row.type != test.row.type

def asStatements (ts : List ParseTree) : List ParseTree := ts.filter (!·.isClause)

/-- The children that a node looks through, at what is below them. -/
def wrappers (t : ParseTree) : List ParseTree :=
  match t.form with
  | .switch => (t.inField? "body").toList
  | .guarded => (t.inField? "finalizer").toList
  | _ => []

/-- The statements and clauses right below a node, where a syntax tree keeps them. -/
def substatements (t : ParseTree) : List ParseTree :=
  match t.form with
  | .block | .elseClause | .default => asStatements t.listed
  | .parenthesized =>
      match t.listed with
      | [u] => asStatements [u]
      | _ => []
  | .branch => asStatements (t.field? "consequence").toList ++
      asStatements (t.field? "alternative").toList
  | .whileLoop | .doLoop | .forLoop | .forIn | .handler => asStatements (t.field? "body").toList
  | .switch => t.wrappers.flatMap listed
  | .case => asStatements t.untested
  | .guarded => asStatements (t.field? "body").toList ++ (t.field? "handler").toList ++
      t.wrappers.flatMap fun w => asStatements (w.field? "body").toList
  | _ => []

/-- The clauses of a multiway branch and of a guarded block are what the grammar has there. -/
structure ClausesFit (t : ParseTree) : Prop where
  cases : t.row.type = "switch_statement" → ∀ w ∈ t.inField? "body", ∀ c ∈ w.listed,
    c.row.type = "switch_case" ∨ c.row.type = "switch_default"
  handler : t.row.type = "try_statement" → ∀ h ∈ t.field? "handler", h.row.type = "catch_clause"

instance (t : ParseTree) : Decidable t.ClausesFit :=
  decidable_of_iff
    ((t.row.type = "switch_statement" → ∀ w ∈ t.inField? "body", ∀ c ∈ w.listed,
        c.row.type = "switch_case" ∨ c.row.type = "switch_default") ∧
      (t.row.type = "try_statement" → ∀ h ∈ t.field? "handler", h.row.type = "catch_clause"))
    ⟨fun h => ⟨h.1, h.2⟩, fun h => ⟨h.cases, h.handler⟩⟩

/-- The clauses of a statement are where they belong, and nothing is looked for inside
another function. -/
structure ClausesInPlace (t : ParseTree) : Prop extends ClausesFit t where
  wrappers : ∀ w ∈ t.wrappers, w.isFunction = false

instance (t : ParseTree) : Decidable t.ClausesInPlace :=
  decidable_of_iff (t.ClausesFit ∧ ∀ w ∈ t.wrappers, w.isFunction = false)
    ⟨fun h => ⟨h.1, h.2⟩, fun h => ⟨h.toClausesFit, h.wrappers⟩⟩

variable {t : ParseTree}

theorem form_of_mem_types {form : Form} (htype : t.row.type ∈ form.types) : t.form = form :=
  Form.ofType_of_mem_types htype

theorem mem_types_form (hform : t.form ≠ .other) : t.row.type ∈ t.form.types :=
  Form.mem_types_ofType hform

/-- What a multiway branch looks through its body at are cases. -/
theorem ClausesFit.form_cases (ht : t.ClausesFit) (hform : t.form = .switch) :
    ∀ c ∈ t.substatements, c.form = .case ∨ c.form = .default := by
  intro c hc
  rw [substatements, hform] at hc
  obtain ⟨w, hw, hc⟩ := List.mem_flatMap.mp hc
  have htype : t.row.type = "switch_statement" := by
    simpa [hform, Form.types] using mem_types_form (t := t) (by simp [hform])
  have hbody : w ∈ t.inField? "body" := by simpa [ParseTree.wrappers, hform] using hw
  rcases ht.cases htype w hbody c hc with hcase | hdefault
  · exact .inl (form_of_mem_types (by simp [hcase, Form.types]))
  · exact .inr (form_of_mem_types (by simp [hdefault, Form.types]))

/-- The handler of a guarded block is a handler by its form. -/
theorem ClausesFit.form_handler (ht : t.ClausesFit) (hform : t.form = .guarded) :
    ∀ h ∈ t.field? "handler", h.form = .handler := by
  intro h hh
  have htype : t.row.type = "try_statement" := by
    simpa [hform, Form.types] using mem_types_form (t := t) (by simp [hform])
  exact form_of_mem_types (by simp [ht.handler htype h hh, Form.types])

/-! ## Nothing is taken twice -/

variable {α : Type}

theorem subperm_flatMap {xs ys : List ParseTree} (h : xs.Subperm ys) (f : ParseTree → List α) :
    (xs.flatMap f).Subperm (ys.flatMap f) := by
  obtain ⟨zs, hperm, hsub⟩ := h
  exact (hperm.flatMap_right f).symm.subperm.trans (hsub.flatMap f).subperm

/-- Some nodes without the first one in each of some fields. -/
def without : List String → List ParseTree → List ParseTree
  | [], ts => ts
  | name :: names, ts => without names (ts.eraseP fun c => c.row.field == some name)

/-- The first node in each of some fields, and then all other nodes. -/
theorem inFields_append_without_perm {names : List String} (hnames : names.Nodup)
    (ts : List ParseTree) :
    ((names.flatMap fun name => (ts.find? fun c => c.row.field == some name).toList) ++
      without names ts).Perm ts := by
  induction names generalizing ts with
  | nil => exact List.Perm.refl ts
  | cons name names ih =>
      obtain ⟨hname, hnames⟩ := List.nodup_cons.mp hnames
      rw [List.flatMap_cons, without]
      cases hfind : ts.find? fun c => c.row.field == some name with
      | none =>
          rw [List.eraseP_of_forall_not fun c hc => List.find?_eq_none.mp hfind c hc]
          exact ih hnames ts
      | some c =>
          obtain ⟨hc, before, after, rfl, hbefore⟩ := List.find?_eq_some_iff_append.mp hfind
          have herase : (before ++ c :: after).eraseP (fun c => c.row.field == some name) =
              before ++ after := by
            rw [List.eraseP_append_right _ fun b hb => by simpa using hbefore b hb,
              List.eraseP_cons, hc]
            rfl
          -- The node that is erased is in no other field.
          have hothers : (names.flatMap fun n =>
              ((before ++ c :: after).find? fun c => c.row.field == some n).toList) =
              names.flatMap fun n =>
                ((before ++ after).find? fun c => c.row.field == some n).toList := by
            refine List.flatMap_congr fun n hn => ?_
            have hne : (c.row.field == some n) = false := by
              rw [beq_iff_eq.mp hc]
              simpa using fun heq : name = n => hname (heq ▸ hn)
            rw [List.find?_append, List.find?_append, List.find?_cons, hne]
          rw [herase, hothers]
          exact ((ih hnames (before ++ after)).cons c).trans List.perm_middle.symm

/-- Children in different fields are different children. -/
theorem inFields_subperm {names : List String} (hnames : names.Nodup) :
    (names.flatMap fun name => (t.inField? name).toList).Subperm t.children :=
  (List.sublist_append_left _ _).subperm.trans
    (inFields_append_without_perm hnames t.children).subperm

theorem toList_field?_sublist (name : String) :
    (t.field? name).toList.Sublist (t.inField? name).toList := by
  unfold field?
  cases t.inField? name with
  | none => exact List.Sublist.refl _
  | some c =>
      rw [Option.filter_some]
      split
      next => exact List.Sublist.refl _
      next => exact List.nil_sublist _

/-- What stands in a field is among the children. -/
theorem toList_field?_subperm (name : String) : (t.field? name).toList.Subperm t.children := by
  have hfields := @inFields_subperm t [name] (by simp)
  simp only [List.flatMap_cons, List.flatMap_nil, List.append_nil] at hfields
  exact (toList_field?_sublist name).subperm.trans hfields

theorem asStatements_sublist (ts : List ParseTree) : (asStatements ts).Sublist ts :=
  List.filter_sublist

theorem listed_sublist : t.listed.Sublist t.children := List.filter_sublist

theorem untested_sublist : t.untested.Sublist t.children := by
  unfold untested
  split
  next => exact listed_sublist
  next => exact List.filter_sublist.trans listed_sublist

/-- To look through some nodes at their children reaches nothing twice. -/
theorem below_subperm {ws : List ParseTree} {f : ParseTree → List α}
    {g : ParseTree → List ParseTree} (hg : ∀ w, (g w).Subperm w.children)
    (hf : ∀ w ∈ ws, (w.children.flatMap f).Subperm (f w)) :
    ((ws.flatMap g).flatMap f).Subperm (ws.flatMap f) := by
  induction ws with
  | nil => exact List.Subperm.refl _
  | cons w ws ih =>
      obtain ⟨hw, hws⟩ := List.forall_mem_cons.mp hf
      rw [List.flatMap_cons, List.flatMap_append, List.flatMap_cons]
      exact ((subperm_flatMap (hg w) f).trans hw).append (ih hws)

/-- Let a node be worth something, and the nodes that are looked through no less than
their children: then the statements below a node are worth no more than its children. -/
theorem substatements_subperm (f : ParseTree → List α)
    (hf : ∀ w ∈ t.wrappers, (w.children.flatMap f).Subperm (f w)) :
    (t.substatements.flatMap f).Subperm (t.children.flatMap f) := by
  unfold substatements
  cases hform : t.form with
  | block | elseClause | default =>
      exact (((asStatements_sublist _).trans listed_sublist).flatMap f).subperm
  | parenthesized =>
      simp only
      split
      next u hlisted =>
        have hsub : (asStatements [u]).Sublist t.children := by
          rw [← hlisted]
          exact (asStatements_sublist _).trans listed_sublist
        exact (hsub.flatMap f).subperm
      next => exact List.nil_subperm
  | branch =>
      have hfields := @inFields_subperm t ["consequence", "alternative"] (by simp)
      simp only [List.flatMap_cons, List.flatMap_nil, List.append_nil] at hfields
      refine subperm_flatMap (List.Subperm.trans (List.Sublist.subperm ?_) hfields) f
      exact ((asStatements_sublist _).trans (toList_field?_sublist _)).append
        ((asStatements_sublist _).trans (toList_field?_sublist _))
  | whileLoop | doLoop | forLoop | forIn | handler =>
      exact subperm_flatMap ((asStatements_sublist _).subperm.trans (toList_field?_subperm _)) f
  | case => exact (((asStatements_sublist _).trans untested_sublist).flatMap f).subperm
  | switch =>
      have hwrappers : t.wrappers = (t.inField? "body").toList := by rw [wrappers, hform]
      have hfields := @inFields_subperm t ["body"] (by simp)
      simp only [List.flatMap_cons, List.flatMap_nil, List.append_nil] at hfields
      refine (below_subperm (fun w => listed_sublist.subperm) hf).trans ?_
      rw [hwrappers]
      exact subperm_flatMap hfields f
  | guarded =>
      have hwrappers : t.wrappers = (t.inField? "finalizer").toList := by rw [wrappers, hform]
      have hfields := @inFields_subperm t ["body", "handler", "finalizer"] (by simp)
      simp only [List.flatMap_cons, List.flatMap_nil, List.append_nil] at hfields
      have hfinal := below_subperm
        (fun w => (asStatements_sublist _).subperm.trans (toList_field?_subperm "body")) hf
      rw [hwrappers] at hfinal
      have hothers : ((asStatements (t.field? "body").toList ++
          (t.field? "handler").toList).flatMap f).Subperm
          (((t.inField? "body").toList ++ (t.inField? "handler").toList).flatMap f) := by
        refine (List.Sublist.flatMap ?_ f).subperm
        exact ((asStatements_sublist _).trans (toList_field?_sublist _)).append
          (toList_field?_sublist _)
      refine List.Subperm.trans ?_ (subperm_flatMap hfields f)
      simp only [hwrappers, List.flatMap_append, List.append_assoc] at hfinal hothers ⊢
      rw [← List.append_assoc, ← List.append_assoc]
      exact hothers.append hfinal
  | _ => exact List.nil_subperm

/-! ## Walks -/

/-- Nothing is exposed below a function. Its statements are its own. -/
theorem substatements_of_isFunction (ht : t.isFunction = true) : t.substatements = [] := by
  unfold isFunction at ht
  split at ht
  next own hform => rw [substatements, hform]
  next => cases ht

/-- The statements right below a node are smaller than the node, all together. -/
theorem total_size_substatements_lt (t : ParseTree) : total size t.substatements < t.size := by
  have hlength (ts : List ParseTree) :
      (ts.flatMap fun u => List.replicate u.size ()).length = total size ts := by
    induction ts with
    | nil => rfl
    | cons u ts ih => simp [ih]
  have hsize (u : ParseTree) : total size u.children < u.size := descent.shrinks u
  have hsub := @substatements_subperm t _ (fun u => List.replicate u.size ()) fun w _ => by
    refine (List.sublist_replicate_iff.mpr ⟨_, Nat.le_of_lt (hsize w), ?_⟩).subperm
    refine List.eq_replicate_iff.mpr ⟨hlength _, fun _ _ => rfl⟩
  have hle := hsub.length_le
  rw [hlength, hlength] at hle
  exact Nat.lt_of_le_of_lt hle (hsize t)

/-- To the statements that are exposed. -/
def exposure : Descent ParseTree where
  next := substatements
  size := size
  shrinks := total_size_substatements_lt

/-- To everything outside nested functions. -/
def outside : Descent ParseTree where
  next t := if t.isFunction then [] else t.children
  size := size
  shrinks t := by
    have hsize : total size t.children < t.size := descent.shrinks t
    split
    next => exact Nat.zero_lt_of_lt hsize
    next => exact hsize

/-- The statements and clauses of a function that are exposed. -/
def exposed (t : ParseTree) : List ParseTree :=
  exposure.walkFrom (asStatements (t.field? "body").toList)

/-- The nodes of a function outside the functions nested in it. -/
def occurring (t : ParseTree) : List ParseTree := t.children.flatMap outside.walk

/-- What is exposed occurs. -/
theorem exposed_subperm_occurring (hplace : ∀ u ∈ t.exposed, u.ClausesInPlace) :
    t.exposed.Subperm t.occurring := by
  refine (exposure.walkFrom_subperm fun u hu => ?_).trans (subperm_flatMap ?_ outside.walk)
  · change ((u.substatements).flatMap outside.walk).Subperm
      ((if u.isFunction then [] else u.children).flatMap outside.walk)
    split
    next hfunction => rw [substatements_of_isFunction hfunction]
    next =>
      refine substatements_subperm outside.walk fun w hw => ?_
      have hnext : outside.next w = w.children :=
        if_neg (by simp [(hplace u hu).wrappers w hw])
      rw [outside.walk_eq w, hnext]
      exact (List.sublist_cons_self _ _).subperm
  · exact (asStatements_sublist _).subperm.trans (toList_field?_subperm "body")

end ParseTree

end Cyclomatic
