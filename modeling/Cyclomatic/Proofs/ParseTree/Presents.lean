import Cyclomatic.Proofs.ParseTree.Exposure
import Cyclomatic.Proofs.Tree.Trails

/-! # What parse nodes become

A parse node that is exposed becomes a node that an outline goes into, with the
same decision and with what is exposed below it; or it becomes a node without
decisions. This holds for each form of node, and so for all that is exposed.
-/

namespace Cyclomatic

open Cyclomatic.Flow

namespace ParseTree

/-! ## The syntax tree of a node, from its children -/

section

variable {source : Bytes} {t : ParseTree} {name : String}

/-- Children are rewritten one by one. -/
theorem toChildren_eq (ts : List ParseTree) : toChildren source ts = ts.map (toChild source) := by
  induction ts with
  | nil => rw [toChildren, List.map_nil]
  | cons t ts ih => rw [toChildren, ih, List.map_cons]

@[simp] theorem row_toChild (t : ParseTree) : (t.toChild source).row = t.row := by
  obtain ⟨row, cs⟩ := t
  rw [toChild]
  rfl

@[simp] theorem tree_toChild (t : ParseTree) : (t.toChild source).tree = t.normalize source := rfl

/-- Behind a child the children below it can be seen as well. -/
theorem inner_toChild (t : ParseTree) : (t.toChild source).inner =
    t.children.map fun c => (c.row, c.normalize source) := by
  obtain ⟨row, cs⟩ := t
  rw [toChild, toChildren_eq]
  simp [children, Function.comp_def]

/-- A node is assembled from its row and its children. -/
theorem normalize_eq (t : ParseTree) :
    t.normalize source = Tree.assemble source t.row (t.children.map (toChild source)) := by
  obtain ⟨row, cs⟩ := t
  rw [normalize, toChild, toChildren_eq]
  rfl

theorem inField?_toChild : Child.inField? name (t.children.map (toChild source)) =
    (t.inField? name).map (toChild source) := by
  rw [Child.inField?, inField?, List.find?_map]
  simp only [Function.comp_def, row_toChild]

/-- A field gives what stands in it, after it was rewritten, unless a comment stands there. -/
theorem treeOf?_toChild : Child.treeOf? name (t.children.map (toChild source)) =
    (t.field? name).map (normalize source) := by
  rw [Child.treeOf?, inField?_toChild, field?]
  cases t.inField? name with
  | none => rfl
  | some c => cases hcomment : c.row.isComment <;> simp [Option.filter_some, hcomment]

theorem listed_toChild : Child.listed (t.children.map (toChild source)) =
    t.listed.map (toChild source) := by
  simp [Child.listed, listed, List.filter_map, Function.comp_def]

theorem trees_toChild (ts : List ParseTree) : Child.trees (ts.map (toChild source)) =
    ts.map (normalize source) := by
  simp [Child.trees, Function.comp_def]

/-- The statements of a case come from all children but its tested value. -/
theorem caseStatements_toChild : Tree.caseStatements (t.children.map (toChild source)) =
    t.untested.map (normalize source) := by
  rw [Tree.caseStatements, inField?_toChild, untested, listed_toChild]
  cases t.inField? "value" with
  | none => exact trees_toChild _
  | some test => simp [Child.trees, List.filter_map, Function.comp_def]

/-- The final block is found in the body of the final clause, which itself is looked through. -/
theorem finalizer_toChild :
    (do
      let clause ← Child.inField? "finalizer" (t.children.map (toChild source))
      let (row, tree) ← clause.inner.find? fun (row, _) => row.field == some "body"
      if row.isComment then none else some tree) =
    ((t.inField? "finalizer").bind (field? "body")).map (normalize source) := by
  rw [inField?_toChild]
  cases t.inField? "finalizer" with
  | none => rfl
  | some w =>
      simp only [Option.map_some, Option.bind_eq_bind, Option.bind_some, inner_toChild,
        List.find?_map, field?, inField?, Function.comp_def]
      cases w.children.find? fun c => c.row.field == some "body" with
      | none => rfl
      | some c => cases hcomment : c.row.isComment <;> simp [Option.filter_some, hcomment]

/-- The cases of a multiway branch are found one level further down. -/
theorem cases_toChild (hform : t.form = .switch) :
    (match Child.inField? "body" (t.children.map (toChild source)) with
      | some body => (body.inner.filter (·.1.listed)).map (·.2)
      | none => []) = t.substatements.map (normalize source) := by
  simp only [inField?_toChild, substatements, hform, wrappers]
  cases t.inField? "body" with
  | none => rfl
  | some w => simp [inner_toChild, List.filter_map, Function.comp_def, listed]

/-- Parentheses around one node give way to it. Otherwise they hold all that is listed. -/
theorem unwrap_toChild (whole : List Tree → Tree) :
    Tree.unwrap (t.children.map (toChild source)) whole =
      match t.listed with
      | [u] => u.normalize source
      | us => whole (us.map (normalize source)) := by
  rw [Tree.unwrap, listed_toChild]
  match t.listed with
  | [] => rfl
  | [u] => rfl
  | u :: v :: us => simp [Child.trees, Function.comp_def]

end

/-! ## Parse trees with the nodes they become -/

open Trail

/-- Some nodes of a syntax tree have the decisions of the parse nodes they come from. -/
structure Presents (source : Bytes) (us : List ParseTree) (xs : List Trail) : Prop where
  marks_eq : (marks xs).filter (·.caption ≠ .ternary) =
    (exposure.walkFrom us).filterMap (mark? source)
  inPlace : InPlace xs
  stays : Stays xs

/-- What a parse node that is exposed becomes. -/
def trail (source : Bytes) (u : ParseTree) : Trail :=
  ⟨u.normalize source, if u.isClause then .entered else (u.normalize source).standing⟩

namespace Presents

variable {source : Bytes} {u : ParseTree} {us vs : List ParseTree} {x : Trail}
  {xs ys : List Trail} {t : Tree}

/-- Statements one after the other have the decisions of all of them. -/
theorem append (hxs : Presents source us xs) (hys : Presents source vs ys) :
    Presents source (us ++ vs) (xs ++ ys) where
  marks_eq := by
    rw [marks_append, List.filter_append, Descent.walkFrom_append, List.filterMap_append,
      hxs.marks_eq, hys.marks_eq]
  inPlace := inPlace_append.mpr ⟨hxs.inPlace, hys.inPlace⟩
  stays := stays_append.mpr ⟨hxs.stays, hys.stays⟩

/-- What stands aside has no decisions that come from statements. -/
theorem asides (ts : List Tree) : Presents source [] (asides ts) where
  marks_eq := by simp
  inPlace := inPlace_asides ts
  stays := stays_asides ts

theorem nil : Presents source [] [] := asides []

theorem caption?_ne_ternary (form : Form) : form.caption? ≠ some .ternary := by
  cases form <;> simp [Form.caption?]

/-- A node that an outline goes into is its own decision, and then what is below it. -/
theorem entered (hstanding : x.standing = .entered) (hclauses : x.node.ClausesInPlace)
    (hmark : x.mark? = u.mark? source) (hnext : Presents source u.substatements x.next) :
    Presents source [u] [x] where
  marks_eq := by
    have hself : (u.mark? source).toList.filter (·.caption ≠ .ternary) =
        (u.mark? source).toList := by
      refine List.filter_eq_self.mpr fun m hm => ?_
      obtain ⟨caption, hcaption, rfl⟩ := Option.map_eq_some_iff.mp (Option.mem_toList.mp hm)
      have hne : caption ≠ .ternary := fun heq => caption?_ne_ternary u.form (heq ▸ hcaption)
      simpa using hne
    have hwalk : exposure.walkFrom [u] = u :: exposure.walkFrom u.substatements := by
      rw [Descent.walkFrom_cons, List.append_nil]
      rfl
    rw [marks_cons, marks_nil, List.append_nil, List.filter_append, hmark, hself, hnext.marks_eq,
      hwalk, List.filterMap_cons]
    cases u.mark? source <;> rfl
  inPlace := inPlace_cons.mpr ⟨fun _ => hclauses, hnext.inPlace, inPlace_nil⟩
  stays := stays_cons.mpr ⟨by simp [hstanding], hnext.stays, stays_nil⟩

/-- A node that makes no difference gives way to what is below it. -/
theorem unwrap (hmark : u.mark? source = none) (hxs : Presents source u.substatements xs) :
    Presents source [u] xs where
  marks_eq := by
    rw [hxs.marks_eq, Descent.walkFrom_cons, List.append_nil, List.filterMap_cons, hmark]
    rfl
  inPlace := hxs.inPlace
  stays := hxs.stays

/-- A node that is run straight through has no decision of its own. -/
theorem passed (ht : t.isStraight = true) (hexits : t.head.exits = false) :
    Presents source [] [⟨t, t.standing⟩] where
  marks_eq := by
    have hmarks := @marks_statements_of_isStraight [t] (by simpa using ht)
    simp only [statements_cons, statements_nil] at hmarks
    simp [hmarks]
  inPlace := by
    refine inPlace_cons.mpr ⟨?_, ?_, inPlace_nil⟩
    · simp [standing_of_isStraight ht]
    · rw [next_of_ne (by simp [standing_of_isStraight ht])]
      exact inPlace_asides _
  stays := by
    refine stays_cons.mpr ⟨fun _ => hexits, ?_, stays_nil⟩
    rw [next_of_ne (by simp [standing_of_isStraight ht])]
    exact stays_asides _

/-- Only multiway branches and guarded blocks have clauses. -/
theorem clausesInPlace_of_kind (hswitch : t.kind ≠ .switch) (hguarded : t.kind ≠ .guarded) :
    t.ClausesInPlace :=
  ⟨fun h => absurd h hswitch, fun h => absurd h hguarded⟩

/-- A node that is no decision, or a ternary, has what is below it. -/
theorem below (hstanding : x.standing = .entered) (hclauses : x.node.ClausesInPlace)
    (hmark : ∀ m ∈ x.mark?, m.caption = .ternary) (hnext : Presents source us x.next) :
    Presents source us [x] where
  marks_eq := by
    have hself : x.mark?.toList.filter (·.caption ≠ .ternary) = [] :=
      List.filter_eq_nil_iff.mpr fun m hm => by simpa using hmark m (Option.mem_toList.mp hm)
    rw [marks_cons, marks_nil, List.append_nil, List.filter_append, hself, List.nil_append,
      hnext.marks_eq]
  inPlace := inPlace_cons.mpr ⟨fun _ => hclauses, hnext.inPlace, inPlace_nil⟩
  stays := stays_cons.mpr ⟨by simp [hstanding], hnext.stays, stays_nil⟩

/-- Among operands there are no decisions but those of ternaries. -/
theorem operands {ts : List Tree}
    (hts : ∀ t ∈ ts, t.kind = .ternary → Presents source [] [⟨t, .entered⟩]) :
    Presents source [] (operands ts) := by
  induction ts with
  | nil => exact nil
  | cons t ts ih =>
      obtain ⟨ht, hts⟩ := List.forall_mem_cons.mp hts
      have hself : Presents source [] [⟨t, t.operandStanding⟩] := by
        unfold Tree.operandStanding
        split
        next hkind => exact ht hkind
        next => exact asides [t]
      exact hself.append (ih hts)

/-- A ternary has no decisions but ternaries. -/
theorem ternary (ht : t.kind = .ternary) : Presents source [] [⟨t, .entered⟩] := by
  induction t using Tree.descent.induct with
  | hnext t ih =>
      have hchildren : Tree.descent.next t =
          t.condition.toList ++ (t.consequent.toList ++ t.alternate.toList) := by
        simp [Tree.descent, Tree.children, ht, Kind.slots, Tree.inSlot]
      rw [hchildren] at ih
      have hbranches := (List.forall_mem_append.mp ih).2
      obtain ⟨hyes, hno⟩ := List.forall_mem_append.mp hbranches
      refine below rfl (clausesInPlace_of_kind (by simp [ht]) (by simp [ht])) ?_ ?_
      · simp [Trail.mark?, ht, Caption.ofKind?]
      · rw [next_ternary ht]
        exact ((asides _).append (operands hyes)).append (operands hno)

/-- A statement that is no construct has no decisions but ternaries. -/
theorem idle (ht : t.isStraight = t.choice?.isNone) (hexits : t.head.exits = false) :
    Presents source [] [⟨t, t.standing⟩] := by
  cases hchoice : t.choice? with
  | none => exact passed (by simp [ht, hchoice]) hexits
  | some w =>
      have hstanding : t.standing = .entered := by simp [Tree.standing, ht, hchoice]
      rw [hstanding]
      rcases Tree.choice?_of_kind hchoice with hkind | hkind
      · exact ternary hkind
      · refine below rfl (clausesInPlace_of_kind (by simp [hkind]) (by simp [hkind])) ?_ ?_
        · simp [Trail.mark?, hkind, Caption.ofKind?]
        · rw [next_choice hkind hchoice]
          exact ternary (Tree.kind_of_choice? hchoice)

/-! ## Lists of parse nodes -/

/-- A clause becomes a case or a handler, neither of which leaves the function. -/
theorem kind_of_isClause (source : Bytes) (hu : u.isClause = true) :
    (u.normalize source).kind = .case ∧ (u.normalize source).head.exits = false ∨
      (u.normalize source).kind = .handler ∧ (u.normalize source).head.exits = false := by
  unfold isClause at hu
  rw [normalize_eq, Tree.assemble, ← form]
  split at hu
  next hform => exact .inl (by rw [hform]; exact ⟨rfl, rfl⟩)
  next hform => exact .inl (by rw [hform]; exact ⟨rfl, rfl⟩)
  next hform => exact .inr (by rw [hform]; exact ⟨rfl, rfl⟩)
  next => cases hu

/-- A clause that stands among statements is passed over. -/
theorem misplaced (hu : u.isClause = true) :
    Presents source [] [⟨u.normalize source, (u.normalize source).standing⟩] := by
  rcases kind_of_isClause source hu with ⟨hkind, hexits⟩ | ⟨hkind, hexits⟩
  · exact passed (by simp [Tree.isStraight, Tree.choice?, hkind]) hexits
  · exact passed (by simp [Tree.isStraight, Tree.choice?, hkind]) hexits

/-- Statements present their decisions if each of them does. Clauses that stand as statements are
passed over on both sides. -/
theorem statements (hus : ∀ v ∈ asStatements us, Presents source [v] [trail source v]) :
    Presents source (asStatements us) (statements (us.map (normalize source))) := by
  induction us with
  | nil => exact nil
  | cons u us ih =>
      rw [List.map_cons, statements_cons]
      cases hu : u.isClause with
      | true =>
          have hrest : asStatements (u :: us) = asStatements us := by simp [asStatements, hu]
          rw [hrest] at hus ⊢
          exact (misplaced hu).append (ih hus)
      | false =>
          have hcons : asStatements (u :: us) = u :: asStatements us := by simp [asStatements, hu]
          rw [hcons] at hus ⊢
          obtain ⟨hself, hrest⟩ := List.forall_mem_cons.mp hus
          have htrail : trail source u =
              ⟨u.normalize source, (u.normalize source).standing⟩ := by simp [trail, hu]
          rw [htrail] at hself
          exact hself.append (ih hrest)

/-- A field that holds a statement. -/
theorem body {field : Option ParseTree}
    (hfield : ∀ v ∈ asStatements field.toList, Presents source [v] [trail source v]) :
    Presents source (asStatements field.toList)
      (Trail.statements (field.map (normalize source)).toList) := by
  rw [Option.toList_map]
  exact statements hfield

/-- Clauses present their decisions if each of them does. -/
theorem clauses (hus : ∀ v ∈ us, Presents source [v] [trail source v])
    (hclauses : ∀ v ∈ us, v.isClause = true) :
    Presents source us (clauses (us.map (normalize source))) := by
  induction us with
  | nil => exact nil
  | cons u us ih =>
      obtain ⟨hself, hrest⟩ := List.forall_mem_cons.mp hus
      obtain ⟨hclause, hclauses⟩ := List.forall_mem_cons.mp hclauses
      have htrail : trail source u = ⟨u.normalize source, .entered⟩ := by simp [trail, hclause]
      rw [htrail] at hself
      exact hself.append (ih hrest hclauses)

/-! ## The nodes of each form -/

theorem trail_of_not_isClause (hu : u.isClause = false) :
    trail source u = ⟨u.normalize source, (u.normalize source).standing⟩ := by
  simp [trail, hu]

/-- A node with no decision and no statements of its own presents nothing. -/
theorem of_idle (hu : u.isClause = false) (hcaption : u.form.caption? = none)
    (hsub : u.substatements = [])
    (hstraight : (u.normalize source).isStraight = (u.normalize source).choice?.isNone)
    (hexits : (u.normalize source).head.exits = false) :
    Presents source [u] [trail source u] := by
  rw [trail_of_not_isClause hu]
  apply unwrap
  · rw [ParseTree.mark?, hcaption]
    rfl
  · rw [hsub]
    exact idle hstraight hexits

/-- A node that becomes a construct or a clause. -/
theorem of_entered (hplace : (u.normalize source).place = u.row.place source)
    (hcaption : Caption.ofKind? (u.normalize source).kind = u.form.caption?)
    (hentered : u.isClause = true ∨ (u.normalize source).isStraight = false)
    (hclauses : (u.normalize source).ClausesInPlace)
    (hnext : Presents source u.substatements (next ⟨u.normalize source, .entered⟩)) :
    Presents source [u] [trail source u] := by
  have htrail : trail source u = ⟨u.normalize source, .entered⟩ := by
    rcases hentered with hclause | hstraight
    · simp [trail, hclause]
    · simp [trail, Tree.standing, hstraight]
  rw [htrail]
  refine entered rfl hclauses ?_ hnext
  rw [Trail.mark?, if_pos rfl, ParseTree.mark?, hcaption, hplace]

theorem kind_of_case (hu : u.form = .case ∨ u.form = .default) :
    (u.normalize source).kind = .case := by
  rw [normalize_eq, Tree.assemble, ← form]
  rcases hu with hform | hform
  · rw [hform]
    rfl
  · rw [hform]
    rfl

theorem kind_of_handler (hform : u.form = .handler) : (u.normalize source).kind = .handler := by
  rw [normalize_eq, Tree.assemble, ← form, hform]
  rfl

section

variable (hbelow : ∀ v ∈ u.substatements, Presents source [v] [trail source v])
include hbelow

/-- A node that becomes a block. -/
theorem of_statements (hkind : (u.normalize source).kind = .block)
    (hplace : (u.normalize source).place = u.row.place source)
    (hstatements : (u.normalize source).statements = u.listed.map (normalize source))
    (hcaption : u.form.caption? = none) (hsub : u.substatements = asStatements u.listed) :
    Presents source [u] [trail source u] := by
  apply of_entered hplace
  · rw [hkind, hcaption]
    rfl
  · exact .inr (by simp [Tree.isStraight, hkind])
  · exact clausesInPlace_of_kind (by simp [hkind]) (by simp [hkind])
  · rw [next_block hkind, hstatements, hsub]
    rw [hsub] at hbelow
    exact statements hbelow

/-- A block has the decisions of its statements. -/
theorem of_block (hform : u.form = .block) : Presents source [u] [trail source u] := by
  obtain ⟨hkind, hplace, hstatements⟩ : (u.normalize source).kind = .block ∧
      (u.normalize source).place = u.row.place source ∧
      (u.normalize source).statements = u.listed.map (normalize source) := by
    rw [normalize_eq, Tree.assemble, ← form, hform, listed_toChild, trees_toChild]
    exact ⟨rfl, rfl, rfl⟩
  refine of_statements hbelow hkind hplace hstatements ?_ ?_
  · rw [hform]
    rfl
  · rw [substatements, hform]

/-- A node around a single one gives way to it. -/
theorem of_sole {v : ParseTree} (hu : u.isClause = false) (hcaption : u.form.caption? = none)
    (hnorm : u.normalize source = v.normalize source) (hsub : u.substatements = asStatements [v]) :
    Presents source [u] [trail source u] := by
  rw [trail_of_not_isClause hu, hnorm]
  apply unwrap
  · rw [ParseTree.mark?, hcaption]
    rfl
  · rw [hsub] at hbelow ⊢
    exact statements hbelow

/-- The keyword of an alternative gives way to the statement behind it. -/
theorem of_elseClause (hform : u.form = .elseClause) : Presents source [u] [trail source u] := by
  have hcaption : u.form.caption? = none := by rw [hform]; rfl
  have hsub : u.substatements = asStatements u.listed := by rw [substatements, hform]
  have hnorm : u.normalize source = match u.listed with
      | [v] => v.normalize source
      | vs => .ofSlots (u.row.head source .block) { statements := vs.map (normalize source) } := by
    rw [normalize_eq, Tree.assemble, ← form, hform]
    exact unwrap_toChild _
  split at hnorm
  next v hlisted =>
    refine of_sole hbelow (by simp [isClause, hform]) hcaption hnorm ?_
    rw [hsub, hlisted]
  next =>
    refine of_statements hbelow ?_ ?_ ?_ hcaption hsub
    all_goals
      rw [hnorm]
      rfl

theorem of_parenthesized (hform : u.form = .parenthesized) :
    Presents source [u] [trail source u] := by
  have hclause : u.isClause = false := by simp [isClause, hform]
  have hcaption : u.form.caption? = none := by rw [hform]; rfl
  have hnorm : u.normalize source = match u.listed with
      | [v] => v.normalize source
      | vs => .ofSlots (u.row.head source .plain) { operands := vs.map (normalize source) } := by
    rw [normalize_eq, Tree.assemble, ← form, hform]
    exact unwrap_toChild _
  split at hnorm
  next v hlisted =>
    refine of_sole hbelow hclause hcaption hnorm ?_
    simp only [substatements, hform, hlisted]
  next hlisted =>
    refine of_idle hclause hcaption ?_ ?_ ?_
    · simp only [substatements, hform]
    · rw [hnorm]
      rfl
    · rw [hnorm]
      rfl

/-- A branch decides once, and has the decisions of its two ways. -/
theorem of_branch (hform : u.form = .branch) : Presents source [u] [trail source u] := by
  obtain ⟨hkind, hplace, hyes, hno⟩ : (u.normalize source).kind = .branch ∧
      (u.normalize source).place = u.row.place source ∧
      (u.normalize source).consequent = (u.field? "consequence").map (normalize source) ∧
      (u.normalize source).alternate = (u.field? "alternative").map (normalize source) := by
    rw [normalize_eq, Tree.assemble, ← form, hform, ← treeOf?_toChild, ← treeOf?_toChild]
    exact ⟨rfl, rfl, rfl, rfl⟩
  have hsub : u.substatements = asStatements (u.field? "consequence").toList ++
      asStatements (u.field? "alternative").toList := by rw [substatements, hform]
  apply of_entered hplace
  · rw [hkind, hform]
    rfl
  · exact .inr (by simp [Tree.isStraight, hkind])
  · exact clausesInPlace_of_kind (by simp [hkind]) (by simp [hkind])
  · rw [next_branch hkind, hyes, hno, hsub]
    rw [hsub] at hbelow
    obtain ⟨hthen, helse⟩ := List.forall_mem_append.mp hbelow
    exact ((asides _).append (body hthen)).append (body helse)

/-- A loop decides once, and has the decisions of its body. All styles of loop are alike here. -/
theorem of_loop {style : Loop} (hform : u.form.loop? = some style) :
    Presents source [u] [trail source u] := by
  obtain ⟨hkind, hplace, hbody, hsub, hcaption⟩ :
      Caption.ofKind? (u.normalize source).kind = some style.caption ∧
      (u.normalize source).place = u.row.place source ∧
      (u.normalize source).body = (u.field? "body").map (normalize source) ∧
      u.substatements = asStatements (u.field? "body").toList ∧
      u.form.caption? = some style.caption := by
    rw [normalize_eq, Tree.assemble, substatements, ← form, ← treeOf?_toChild]
    cases hu : u.form with
    | whileLoop | doLoop | forLoop | forIn =>
        rw [hu] at hform
        cases hform
        exact ⟨rfl, rfl, rfl, rfl, rfl⟩
    | _ =>
        rw [hu] at hform
        cases hform
  apply of_entered hplace
  · rw [hcaption, hkind]
  · rcases Tree.kind_of_loop_caption hkind with ⟨h, _⟩ | ⟨h, _⟩ | ⟨h, _⟩ <;>
      exact .inr (by simp [Tree.isStraight, h])
  · rcases Tree.kind_of_loop_caption hkind with ⟨h, _⟩ | ⟨h, _⟩ | ⟨h, _⟩ <;>
      exact clausesInPlace_of_kind (by simp [h]) (by simp [h])
  · obtain ⟨before, after, hnext⟩ := next_loop hkind
    rw [hnext, hbody, hsub]
    rw [hsub] at hbelow
    have hbefore : Presents source [] (Trail.asides before) := asides before
    have hparts := (hbefore.append (body hbelow)).append (asides after)
    rwa [List.nil_append, List.append_nil] at hparts

/-- A node that becomes a case. -/
theorem of_case {vs : List ParseTree} (hform : u.form = .case ∨ u.form = .default)
    (hplace : (u.normalize source).place = u.row.place source)
    (hstatements : (u.normalize source).statements = vs.map (normalize source))
    (hsub : u.substatements = asStatements vs) : Presents source [u] [trail source u] := by
  have hkind : (u.normalize source).kind = .case := kind_of_case hform
  apply of_entered hplace
  · rcases hform with hform | hform <;> rw [hkind, hform] <;> rfl
  · rcases hform with hform | hform <;> exact .inl (by simp [isClause, hform])
  · exact clausesInPlace_of_kind (by simp [hkind]) (by simp [hkind])
  · rw [next_case hkind, hstatements, hsub]
    rw [hsub] at hbelow
    exact (asides _).append (statements hbelow)

/-- A case with a tested value decides once, and has the decisions of its statements. -/
theorem of_testedCase (hform : u.form = .case) : Presents source [u] [trail source u] := by
  obtain ⟨hplace, hstatements⟩ : (u.normalize source).place = u.row.place source ∧
      (u.normalize source).statements = u.untested.map (normalize source) := by
    rw [normalize_eq, Tree.assemble, ← form, hform, ← caseStatements_toChild]
    exact ⟨rfl, rfl⟩
  refine of_case hbelow (.inl hform) hplace hstatements ?_
  rw [substatements, hform]

/-- So does the case without a tested value. -/
theorem of_default (hform : u.form = .default) : Presents source [u] [trail source u] := by
  obtain ⟨hplace, hstatements⟩ : (u.normalize source).place = u.row.place source ∧
      (u.normalize source).statements = u.listed.map (normalize source) := by
    rw [normalize_eq, Tree.assemble, ← form, hform, listed_toChild, trees_toChild]
    exact ⟨rfl, rfl⟩
  refine of_case hbelow (.inr hform) hplace hstatements ?_
  rw [substatements, hform]

/-- A handler decides once, and has the decisions of its body. -/
theorem of_handler (hform : u.form = .handler) : Presents source [u] [trail source u] := by
  have hkind : (u.normalize source).kind = .handler := kind_of_handler hform
  obtain ⟨hplace, hbody⟩ : (u.normalize source).place = u.row.place source ∧
      (u.normalize source).body = (u.field? "body").map (normalize source) := by
    rw [normalize_eq, Tree.assemble, ← form, hform, ← treeOf?_toChild]
    exact ⟨rfl, rfl⟩
  have hsub : u.substatements = asStatements (u.field? "body").toList := by
    rw [substatements, hform]
  apply of_entered hplace
  · rw [hkind, hform]
    rfl
  · exact .inl (by simp [isClause, hform])
  · exact clausesInPlace_of_kind (by simp [hkind]) (by simp [hkind])
  · rw [next_handler hkind, hbody, hsub]
    rw [hsub] at hbelow
    exact (asides _).append (body hbelow)

/-- A multiway branch decides once, and has the decisions of its cases. -/
theorem of_switch (hform : u.form = .switch) (hin : u.ClausesInPlace) :
    Presents source [u] [trail source u] := by
  obtain ⟨hkind, hplace, hcases⟩ : (u.normalize source).kind = .switch ∧
      (u.normalize source).place = u.row.place source ∧
      (u.normalize source).cases = u.substatements.map (normalize source) := by
    rw [← cases_toChild hform, normalize_eq, Tree.assemble, ← form, hform]
    exact ⟨rfl, rfl, rfl⟩
  have hforms := hin.form_cases hform
  apply of_entered hplace
  · rw [hkind, hform]
    rfl
  · exact .inr (by simp [Tree.isStraight, hkind])
  · refine ⟨fun _ c hc => ?_, fun hguarded => ?_⟩
    · rw [hcases] at hc
      obtain ⟨v, hv, rfl⟩ := List.mem_map.mp hc
      exact kind_of_case (hforms v hv)
    · rw [hkind] at hguarded
      cases hguarded
  · rw [next_switch hkind, hcases]
    refine (asides _).append (clauses hbelow fun v hv => ?_)
    rcases hforms v hv with h | h <;> simp [isClause, h]

/-- A guarded block does not decide itself. It has the decisions of its body, of its handler and of
its final block. -/
theorem of_guarded (hform : u.form = .guarded) (hin : u.ClausesInPlace) :
    Presents source [u] [trail source u] := by
  obtain ⟨hkind, hplace, hbody, hhandler, hfinal⟩ : (u.normalize source).kind = .guarded ∧
      (u.normalize source).place = u.row.place source ∧
      (u.normalize source).body = (u.field? "body").map (normalize source) ∧
      (u.normalize source).handler = (u.field? "handler").map (normalize source) ∧
      (u.normalize source).finalizer =
        ((u.inField? "finalizer").bind (field? "body")).map (normalize source) := by
    rw [normalize_eq, Tree.assemble, ← form, hform, ← finalizer_toChild, ← treeOf?_toChild,
      ← treeOf?_toChild]
    exact ⟨rfl, rfl, rfl, rfl, rfl⟩
  have hsub : u.substatements = asStatements (u.field? "body").toList ++
      (u.field? "handler").toList ++
      asStatements ((u.inField? "finalizer").bind (field? "body")).toList := by
    simp only [substatements, hform, wrappers]
    cases u.inField? "finalizer" <;> simp [asStatements]
  have hforms := hin.form_handler hform
  apply of_entered hplace
  · rw [hkind, hform]
    rfl
  · exact .inr (by simp [Tree.isStraight, hkind])
  · refine ⟨fun hswitch => ?_, fun _ h hh => ?_⟩
    · rw [hkind] at hswitch
      cases hswitch
    · rw [hhandler] at hh
      obtain ⟨v, hv, rfl⟩ := Option.map_eq_some_iff.mp hh
      exact kind_of_handler (hforms v hv)
  · rw [next_guarded hkind, hbody, hhandler, hfinal, hsub]
    rw [hsub] at hbelow
    obtain ⟨hguarded, hlast⟩ := List.forall_mem_append.mp hbelow
    obtain ⟨hfirst, hcaught⟩ := List.forall_mem_append.mp hguarded
    refine ((body hfirst).append ?_).append (body hlast)
    rw [Option.toList_map]
    refine clauses hcaught fun v hv => ?_
    simp [isClause, hforms v (Option.mem_toList.mp hv)]

end

theorem isStraight_operatorKind {operator : Option String}
    (hkind : t.kind = Tree.operatorKind operator) : t.isStraight = t.choice?.isNone := by
  have hkinds : t.kind = .conjunction ∨ t.kind = .disjunction ∨ t.kind = .plain := by
    rw [hkind]
    unfold Tree.operatorKind
    split <;> simp
  rcases hkinds with h | h | h <;> simp [Tree.isStraight, h]

/-- An operator is no statement, and its operands are not either. -/
theorem of_binary (hform : u.form = .binary) : Presents source [u] [trail source u] := by
  refine of_idle (by simp [isClause, hform]) (by rw [hform]; rfl) (by rw [substatements, hform])
    ?_ ?_
  · rw [normalize_eq, Tree.assemble, ← form, hform]
    exact isStraight_operatorKind rfl
  · rw [normalize_eq, Tree.assemble, ← form, hform]
    rfl

end Presents

/-- What is exposed from a node on is what the node becomes. -/
theorem presents_trail {source : Bytes} {u : ParseTree}
    (hplace : ∀ v ∈ exposure.walk u, v.ClausesInPlace)
    (hstay : ∀ v ∈ exposure.walk u, v.form ≠ .exit) : Presents source [u] [trail source u] := by
  induction u using exposure.induct with
  | hnext u ih =>
      have hself := exposure.self_mem_walk u
      have hbelow : ∀ v ∈ u.substatements, Presents source [v] [trail source v] := fun v hv =>
        ih v hv (fun w hw => hplace w (exposure.mem_walk_of_mem_next hv hw))
          fun w hw => hstay w (exposure.mem_walk_of_mem_next hv hw)
      cases hform : u.form with
      | block => exact .of_block hbelow hform
      | parenthesized => exact .of_parenthesized hbelow hform
      | elseClause => exact .of_elseClause hbelow hform
      | branch => exact .of_branch hbelow hform
      | whileLoop | doLoop | forLoop | forIn => exact .of_loop hbelow (by rw [hform]; rfl)
      | switch => exact .of_switch hbelow hform (hplace u hself)
      | case => exact .of_testedCase hbelow hform
      | default => exact .of_default hbelow hform
      | guarded => exact .of_guarded hbelow hform (hplace u hself)
      | handler => exact .of_handler hbelow hform
      | exit => exact absurd hform (hstay u hself)
      | binary => exact .of_binary hform
      | function own | declarator | ternary | identifier | other =>
          refine .of_idle (by simp [isClause, hform]) (by rw [hform]; rfl)
            (by rw [substatements, hform]) ?_ ?_
          · rw [normalize_eq, Tree.assemble, ← form, hform]
            rfl
          · rw [normalize_eq, Tree.assemble, ← form, hform]
            rfl

end ParseTree

end Cyclomatic
