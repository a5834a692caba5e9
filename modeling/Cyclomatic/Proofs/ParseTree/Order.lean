import Cyclomatic.Proofs.ParseTree.Counting

/-! # Functions in source order

The functions of a file are listed in the order of the syntax tree, which goes
slot by slot. Where the nodes of a parse tree stand inside one another and one
after the other, that is the order of the text unless a node hands on a part
before one that stands ahead of it. With its parts as the grammar has them only
a counting loop does so: it hands on its increment before its condition.
-/

namespace Cyclomatic.ParseTree

variable {source : Bytes} {t u : ParseTree}

/-- The one node ends before the other starts, or right there. -/
def Precedes (t u : ParseTree) : Prop := t.row.stop ≤ u.row.start

instance (t u : ParseTree) : Decidable (t.Precedes u) :=
  inferInstanceAs (Decidable (t.row.stop ≤ u.row.start))

/-- The children of a node stand inside it, one after the other. -/
structure NestedAt (u : ParseTree) : Prop where
  proper : u.row.start ≤ u.row.stop
  inside : ∀ c ∈ u.children, u.row.start ≤ c.row.start ∧ c.row.stop ≤ u.row.stop
  ordered : u.children.Pairwise Precedes

def Nested (t : ParseTree) : Prop := ∀ u ∈ t.nodes, u.NestedAt

instance (u : ParseTree) : Decidable u.NestedAt :=
  decidable_of_iff (u.row.start ≤ u.row.stop ∧
      (∀ c ∈ u.children, u.row.start ≤ c.row.start ∧ c.row.stop ≤ u.row.stop) ∧
      u.children.Pairwise Precedes)
    ⟨fun ⟨h₁, h₂, h₃⟩ => ⟨h₁, h₂, h₃⟩, fun h => ⟨h.proper, h.inside, h.ordered⟩⟩

instance (t : ParseTree) : Decidable t.Nested :=
  inferInstanceAs (Decidable (∀ u ∈ t.nodes, u.NestedAt))

/-- The functions among the nodes that are handed on, in the order of the syntax tree. -/
def functionNodes (t : ParseTree) : List ParseTree := (taking.walk t).filter isFunction

/-- No function of the first node starts after one of the second. -/
def Ahead (a b : ParseTree) : Prop :=
  ∀ f ∈ a.functionNodes, ∀ g ∈ b.functionNodes, f.row.start ≤ g.row.start

/-! ## Where the nodes below a node stand -/

theorem Nested.of_mem (ht : t.Nested) (hu : u ∈ t.nodes) : u.Nested := by
  intro v hv
  exact ht v (descent.walk_subset hu hv)

/-- All nodes below a node stand inside it. -/
theorem Nested.inside (ht : t.Nested) (hu : u ∈ t.nodes) :
    t.row.start ≤ u.row.start ∧ u.row.stop ≤ t.row.stop := by
  refine descent.forall_mem_walk
    (P := fun v => t.row.start ≤ v.row.start ∧ v.row.stop ≤ t.row.stop) ?_ ?_ u hu
  · exact ⟨Nat.le_refl _, Nat.le_refl _⟩
  · intro v hv hinside c hc
    have hchild := (ht v hv).inside c hc
    omega

theorem taking_walk_subset (t : ParseTree) : taking.walk t ⊆ t.nodes := by
  intro u hu
  exact nodes_perm.mem_iff.mpr (List.mem_append_left _ hu)

theorem functionNodes_subset (t : ParseTree) : t.functionNodes ⊆ t.nodes := by
  intro f hf
  exact taking_walk_subset t (List.mem_of_mem_filter hf)

/-- If one node stands before another, so do all functions in it. -/
theorem Nested.ahead {a b : ParseTree} (ha : a.Nested) (hb : b.Nested) (hprecedes : a.Precedes b) :
    a.Ahead b := by
  intro f hf g hg
  have hf := functionNodes_subset a hf
  have hg := functionNodes_subset b hg
  calc f.row.start ≤ f.row.stop := (ha f hf).proper
    _ ≤ a.row.stop := (ha.inside hf).2
    _ ≤ b.row.start := hprecedes
    _ ≤ g.row.start := (hb.inside hg).1

/-- Nodes below a node that stand one after the other have their functions in order. -/
theorem Nested.pairwise_ahead {ps : List ParseTree} (hu : u.Nested) (hsub : ps ⊆ u.nodes)
    (hps : ps.Pairwise Precedes) : ps.Pairwise Ahead := by
  refine hps.imp_of_mem ?_
  intro a b ha hb hprecedes
  exact (hu.of_mem (hsub ha)).ahead (hu.of_mem (hsub hb)) hprecedes

/-- A node comes before all it hands on, so a function comes before the functions inside it. -/
theorem functionNodes_eq : t.functionNodes =
    (if t.isFunction then [t] else []) ++ t.taken.flatMap functionNodes := by
  rw [functionNodes, taking.walk_eq, List.filter_cons, List.filter_flatMap]
  split <;> rfl

theorem taken_subset (t : ParseTree) : t.taken ⊆ t.nodes := by
  intro c hc
  exact taking_walk_subset t (taking.mem_walk_of_mem_next hc (taking.self_mem_walk c))

/-- The functions of a tree are in order exactly if each node has those of its parts in
order. -/
theorem pairwise_functionNodes_iff (ht : t.Nested) :
    t.functionNodes.Pairwise (fun f g => f.row.start ≤ g.row.start) ↔
      ∀ u ∈ taking.walk t, u.taken.Pairwise Ahead := by
  induction t using taking.induct with
  | hnext t ih =>
      have hbelow : ∀ c ∈ t.taken,
          (c.functionNodes.Pairwise (fun f g => f.row.start ≤ g.row.start) ↔
            ∀ u ∈ taking.walk c, u.taken.Pairwise Ahead) := by
        intro c hc
        exact ih c hc (ht.of_mem (taken_subset t hc))
      -- A function starts no later than what is below it.
      have hself : ∀ f ∈ (if t.isFunction then [t] else []), ∀ g ∈ t.taken.flatMap functionNodes,
          f.row.start ≤ g.row.start := by
        intro f hf g hg
        obtain ⟨c, hc, hg⟩ := List.mem_flatMap.mp hg
        have hmem : g ∈ t.nodes :=
          descent.walk_subset (taken_subset t hc) (functionNodes_subset c hg)
        have hft : f = t := by
          split at hf
          next => exact List.mem_singleton.mp hf
          next => cases hf
        rw [hft]
        exact (ht.inside hmem).1
      have hown : (if t.isFunction then [t] else []).Pairwise
          (fun f g => f.row.start ≤ g.row.start) := by
        split <;> simp
      rw [functionNodes_eq, List.pairwise_append, List.pairwise_flatMap, taking.walk_eq,
        List.forall_mem_cons]
      constructor
      · rintro ⟨_, ⟨hparts, hacross⟩, _⟩
        refine ⟨hacross, ?_⟩
        intro u hu
        obtain ⟨c, hc, hu⟩ := List.mem_flatMap.mp hu
        exact (hbelow c hc).mp (hparts c hc) u hu
      · rintro ⟨hacross, hparts⟩
        refine ⟨hown, ⟨?_, hacross⟩, hself⟩
        intro c hc
        apply (hbelow c hc).mpr
        intro u hu
        exact hparts u (List.mem_flatMap.mpr ⟨c, hc, hu⟩)

/-! ## The functions of the syntax tree -/

theorem sole?_of_isFunction (hfunction : u.isFunction = true) : u.sole? = none := by
  by_contra hsole
  rcases form_of_sole? hsole with hform | hform <;> simp [isFunction, hform] at hfunction

/-- The functions of the syntax tree stand where the function nodes do. -/
theorem places_functions (source : Bytes) (t : ParseTree) :
    (t.normalize source).functions.map (·.node.place) =
      t.functionNodes.map (·.row.place source) := by
  have hnodes : (t.normalize source).functions.map (·.node) =
      (t.normalize source).nodes.filter (·.kind = .function) := by
    rw [Tree.functions, Tree.nodes, List.filter_map]
    rfl
  have hfunctions : t.origins.filter (fun u => decide ((u.normalize source).kind = .function)) =
      t.functionNodes := by
    rw [origins, functionNodes, List.filter_filter]
    apply List.filter_congr
    intro u _
    cases hfunction : u.isFunction with
    | true =>
        have hsole := sole?_of_isFunction hfunction
        simp [kind_normalize hsole, kindOf_eq_function_iff.mpr hfunction, hsole]
    | false =>
        cases hsole : u.sole? with
        | none => simp [kind_normalize hsole, kindOf_eq_function_iff, hfunction]
        | some v => simp
  have hplace : ∀ u ∈ t.functionNodes, (u.normalize source).place = u.row.place source := by
    intro u hu
    have hsole := sole?_of_isFunction (List.mem_filter.mp hu).2
    rw [normalize_of_sole?_eq_none hsole]
    rfl
  calc (t.normalize source).functions.map (·.node.place)
      = ((t.normalize source).functions.map (·.node)).map (·.place) := by rw [List.map_map]; rfl
    _ = t.functionNodes.map fun u => (u.normalize source).place := by
        rw [hnodes, nodes_normalize, List.filter_map, List.map_map, ← hfunctions]
        rfl
    _ = t.functionNodes.map (·.row.place source) := List.map_congr_left hplace

/-- Lines do not decrease along a source. -/
theorem position_mono (source : Bytes) {i j : Nat} (hle : i ≤ j) :
    (source.position i).1 ≤ (source.position j).1 :=
  (List.take_prefix_take_left hle).sublist.count_le _

/-! ## The parts of a node, as they are handed on and as they stand -/

/-- Two nodes of which one precedes the other. -/
def Apart (a b : ParseTree) : Prop := a.Precedes b ∨ b.Precedes a

theorem Apart.symm {a b : ParseTree} (h : Apart a b) : Apart b a := Or.symm h

theorem field?_mem_children {w c : ParseTree} {name : String} (hc : c ∈ (w.field? name).toList) :
    c ∈ w.children :=
  List.mem_of_find?_eq_some
    (Option.mem_toList.mp ((toList_field?_sublist name).subset hc))

theorem Nested.of_mem_children (hu : u.Nested) {c : ParseTree} (hc : c ∈ u.children) : c.Nested :=
  hu.of_mem (mem_nodes_of_mem_children hc)

/-- What is spread next to fields that are read is below a child that is looked through, or is
one of the statements of a case. -/
theorem inside_of_mem_spread (hu : u.Nested) (hreads : u.reads ≠ []) {c : ParseTree}
    (hc : c ∈ u.spread) :
    (∃ w ∈ u.wrappers, w.row.start ≤ c.row.start ∧ c.row.stop ≤ w.row.stop) ∨
      u.form = .case ∧ c ∈ u.untested := by
  unfold spread at hc
  cases hform : u.form with
  | switch =>
      rw [hform] at hc
      obtain ⟨w, hw, hc⟩ := List.mem_flatMap.mp hc
      have hnested := hu.of_mem_children (mem_children_of_mem_wrappers hw)
      have hchild := listed_sublist.subset hc
      exact .inl ⟨w, hw, hnested.inside (mem_nodes_of_mem_children hchild)⟩
  | guarded =>
      rw [hform] at hc
      obtain ⟨w, hw, hc⟩ := List.mem_flatMap.mp hc
      have hnested := hu.of_mem_children (mem_children_of_mem_wrappers hw)
      have hchild := field?_mem_children hc
      exact .inl ⟨w, hw, hnested.inside (mem_nodes_of_mem_children hchild)⟩
  | case =>
      rw [hform] at hc
      exact .inr ⟨rfl, hc⟩
  | block | parenthesized | elseClause | binary | default | exit | other =>
      exact absurd (by simp [reads, hform]) hreads
  | _ => simp [hform] at hc

/-- What is spread stands in order, each node after the other. -/
theorem pairwise_spread (hu : u.Nested) : u.spread.Pairwise Precedes := by
  have hchildren := (hu u (descent.self_mem_walk u)).ordered
  unfold spread
  cases hform : u.form with
  | switch =>
      simp only [wrappers, hform]
      cases hbody : u.inField? "body" with
      | none => exact .nil
      | some w =>
          have hw := hu.of_mem_children (List.mem_of_find?_eq_some hbody)
          have hordered := (hw w (descent.self_mem_walk w)).ordered
          simpa using hordered.sublist listed_sublist
  | guarded =>
      simp only [wrappers, hform]
      cases u.inField? "finalizer" with
      | none => exact .nil
      | some w =>
          simp only [Option.toList_some, List.flatMap_singleton]
          cases w.field? "body" <;> simp
  | case => exact hchildren.sublist untested_sublist
  | block | parenthesized | elseClause | binary | default | exit | other =>
      exact hchildren.sublist listed_sublist
  | _ => exact .nil

theorem reads_sublist (readings : List (String × Bool)) :
    (readings.flatMap u.read).Sublist
      (readings.flatMap fun reading => (u.inField? reading.1).toList) := by
  induction readings with
  | nil => exact List.Sublist.refl _
  | cons reading readings ih =>
      rw [List.flatMap_cons, List.flatMap_cons]
      refine List.Sublist.append ?_ ih
      unfold read
      split
      next => exact toList_field?_sublist _
      next => exact List.Sublist.refl _

/-- Of two parts that are handed on, one precedes the other. -/
theorem pairwise_apart_taken (hu : u.Nested) : u.taken.Pairwise Apart := by
  have hchildren : u.children.Pairwise Apart :=
    (hu u (descent.self_mem_walk u)).ordered.imp Or.inl
  have hall := (children_perm.pairwise_iff Apart.symm).mp hchildren
  obtain ⟨hread, _, hcross⟩ := List.pairwise_append.mp hall
  refine List.pairwise_append.mpr
    ⟨(List.pairwise_append.mp hread).1, (pairwise_spread hu).imp Or.inl, ?_⟩
  intro a ha c hc
  have hreads : u.reads ≠ [] := by
    intro hnil
    simp [hnil] at ha
  have ha' := List.mem_append_left u.passedOver ha
  rcases inside_of_mem_spread hu hreads hc with ⟨w, hw, hinside⟩ | ⟨hform, hc⟩
  · rcases hcross a ha' w (List.mem_append_left _ hw) with hbefore | hafter
    · exact .inl (Nat.le_trans hbefore hinside.1)
    · exact .inr (Nat.le_trans hinside.2 hafter)
  · have hbeside := List.mem_of_mem_filter ((untested_perm hform).mem_iff.mp hc)
    exact hcross a ha' c (List.mem_append_right _ hbeside)

/-- Only a part that is handed on before one that stands ahead of it can be out of order. -/
theorem pairwise_taken_iff (hu : u.Nested) :
    u.taken.Pairwise Ahead ↔ u.taken.Pairwise fun a b => b.Precedes a → Ahead a b := by
  constructor
  · intro hall
    refine hall.imp ?_
    intro a b h _
    exact h
  · intro hreversed
    have hboth := hreversed.and (pairwise_apart_taken hu)
    refine hboth.imp_of_mem ?_
    intro a b ha hb h
    rcases h.2 with hprecedes | hreverse
    · exact (hu.of_mem (taken_subset u ha)).ahead (hu.of_mem (taken_subset u hb)) hprecedes
    · exact h.1 hreverse

/-! ## The order of the grammar -/

/-- The fields of a node in the order of the grammar. -/
def grammarFields (t : ParseTree) : List String :=
  match t.form with
  | .function _ => [t.parameterField, "body"]
  | .declarator => ["name", "value"]
  | .branch | .ternary => ["condition", "consequence", "alternative"]
  | .whileLoop => ["condition", "body"]
  | .doLoop => ["body", "condition"]
  | .forLoop => ["initializer", "condition", "increment", "body"]
  | .forIn => ["left", "right", "body"]
  | .switch => ["value", "body"]
  | .case => ["value"]
  | .guarded => ["body", "handler", "finalizer"]
  | .handler => ["parameter", "body"]
  | _ => []

/-- What stands in the fields of a node in the order of the grammar, and then the statements
of a case. -/
def parts (t : ParseTree) : List ParseTree :=
  (t.grammarFields.flatMap fun name => (t.inField? name).toList) ++
    if t.form = .case then t.untested else []

/-- Every node has its parts in the order of the grammar. -/
def InGrammarOrder (t : ParseTree) : Prop := ∀ u ∈ t.nodes, u.parts.Pairwise Precedes

instance (t : ParseTree) : Decidable t.InGrammarOrder :=
  inferInstanceAs (Decidable (∀ u ∈ t.nodes, u.parts.Pairwise Precedes))

/-- All but counting loops read their fields in the order of the grammar. -/
theorem grammarFields_eq (hform : u.form ≠ .forLoop) : u.grammarFields = u.fields := by
  unfold grammarFields fields reads
  cases hu : u.form with
  | forLoop => exact absurd hu hform
  | _ => rfl

/-- The fields that a node looks at are those it reads and those it looks through. -/
theorem inField?_fields : (u.fields.flatMap fun name => (u.inField? name).toList) =
    (u.reads.flatMap fun reading => (u.inField? reading.1).toList) ++ u.wrappers := by
  rw [fields, List.flatMap_append, wrappers_eq, List.flatMap_map]

/-- What is not a counting loop hands on its parts in the order of the grammar. -/
theorem pairwise_taken (hu : u.Nested) (hparts : u.parts.Pairwise Precedes)
    (hform : u.form ≠ .forLoop) : u.taken.Pairwise Precedes := by
  rw [parts, grammarFields_eq hform, inField?_fields, List.append_assoc] at hparts
  obtain ⟨hreads, _, hcross⟩ := List.pairwise_append.mp hparts
  refine List.pairwise_append.mpr
    ⟨hreads.sublist (reads_sublist u.reads), pairwise_spread hu, ?_⟩
  intro a ha c hc
  have hne : u.reads ≠ [] := by
    intro hnil
    simp [hnil] at ha
  have ha' := (reads_sublist u.reads).subset ha
  rcases inside_of_mem_spread hu hne hc with ⟨w, hw, hinside⟩ | ⟨hcase, hc⟩
  · exact Nat.le_trans (hcross a ha' w (List.mem_append_left _ hw)) hinside.1
  · exact hcross a ha' c (List.mem_append_right _ (by rwa [if_pos hcase]))

theorem parts_subset (u : ParseTree) : u.parts ⊆ u.nodes := by
  intro c hc
  apply mem_nodes_of_mem_children
  rcases List.mem_append.mp hc with hc | hc
  · obtain ⟨name, _, hc⟩ := List.mem_flatMap.mp hc
    exact List.mem_of_find?_eq_some (Option.mem_toList.mp hc)
  · split at hc
    next => exact untested_sublist.subset hc
    next => cases hc

/-- Two lists in the middle of an ordered one change places. -/
theorem pairwise_swap_iff {α : Type} {R : α → α → Prop} {front first second back : List α}
    (h : (front ++ (first ++ (second ++ back))).Pairwise R) :
    (front ++ (second ++ (first ++ back))).Pairwise R ↔ ∀ a ∈ second, ∀ b ∈ first, R a b := by
  simp only [List.pairwise_append, List.mem_append] at h ⊢
  constructor
  · rintro ⟨_, ⟨_, _, hcross⟩, _⟩ a ha b hb
    exact hcross a ha b (.inl hb)
  · intro hcross
    grind

/-- A counting loop hands on its increment before its condition. -/
theorem pairwise_taken_forLoop (hu : u.Nested) (hparts : u.parts.Pairwise Precedes)
    (hform : u.form = .forLoop) : u.taken.Pairwise Ahead ↔
      ∀ a ∈ u.inField? "increment", ∀ b ∈ u.field? "condition", Ahead a b := by
  have htaken : u.taken = (u.inField? "initializer").toList ++ ((u.inField? "increment").toList ++
      ((u.field? "condition").toList ++ (u.field? "body").toList)) := by
    simp [taken, reads, read, spread, hform]
  -- Handed on in the order of the grammar, the same parts would be in order.
  have hsublist : ((u.inField? "initializer").toList ++ ((u.field? "condition").toList ++
      ((u.inField? "increment").toList ++ (u.field? "body").toList))).Sublist u.parts := by
    simp only [parts, grammarFields, hform, List.flatMap_cons, List.flatMap_nil, reduceCtorEq,
      if_false, List.append_nil]
    exact (List.Sublist.refl _).append ((toList_field?_sublist _).append
      ((List.Sublist.refl _).append (toList_field?_sublist _)))
  have hahead := (hu.pairwise_ahead (parts_subset u) hparts).sublist hsublist
  rw [htaken, pairwise_swap_iff hahead]
  simp only [Option.mem_toList, Option.mem_def]

/-- With its parts in the order of the grammar, a node has their functions in order unless it
is a counting loop. -/
theorem pairwise_ahead_taken_iff (hu : u.Nested) (hparts : u.parts.Pairwise Precedes) :
    u.taken.Pairwise Ahead ↔ (u.form = .forLoop →
      ∀ a ∈ u.inField? "increment", ∀ b ∈ u.field? "condition", Ahead a b) := by
  by_cases hform : u.form = .forLoop
  · rw [pairwise_taken_forLoop hu hparts hform]
    exact ⟨fun h _ => h, fun h => h hform⟩
  · refine ⟨fun _ hloop => absurd hloop hform, fun _ => ?_⟩
    exact hu.pairwise_ahead (taken_subset u) (pairwise_taken hu hparts hform)

/-! ## The list of functions -/

/-- The bytes at which the functions of a file start, in the order in which they are listed. -/
def functionStarts (source : Bytes) (t : ParseTree) : List Int :=
  (t.normalize source).functions.map (·.node.place.startByte)

/-- The functions of a syntax tree start in order if those of the parse tree do that they come
from. -/
theorem pairwise_functionStarts_iff : (t.functionStarts source).Pairwise (· ≤ ·) ↔
    t.functionNodes.Pairwise (fun f g => f.row.start ≤ g.row.start) := by
  have hstarts : t.functionStarts source = t.functionNodes.map fun f => (f.row.start : Int) := by
    have hplaces := congrArg (List.map Place.startByte) (places_functions source t)
    rw [List.map_map, List.map_map] at hplaces
    exact hplaces
  rw [hstarts, List.pairwise_map]
  simp only [Int.ofNat_le]

/-- Functions in the order of the text are on lines in order. -/
theorem pairwise_lines
    (hsorted : t.functionNodes.Pairwise (fun f g => f.row.start ≤ g.row.start)) :
    ((t.normalize source).functionSummaries.map (·.line)).Pairwise (· ≤ ·) := by
  have hlines : (t.normalize source).functionSummaries.map (·.line) =
      t.functionNodes.map fun f => (((source.position f.row.start).1 + 1 : Nat) : Int) := by
    have hplaces := congrArg (List.map Place.startLine) (places_functions source t)
    rw [List.map_map, List.map_map] at hplaces
    rw [Tree.functionSummaries, List.map_map]
    exact hplaces
  rw [hlines, List.pairwise_map]
  refine hsorted.imp ?_
  intro f g hle
  have := position_mono source hle
  omega

/-- The functions of a file are listed in the order of the text exactly if no node hands on a
part with functions before one that stands ahead of it and has functions that start earlier.
With all parts in the order of the grammar that can only be the increment and the condition of
a counting loop. -/
theorem functions_in_source_order_iff (ht : t.Nested) (source : Bytes) :
    ((t.functionStarts source).Pairwise (· ≤ ·) ↔
      ∀ u ∈ taking.walk t, u.taken.Pairwise fun a b => b.Precedes a →
        ∀ f ∈ a.functionNodes, ∀ g ∈ b.functionNodes, f.row.start ≤ g.row.start) ∧
    (t.InGrammarOrder → ((t.functionStarts source).Pairwise (· ≤ ·) ↔
      ∀ u ∈ taking.walk t, u.form = .forLoop →
        ∀ a ∈ u.inField? "increment", ∀ b ∈ u.field? "condition",
          ∀ f ∈ a.functionNodes, ∀ g ∈ b.functionNodes, f.row.start ≤ g.row.start)) ∧
    ((t.functionStarts source).Pairwise (· ≤ ·) →
      ((t.normalize source).functionSummaries.map (·.line)).Pairwise (· ≤ ·)) := by
  have hnested : ∀ u ∈ taking.walk t, u.Nested := by
    intro u hu
    exact ht.of_mem (taking_walk_subset t hu)
  refine ⟨?_, ?_, ?_⟩
  · rw [pairwise_functionStarts_iff, pairwise_functionNodes_iff ht]
    exact forall₂_congr fun u hu => pairwise_taken_iff (hnested u hu)
  · intro hgrammar
    rw [pairwise_functionStarts_iff, pairwise_functionNodes_iff ht]
    refine forall₂_congr fun u hu => ?_
    exact pairwise_ahead_taken_iff (hnested u hu) (hgrammar u (taking_walk_subset t hu))
  · intro hsorted
    exact pairwise_lines (pairwise_functionStarts_iff.mp hsorted)

/-- An arrow function without parameters, in parentheses, that is called right away. -/
def calledArrow (start : Nat) (field : String) : ParseTree :=
  sketch "call_expression" start (start + 11) field
    [sketch "parenthesized_expression" start (start + 9) "function"
      [token "(" start (start + 1) none,
        sketch "arrow_function" (start + 1) (start + 8) none
          [sketch "formal_parameters" (start + 1) (start + 3) "parameters" [],
            token "=>" (start + 4) (start + 6) none,
            sketch "identifier" (start + 7) (start + 8) "body" []],
        token ")" (start + 8) (start + 9) none],
      sketch "arguments" (start + 9) (start + 11) "arguments" []]

/-- A counting loop with the given condition and increment, and a function in its body. -/
def countingLoop (condition increment : ParseTree) : ParseTree :=
  sketch "program" 0 60 none
    [sketch "for_statement" 0 60 none
      [token "for" 0 3 none, token "(" 4 5 none,
        calledArrow 5 "initializer", token ";" 16 17 none,
        condition, token ";" 28 29 "condition",
        increment, token ")" 40 41 none,
        sketch "statement_block" 42 60 "body"
          [sketch "if_statement" 43 59 none
            [sketch "identifier" 44 45 "condition" [],
              sketch "expression_statement" 46 58 "consequence" [calledArrow 46 "expression"]]]]]

/-- Functions in all parts of a counting loop but its condition. -/
def plainCondition : ParseTree :=
  countingLoop (sketch "identifier" 17 28 "condition" []) (calledArrow 29 "increment")

theorem plainCondition_in_source_order :
    plainCondition.Nested ∧ plainCondition.functionStarts [] = [6, 30, 47] ∧
      (plainCondition.functionStarts []).Pairwise (· ≤ ·) := by
  have hnested : plainCondition.Nested := by decide +kernel
  have hgrammar : plainCondition.InGrammarOrder := by decide +kernel
  refine ⟨hnested, by decide +kernel, ?_⟩
  apply ((functions_in_source_order_iff hnested []).2.1 hgrammar).mpr
  decide +kernel

/-- Functions in all parts of a counting loop. -/
def calledCondition : ParseTree :=
  countingLoop (calledArrow 17 "condition") (calledArrow 29 "increment")

/-- The function in the condition is listed after the one in the increment. -/
theorem calledCondition_out_of_order :
    calledCondition.Nested ∧ calledCondition.InGrammarOrder ∧
      calledCondition.functionStarts [] = [6, 30, 18, 47] ∧
      ¬ (calledCondition.functionStarts []).Pairwise (· ≤ ·) := by
  decide +kernel

end Cyclomatic.ParseTree
