import Cyclomatic.Proofs.Flow.Connectivity
import Cyclomatic.Proofs.Flow.Loops
import Cyclomatic.Proofs.Flow.Vertices
import Cyclomatic.Proofs.Tree.Seats

/-! # Vertices in source order

Vertices are numbered as they are laid down, and their ranges come from the
tree. Where the statements of a function stand inside one another and one after
the other, so do the vertices: what is laid down for a construct lies within the
construct, and of two blocks the one with the smaller number ends before the
other one starts.
-/

namespace Cyclomatic

open Cyclomatic.Flow

namespace Flow.Vertex

/-- The part of the text that a vertex stands for. -/
def range? : Vertex → Option Range
  | .entry | .exit => none
  | .decision _ site _ | .operand site _ | .block site _ => some site.range

/-- The part of the text that is carried out at a vertex. -/
def process? : Vertex → Option Range
  | .operand site _ | .block site _ => some site.range
  | .entry | .exit | .decision .. => none

theorem range?_of_process? {v : Vertex} {r : Range} (hr : v.process? = some r) :
    v.range? = some r := by
  cases v with
  | operand | block => exact hr
  | entry | exit | decision => cases hr

end Flow.Vertex

namespace Tree

/-- From the start of one of some nodes to the end of one of them. -/
def Spans (ts : List Tree) (r : Range) : Prop :=
  (∃ t ∈ ts, t.range.start ≤ r.start) ∧ ∃ t ∈ ts, r.stop ≤ t.range.stop

variable {ts us : List Tree} {r s : Range} {t : Tree} {vs ws : List Vertex}

/-- A range from one of some nodes to another goes from one to another of more nodes. -/
theorem Spans.mono (hr : Spans ts r) (hsub : ts ⊆ us) : Spans us r := by
  obtain ⟨⟨a, ha, hstart⟩, b, hb, hstop⟩ := hr
  exact ⟨⟨a, hsub ha, hstart⟩, b, hsub hb, hstop⟩

theorem spans_self (t : Tree) : Spans [t] t.range := by
  simp [Spans]

theorem spans_singleton : Spans [t] r ↔ r.Inside t.range := by
  simp [Spans, Range.Inside]

/-- What spans nodes inside another lies inside it. -/
theorem Spans.inside (hr : Spans ts r) (hinside : ∀ u ∈ ts, u.range.Inside t.range) :
    r.Inside t.range := by
  obtain ⟨⟨a, ha, hstart⟩, b, hb, hstop⟩ := hr
  exact ⟨Int.le_trans (hinside a ha).1 hstart, Int.le_trans hstop (hinside b hb).2⟩

/-- What spans some nodes lies before what spans nodes that all come later. -/
theorem Spans.precedes (hr : Spans ts r) (hs : Spans us s)
    (horder : ∀ t ∈ ts, ∀ u ∈ us, t.range.Precedes u.range) : r.Precedes s := by
  obtain ⟨_, b, hb, hstop⟩ := hr
  obtain ⟨⟨a, ha, hstart⟩, _⟩ := hs
  calc r.stop ≤ b.range.stop := hstop
    _ ≤ a.range.start := horder b hb a ha
    _ ≤ s.start := hstart

/-- Vertices that lie where some nodes stand, the blocks one after the other. -/
structure Arranged (ts : List Tree) (vs : List Vertex) : Prop where
  spanned : ∀ v ∈ vs, ∃ r, v.range? = some r ∧ Spans ts r
  ordered : (vs.filterMap Vertex.process?).Pairwise Range.Precedes

namespace Arranged

theorem nil (ts : List Tree) : Arranged ts [] where
  spanned _ hv := absurd hv List.not_mem_nil
  ordered := .nil

/-- One vertex that spans the nodes is arranged. -/
theorem singleton {v : Vertex} (hrange : v.range? = some r) (hspans : Spans ts r) :
    Arranged ts [v] where
  spanned := List.forall_mem_singleton.mpr ⟨r, hrange, hspans⟩
  ordered := by
    rw [List.filterMap_cons]
    cases v.process? <;> simp

/-- A vertex stands for just one part of the text. -/
theorem spans_process (hvs : Arranged ts vs) (hr : r ∈ vs.filterMap Vertex.process?) :
    Spans ts r := by
  obtain ⟨v, hv, hprocess⟩ := List.mem_filterMap.mp hr
  obtain ⟨s, hs, hspans⟩ := hvs.spanned v hv
  have heq : r = s := Option.some.inj ((Vertex.range?_of_process? hprocess).symm.trans hs)
  rwa [heq]

/-- What lies where the first nodes stand and what lies where the others stand. -/
theorem append (hvs : Arranged ts vs) (hws : Arranged us ws)
    (horder : (ts ++ us).Pairwise fun t u => t.range.Precedes u.range) :
    Arranged (ts ++ us) (vs ++ ws) where
  spanned := by
    intro v hv
    rcases List.mem_append.mp hv with hv | hv
    · obtain ⟨r, hr, hspans⟩ := hvs.spanned v hv
      exact ⟨r, hr, hspans.mono (List.subset_append_left _ _)⟩
    · obtain ⟨r, hr, hspans⟩ := hws.spanned v hv
      exact ⟨r, hr, hspans.mono (List.subset_append_right _ _)⟩
  ordered := by
    rw [List.filterMap_append]
    apply List.pairwise_append.mpr
    refine ⟨hvs.ordered, hws.ordered, ?_⟩
    intro r hr s hs
    exact (hvs.spans_process hr).precedes (hws.spans_process hs)
      (List.pairwise_append.mp horder).2.2

/-- What is arranged among nodes inside another is arranged inside it. -/
theorem within (hvs : Arranged ts vs) (hinside : ∀ u ∈ ts, u.range.Inside t.range) :
    Arranged [t] vs where
  spanned := by
    intro v hv
    obtain ⟨r, hr, hspans⟩ := hvs.spanned v hv
    exact ⟨r, hr, spans_singleton.mpr (hspans.inside hinside)⟩
  ordered := hvs.ordered

/-- Only blocks and alternatives have to be in order. -/
theorem cons_decision (hvs : Arranged [t] vs) (text : Range → String) (caption : Caption)
    (condition : Option Tree) (operands : List Tree) :
    Arranged [t]
      (Outline.decisionVertex text caption (Outline.decision t.head condition operands) :: vs) where
  spanned := List.forall_mem_cons.mpr ⟨⟨t.range, rfl, spans_self t⟩, hvs.spanned⟩
  ordered := hvs.ordered

/-- A clause has its own vertex in front of what lies in it. The vertex is no block, so the order
of blocks is not touched. -/
theorem append_clause (hvs : Arranged [t] vs) (text : Range → String) :
    Arranged [t] (Outline.clauseVertex text t.kind
      (Outline.decision t.head t.condition t.operands) ++ vs) := by
  unfold Outline.clauseVertex
  cases Caption.ofKind? t.kind with
  | none => exact hvs
  | some caption => exact hvs.cons_decision text caption _ _

end Arranged

end Tree

namespace Seat

open Cyclomatic.Tree Outline

variable {text : Range → String} {x : Seat} {t : Tree} {ts : List Tree}

/-- What is laid down for a seat that is entered. -/
def vertices (text : Range → String) (x : Seat) : List Vertex :=
  match x.position with
  | .statement => (ofStatements none [x.node]).vertices text
  | .case =>
      clauseVertex text x.node.kind (decision x.node.head x.node.condition x.node.operands) ++
        (ofStatements none x.node.statements).vertices text
  | .handler => (ofHandler (some x.node)).vertices text
  | .operand => (ofOperand (some x.node)).vertices text

/-- A seat whose vertices lie within it, the blocks in order. -/
abbrev Settles (text : Range → String) (x : Seat) : Prop := Arranged [x.node] (x.vertices text)

/-- A statement that opens a construct gives the vertices of the construct. -/
theorem vertices_of_opens {c : Outline .construct} (hopens : Opens t c) :
    vertices text ⟨t, .statement⟩ = c.vertices text := by
  have honly : ofStatements none [t] = .step t.place.startLine c .done := by
    rw [ofStatements_cons_construct (ofStatement?_eq_some_iff.mpr hopens), ofStatements_nil]
    rfl
  rw [vertices, honly, Outline.vertices]
  simp [Outline.vertices]

/-- How many statements a run has is not shown. -/
theorem vertices_of_splits {o : Outline .sequence} (hsplits : Splits ts o) :
    o.vertices text = (ofStatements none ts).vertices text := by
  cases hsplits with
  | nil => rw [ofStatements_nil]; rfl
  | run hrun =>
      obtain ⟨count, hcount⟩ := ofStatements_run hrun none
      rw [hcount]
      rfl
  | step hopens => rw [ofStatements_cons_construct (ofStatement?_eq_some_iff.mpr hopens)]; rfl

/-- A run goes from the start of its first statement to the end of its last one. -/
theorem spans_extent (first : Tree) (more : List Tree) :
    Spans (first :: more) (extent first (more.getLastD first)).range := by
  have hlast : more.getLastD first ∈ first :: more := by
    rw [List.getLastD_eq_getLast?, List.mem_cons]
    cases hmore : more.getLast? with
    | none => exact .inl rfl
    | some last => exact .inr (List.mem_of_getLast? hmore)
  exact ⟨⟨first, List.mem_cons_self, Int.le_refl _⟩, _, hlast, Int.le_refl _⟩

/-- A run merges statements, and so what is laid down for a list has to be looked at run by
run. -/
theorem arranged_statements (ts : List Tree) (hall : ∀ t ∈ ts, Settles text ⟨t, .statement⟩)
    (horder : ts.Pairwise fun t u => t.range.Precedes u.range) :
    Arranged ts ((ofStatements none ts).vertices text) := by
  have hsplits := splits ts
  generalize ofStatements none ts = o at hsplits
  cases hsplits with
  | nil => exact .nil _
  | @run first more rest returns count hrun =>
      rw [← List.cons_append] at horder hall ⊢
      have hrest : Arranged rest
          (if returns then [] else (ofStatements none rest).vertices text) := by
        split
        next => exact .nil _
        next =>
          apply arranged_statements rest
          · intro t ht
            exact hall t (List.mem_append_right _ ht)
          · exact (List.pairwise_append.mp horder).2.1
      have hblock : Arranged (first :: more)
          [blockVertex text ⟨extent first (more.getLastD first), count, returns⟩] :=
        .singleton rfl (spans_extent first more)
      exact hblock.append hrest horder
  | @step t rest c hopens =>
      have hrest : Arranged rest
          (if c.completes then (ofStatements none rest).vertices text else []) := by
        split
        next =>
          apply arranged_statements rest
          · intro u hu
            exact hall u (List.mem_cons_of_mem _ hu)
          · exact (List.pairwise_cons.mp horder).2
        next => exact .nil _
      rw [Outline.vertices, ← vertices_of_opens hopens]
      exact (hall t List.mem_cons_self).append hrest horder
termination_by ts.length

/-- A block as a body gives its statements, and is laid down as a statement would be. -/
theorem arranged_body {o : Option Tree} (hall : ∀ b ∈ o.toList, Settles text ⟨b, .statement⟩) :
    Arranged o.toList ((ofStatements none (asStatements o)).vertices text) := by
  cases o with
  | none =>
      rw [asStatements, ofStatements_nil]
      exact .nil _
  | some b =>
      have hb := hall b List.mem_cons_self
      rw [asStatements]
      split
      next hblock =>
        rw [Settles, vertices_of_opens (.block hblock)] at hb
        exact hb
      next => exact hb

/-- The vertices of cases that come one after the other do so as well. -/
theorem arranged_cases (cs : List Tree) (hall : ∀ c ∈ cs, Settles text ⟨c, .case⟩)
    (horder : cs.Pairwise fun t u => t.range.Precedes u.range) :
    Arranged cs ((ofCases cs).vertices text) := by
  induction cs with
  | nil =>
      rw [ofCases]
      exact .nil _
  | cons c cs ih =>
      obtain ⟨hc, hcs⟩ := List.forall_mem_cons.mp hall
      rw [ofCases_cons, Outline.vertices]
      exact hc.append (ih hcs (List.pairwise_cons.mp horder).2) horder

/-- The vertices of a handler lie within it. -/
theorem arranged_handler {o : Option Tree} (hall : ∀ h ∈ o.toList, Settles text ⟨h, .handler⟩) :
    Arranged o.toList ((ofHandler o).vertices text) := by
  cases o with
  | none =>
      rw [ofHandler]
      exact .nil _
  | some h => exact hall h List.mem_cons_self

/-- The vertices of an alternative lie within it. -/
theorem arranged_operand {o : Option Tree} (hall : ∀ u ∈ o.toList, Settles text ⟨u, .operand⟩) :
    Arranged o.toList ((ofOperand o).vertices text) := by
  cases o with
  | none =>
      rw [ofOperand]
      exact .nil _
  | some u => exact hall u List.mem_cons_self

/-- The alternatives of a ternary and the ternary itself. -/
theorem arranged_ternary {u : Tree} (hall : ∀ y ∈ alternatives u, Settles text y)
    (hinside : ∀ v ∈ u.consequent.toList ++ u.alternate.toList, v.range.Inside u.range)
    (horder : (u.consequent.toList ++ u.alternate.toList).Pairwise
      fun t u => t.range.Precedes u.range) :
    Arranged [u] (decisionVertex text .ternary (decision u.head u.condition u.operands) ::
      ((ofOperand u.consequent).vertices text ++ (ofOperand u.alternate).vertices text)) := by
  rw [alternatives, forall_mem_all, List.forall_mem_append] at hall
  have hboth := (arranged_operand hall.1).append (arranged_operand hall.2) horder
  exact (hboth.within hinside).cons_decision text _ _ _

theorem belowStatement_of_loop_caption {style : Loop}
    (hcaption : Caption.ofKind? t.kind = some style.caption) :
    belowStatement t = all .statement t.body.toList := by
  unfold belowStatement
  rcases kind_of_loop_caption hcaption with ⟨hkind, _⟩ | ⟨hkind, _⟩ | ⟨hkind, _⟩ <;> rw [hkind]

/-- What is laid down for a construct, by the statement that opens it. -/
theorem arranged_construct {c : Outline .construct} (hopens : Opens t c)
    (htidy : Tidy ⟨t, .statement⟩) (hall : ∀ y ∈ belowStatement t, Settles text y) :
    Arranged [t] (c.vertices text) := by
  obtain ⟨hinside, horder⟩ := htidy
  simp only [parts, next] at hinside horder
  cases hopens with
  | block hkind =>
      simp only [belowStatement, hkind, map_node_all, forall_mem_all] at hall hinside horder
      exact (arranged_statements t.statements hall horder).within hinside
  | branch hkind =>
      simp only [belowStatement, hkind, map_node_all, forall_mem_all] at hall hinside horder
      rw [List.forall_mem_append] at hall
      have hboth := (arranged_body hall.1).append (arranged_body hall.2) horder
      exact (hboth.within hinside).cons_decision text _ _ _
  | loop hcaption =>
      simp only [belowStatement_of_loop_caption hcaption, map_node_all, forall_mem_all]
        at hall hinside
      exact ((arranged_body hall).within hinside).cons_decision text _ _ _
  | @choice u hchoice =>
      rcases choice?_of_kind hchoice with hkind | hkind
      · have hself : t = u := by simpa [choice?, hkind] using hchoice
        subst hself
        simp only [belowStatement, hkind, alternatives, map_node_all] at hall hinside horder
        exact arranged_ternary hall hinside horder
      · -- The ternary is laid down as an operand would be, in the place of the statement.
        simp only [belowStatement, hkind, hchoice, map_node_all, forall_mem_all] at hall hinside
        have hu : Settles text ⟨u, .operand⟩ := hall u List.mem_cons_self
        rw [Settles, vertices, ofOperand_some, if_pos (kind_of_choice? hchoice)] at hu
        exact hu.within hinside
  | switch hkind =>
      simp only [belowStatement, hkind, map_node_all, forall_mem_all] at hall hinside horder
      exact ((arranged_cases t.cases hall horder).within hinside).cons_decision text _ _ _
  | guarded hkind =>
      simp only [belowStatement, hkind, List.map_append, map_node_all] at hall hinside horder
      simp only [List.forall_mem_append, forall_mem_all] at hall
      obtain ⟨⟨hbody, hhandler⟩, hfinal⟩ := hall
      have hguarded := (arranged_body hbody).append (arranged_handler hhandler)
        (List.pairwise_append.mp horder).1
      rw [ofBody_eq, ofBody_eq]
      exact (hguarded.append (arranged_body hfinal) horder).within hinside

/-- A statement that control goes straight through is a run by itself. -/
theorem vertices_of_isStraight (hstraight : t.isStraight = true) :
    vertices text ⟨t, .statement⟩ = [.block (extent t t) (text (extent t t).range)] := by
  have hrun : IsRun t [] [] t.head.exits := isRun_singleton hstraight nofun
  obtain ⟨count, hcount⟩ := ofStatements_run hrun none
  change (ofStatements none (t :: ([] ++ []))).vertices text = _
  rw [hcount, ofStatements_nil, Outline.vertices]
  cases t.head.exits <;> rfl

/-- The vertices of a tidy statement lie within it if those of its parts lie within them. -/
theorem settles_statement (htidy : Tidy ⟨t, .statement⟩)
    (hall : ∀ y ∈ belowStatement t, Settles text y) : Settles text ⟨t, .statement⟩ := by
  cases hstraight : t.isStraight with
  | true =>
      rw [Settles, vertices_of_isStraight hstraight]
      exact .singleton rfl (spans_extent t [])
  | false =>
      obtain ⟨c, hc⟩ := isStraight_eq_false_iff.mp hstraight
      have hopens := ofStatement?_eq_some_iff.mp hc
      rw [Settles, vertices_of_opens hopens]
      exact arranged_construct hopens htidy hall

/-- The vertices of a tidy alternative lie within it if those of its own alternatives do. -/
theorem settles_operand (htidy : Tidy ⟨t, .operand⟩)
    (hall : ∀ y ∈ next ⟨t, .operand⟩, Settles text y) : Settles text ⟨t, .operand⟩ := by
  obtain ⟨hinside, horder⟩ := htidy
  change Arranged [t] ((ofOperand (some t)).vertices text)
  rw [ofOperand_some]
  split
  next hkind =>
    have hnext : next ⟨t, .operand⟩ = alternatives t := if_pos hkind
    rw [parts, hnext, alternatives, map_node_all] at hinside horder
    rw [hnext] at hall
    exact arranged_ternary hall hinside horder
  next => exact .singleton rfl (spans_self t)

/-- What is laid down for a tidy seat lies within it if that is so for all its parts. -/
theorem settles_of_next (htidy : x.Tidy) (hall : ∀ y ∈ x.next, Settles text y) :
    Settles text x := by
  obtain ⟨t, position⟩ := x
  cases position with
  | statement => exact settles_statement htidy hall
  | case =>
      obtain ⟨hinside, horder⟩ := htidy
      simp only [parts, next, map_node_all, forall_mem_all] at hinside horder hall
      exact ((arranged_statements t.statements hall horder).within hinside).append_clause text
  | handler =>
      have hinside := htidy.inside
      simp only [parts, next, map_node_all, forall_mem_all] at hinside hall
      rw [Settles, vertices, ofHandler_some, Outline.vertices]
      exact ((arranged_body hall).within hinside).append_clause text
  | operand => exact settles_operand htidy hall

/-- So it does if all seats below are tidy. -/
theorem settles_of_walk (htidy : ∀ y ∈ descent.walk x, y.Tidy) : Settles text x := by
  induction x using descent.induct with
  | hnext x ih =>
      apply settles_of_next (htidy x (descent.self_mem_walk x))
      intro y hy
      apply ih y hy
      intro z hz
      exact htidy z (descent.mem_walk_of_mem_next hy hz)

/-- What a seat is outlined as gives vertices of the seat. -/
theorem vertices_subset {p : Part} {o : Outline p} (ho : x.phrase.Outlined o) :
    o.vertices text ⊆ x.vertices text := by
  obtain ⟨t, position⟩ := x
  cases position with
  | statement =>
      cases ho with
      | statement hopens =>
          rw [vertices_of_opens hopens]
          exact List.Subset.refl _
  | case =>
      cases ho with
      | statements hsplits =>
          rw [vertices_of_splits hsplits]
          exact List.subset_append_right _ _
  | handler =>
      rw [vertices, ofHandler_some]
      cases ho
      exact List.Subset.refl _
  | operand =>
      rw [vertices, ofOperand_some]
      cases ho with
      | ternary hkind => exact (if_pos hkind).symm ▸ List.Subset.refl _
      | leaf hkind => exact (if_neg hkind).symm ▸ List.Subset.refl _

/-- Whatever number and exits a seat is laid down from, its vertices lie within it. -/
theorem inside_of_outlined {p : Part} {o : Outline p} (ho : x.phrase.Outlined o)
    (hx : Settles text x)
    {start : Nat} {entry : List Exit} {f : Fragment} (hf : Emits text o start entry f)
    (hentry : entry ≠ []) {v : Nat × Vertex} (hv : v ∈ f.vertices) :
    ∃ r, v.2.range? = some r ∧ r.Inside x.node.range := by
  have hmem : v.2 ∈ x.vertices text := by
    apply vertices_subset ho
    rw [← hf.vertices_eq hentry]
    exact List.mem_map_of_mem hv
  obtain ⟨r, hr, hspans⟩ := hx.spanned _ hmem
  exact ⟨r, hr, spans_singleton.mp hspans⟩

end Seat

namespace Diagram

open Flow.Graph

variable {source : Bytes} {t : Tree} {g : Graph} {name path : Option String}

theorem ofVertex_range (i : Nat) (v : Vertex) : (ofVertex i v).range = v.range? := by
  cases v <;> rfl

/-- A node that is shown as a step has a place. -/
theorem process?_of_kind {i : Nat} {v : Vertex} (hkind : (ofVertex i v).kind = .process) :
    ∃ r, v.process? = some r := by
  cases v with
  | operand site | block site => exact ⟨site.range, rfl⟩
  | entry | exit | decision => cases hkind

/-- The diagram of a function as it stands in the text. -/
structure InSourceOrder (source : Bytes) (t : Tree) (d : Diagram) : Prop where
  /-- Of two blocks or alternatives, the one with the smaller number ends before the other
  one starts. -/
  disjoint : ∀ a ∈ d.nodes, ∀ b ∈ d.nodes, ∀ i j, a.id = vertexName i → b.id = vertexName j →
    i < j → a.kind = .process → b.kind = .process →
      ∃ r s, a.range = some r ∧ b.range = some s ∧ r.stop ≤ s.start
  /-- What is laid down for a construct, a case, a handler or an alternative lies within it,
  whatever number and exits it is laid down from. -/
  inside : ∀ x ∈ t.seats, ∀ {p : Part} (o : Outline p), x.phrase.Outlined o → ∀ next entry f,
    entry ≠ [] → o.emit (Range.text source) next entry = .ok f → ∀ v ∈ f.vertices,
      ∃ r, (ofVertex v.1 v.2).range = some r ∧
        x.node.range.start ≤ r.start ∧ r.stop ≤ x.node.range.stop
  /-- And what is laid down on the way is shown. -/
  shown : ∀ c, Outline.Visits (Range.text source) (bodyCall t) c →
    c.entry ≠ [] ∧ ∃ f, c.outline.emit (Range.text source) c.next c.entry = .ok f ∧
      ∀ v ∈ f.vertices, ofVertex v.1 v.2 ∈ d.nodes

/-- The vertices of every seat lie within it, if every seat is tidy. -/
theorem settles_of_mem_seats (horder : t.InOrder) {x : Seat} (hx : x ∈ t.seats)
    (text : Range → String) : x.Settles text := by
  obtain ⟨b, hb, hx⟩ := List.mem_flatMap.mp hx
  apply Seat.settles_of_walk
  intro y hy
  exact horder y (List.mem_flatMap.mpr ⟨b, hb, Seat.descent.walk_subset hx hy⟩)

/-- The vertices of a function lie in its body, the blocks in order. -/
theorem arranged_function (horder : t.InOrder) (text : Range → String) :
    Tree.Arranged t.body.toList ((Outline.ofFunction t).vertices text) := by
  rw [Outline.ofFunction, Outline.ofBody_eq]
  apply Seat.arranged_body
  intro b hb
  exact settles_of_mem_seats horder
    (List.mem_flatMap.mpr ⟨b, hb, Seat.descent.self_mem_walk _⟩) text

/-- The blocks of a graph come in source order. -/
theorem pairwise_vertices (hg : ofFunction source t = .ok g) (horder : t.InOrder) :
    g.vertices.Pairwise fun v w => ∀ r, v.2.process? = some r → ∀ s, w.2.process? = some s →
      r.Precedes s := by
  have hordered := (arranged_function horder (Range.text source)).ordered
  have hprocess : (g.vertices.map (·.2)).filterMap Vertex.process? =
      ((Outline.ofFunction t).vertices (Range.text source)).filterMap Vertex.process? := by
    rw [vertices_ofFunction hg, List.filterMap_append, List.filterMap_cons_none rfl,
      List.filterMap_cons_none rfl, List.filterMap_nil, List.append_nil]
  rw [← hprocess, List.pairwise_filterMap, List.pairwise_map] at hordered
  exact hordered

/-- The vertices of a graph come in the order of their numbers. -/
theorem pairwise_numbers (hg : ofFunction source t = .ok g) :
    g.vertices.Pairwise fun v w => v.1 < w.1 := by
  obtain ⟨body, hbody, rfl⟩ := ofFunction_eq_ok_iff.mp hg
  have hnumbers : ((close body).vertices.map (·.1)).Pairwise fun i j => i < j := by
    rw [numbered_close hbody]
    exact List.pairwise_lt_range
  exact List.pairwise_map.mp hnumbers

/-- Of two blocks of a graph, the one with the smaller number comes first. -/
theorem precedes_of_lt (hg : ofFunction source t = .ok g) (horder : t.InOrder)
    {v w : Nat × Vertex} (hv : v ∈ g.vertices) (hw : w ∈ g.vertices) (hlt : v.1 < w.1)
    {r s : Range} (hr : v.2.process? = some r) (hs : w.2.process? = some s) : r.Precedes s := by
  have hpairs : ∀ v ∈ g.vertices, ∀ w ∈ g.vertices, v.1 < w.1 →
      ∀ r, v.2.process? = some r → ∀ s, w.2.process? = some s → r.Precedes s := by
    apply List.Pairwise.forall_of_forall_of_flip
    · intro v _ hlt
      exact absurd hlt (Nat.lt_irrefl _)
    · refine (pairwise_vertices hg horder).imp ?_
      intro v w h _
      exact h
    · refine (pairwise_numbers hg).imp ?_
      intro v w hlt hgt
      exact absurd hgt (Nat.lt_asymm hlt)
  exact hpairs v hv w hw hlt r hr s hs

/-- What is laid down on the way is shown in the diagram. -/
theorem nodes_of_visits (hg : ofFunction source t = .ok g) {c : Outline.Call}
    (hvisit : Outline.Visits (Range.text source) (bodyCall t) c) :
    c.entry ≠ [] ∧ ∃ f, c.outline.emit (Range.text source) c.next c.entry = .ok f ∧
      ∀ v ∈ f.vertices, ofVertex v.1 v.2 ∈ (ofGraph g name path).nodes := by
  obtain ⟨body, hbody, rfl⟩ := ofFunction_eq_ok_iff.mp hg
  obtain ⟨f, hf, hlive, _⟩ := Outline.Visits.sits hvisit (live_bodyCall t) hbody
  have hsub := (Outline.Visits.inset hvisit (live_bodyCall t) hbody hf).vertices
  refine ⟨hlive.entered, f, Outline.emit_eq_ok_of_emits hf, ?_⟩
  intro v hv
  have hmem : v ∈ (close body).vertices :=
    List.mem_append_left _ (List.mem_cons_of_mem _ (hsub hv))
  exact List.mem_map_of_mem hmem

/-- What a construct is shown as lies within it, and the blocks of a function come one after
the other, where the statements of the function do. -/
theorem diagram_inSourceOrder {d : Diagram}
    (hd : (Analysis.diagram source t name path).result = .ok d) (horder : t.InOrder) :
    d.InSourceOrder source t := by
  unfold Analysis.diagram at hd
  dsimp only at hd
  split at hd
  next g hg =>
    cases hd
    refine ⟨?_, ?_, fun c hvisit => nodes_of_visits hg hvisit⟩
    · intro a ha b hb i j hi hj hlt hprocessA hprocessB
      obtain ⟨v, hv, rfl⟩ := List.mem_map.mp ha
      obtain ⟨w, hw, rfl⟩ := List.mem_map.mp hb
      obtain ⟨r, hr⟩ := process?_of_kind hprocessA
      obtain ⟨s, hs⟩ := process?_of_kind hprocessB
      rw [ofVertex_id, vertexName_inj] at hi hj
      have hlt' : v.1 < w.1 := by omega
      refine ⟨r, s, ?_, ?_, precedes_of_lt hg horder hv hw hlt' hr hs⟩
      · rw [ofVertex_range, Vertex.range?_of_process? hr]
      · rw [ofVertex_range, Vertex.range?_of_process? hs]
    · intro x hx p o ho next entry f hentry hf v hv
      rw [ofVertex_range]
      exact Seat.inside_of_outlined ho (settles_of_mem_seats horder hx _)
        (Outline.emits_of_emit_eq_ok hf) hentry hv
  next => cases hd

/-- Two statements, a branch, a ternary, and a guarded block with all its parts, each at its
place in the text. -/
def spreadOut : Tree :=
  .ofSlots { kind := .function, type := "function" } { body := some (Sketch.stretch .block 10 100
    { statements := [
      Sketch.stretch .plain 12 15, Sketch.stretch .plain 16 19,
      Sketch.stretch .branch 20 50 {
        consequent := some (Sketch.stretch .block 26 35 {
          statements := [Sketch.stretch .plain 28 33] })
        alternate := some (Sketch.stretch .plain 41 50) },
      Sketch.stretch .plain 51 60 { operands := [Sketch.stretch .ternary 51 59 {
        consequent := some (Sketch.stretch .plain 53 55)
        alternate := some (Sketch.stretch .plain 57 59) }] },
      Sketch.stretch .guarded 61 99 {
        body := some (Sketch.stretch .block 65 75 { statements := [Sketch.stretch .plain 67 70] })
        handler := some (Sketch.stretch .handler 76 90 {
          body := some (Sketch.stretch .block 80 90) })
        finalizer := some (Sketch.stretch .plain 93 97) }] }) }

theorem spreadOut_inSourceOrder :
    spreadOut.InOrder ∧ ∃ d, (Analysis.diagram [] spreadOut none none).result = .ok d ∧
      d.InSourceOrder [] spreadOut ∧ (d.nodes.filter (·.kind = .process)).map (·.range) =
        [some ⟨12, 19⟩, some ⟨28, 33⟩, some ⟨41, 50⟩, some ⟨53, 55⟩, some ⟨57, 59⟩, some ⟨67, 70⟩,
          some ⟨93, 97⟩] := by
  have horder : spreadOut.InOrder := by decide +kernel
  have hranges : (Analysis.diagram [] spreadOut none none).result.toOption.map
      (fun d => (d.nodes.filter (·.kind = .process)).map (·.range)) =
        some [some ⟨12, 19⟩, some ⟨28, 33⟩, some ⟨41, 50⟩, some ⟨53, 55⟩, some ⟨57, 59⟩,
          some ⟨67, 70⟩, some ⟨93, 97⟩] := by cbv
  cases hresult : (Analysis.diagram [] spreadOut none none).result with
  | error e =>
      rw [hresult] at hranges
      cases hranges
  | ok d =>
      rw [hresult] at hranges
      exact ⟨horder, d, rfl, diagram_inSourceOrder hresult horder, Option.some.inj hranges⟩

end Diagram

end Cyclomatic
