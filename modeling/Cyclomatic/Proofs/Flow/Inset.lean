import Cyclomatic.Proofs.Flow.Nesting

/-! # What a fragment keeps inside another

Nothing that is laid down around a fragment leads into it. The vertices of the
fragment are vertices of the whole, and the edges into one of them are the same
edges in the same order.
-/

namespace Cyclomatic

open Cyclomatic.Flow

namespace Flow

/-- The edges into a vertex, in order. -/
def into (edges : List Edge) (i : Nat) : List Edge := edges.filter (·.target = i)

theorem into_append (first second : List Edge) (i : Nat) :
    into (first ++ second) i = into first i ++ into second i :=
  List.filter_append _ _

/-- All edges that connect exits to a vertex lead into it. -/
theorem into_connect (exits : List Exit) (i : Nat) :
    into (connect exits i) i = connect exits i := by
  apply List.filter_eq_self.mpr
  intro e he
  simpa using (mem_connect he).2

theorem mem_into {edges : List Edge} {i : Nat} {e : Edge} :
    e ∈ into edges i ↔ e ∈ edges ∧ e.target = i := by
  simp [into]

namespace Fragment

variable {f g y n b h c inner middle outer : Fragment} {next innerNext middleNext i : Nat}
  {entry : List Exit}

/-- A placed fragment has no edge into a vertex that is not its own. -/
theorem Placed.into_eq_nil (hf : f.Placed next entry) (hi : ¬ f.Owns next i) :
    into f.edges i = [] := by
  apply List.filter_eq_nil_iff.mpr
  intro e he htarget
  apply hi
  rw [← of_decide_eq_true htarget]
  exact hf.target e he

/-- A fragment whose vertices and the edges into them are kept in another. -/
structure Inset (inner : Fragment) (innerNext : Nat) (outer : Fragment) : Prop where
  vertices : inner.vertices ⊆ outer.vertices
  into : ∀ i, inner.Owns innerNext i → into outer.edges i = into inner.edges i

theorem Inset.refl (f : Fragment) (next : Nat) : f.Inset next f where
  vertices := List.Subset.refl _
  into _ _ := rfl

/-- What is set into a fragment is set into all that the fragment is set into, if its numbers are
among those of the fragment. -/
theorem Inset.trans (hinner : inner.Inset innerNext middle)
    (howns : ∀ i, inner.Owns innerNext i → middle.Owns middleNext i)
    (hmiddle : middle.Inset middleNext outer) : inner.Inset innerNext outer where
  vertices := List.Subset.trans hinner.vertices hmiddle.vertices
  into i hi := by rw [hmiddle.into i (howns i hi), hinner.into i hi]

/-- The edges of a fragment are edges of what it is inset in. -/
theorem Inset.edges_subset (hinset : inner.Inset innerNext outer)
    (hplaced : inner.Placed innerNext entry) : inner.edges ⊆ outer.edges := by
  intro e he
  have hkept := hinset.into e.target (hplaced.target e he)
  have hmem : e ∈ Flow.into inner.edges e.target := mem_into.mpr ⟨he, rfl⟩
  rw [← hkept] at hmem
  exact (mem_into.mp hmem).1

/-- The first of two fragments in sequence keeps its edges: those of the second lead into the
second. -/
theorem inset_andThen_left (hg : g.Placed (next + f.vertices.length) f.ends) :
    f.Inset next (f.andThen g) where
  vertices := List.subset_append_left _ _
  into i hi := by
    have hrest := hg.into_eq_nil (not_owns_of_owns_later hi (Nat.le_refl _))
    change into (f.edges ++ g.edges) i = _
    rw [into_append, hrest, List.append_nil]

/-- The second of two fragments in sequence keeps its edges, as those of the first lead into the
first. -/
theorem inset_andThen_right (hf : f.Placed next entry) :
    g.Inset (next + f.vertices.length) (f.andThen g) where
  vertices := List.subset_append_right _ _
  into i hi := by
    have hfirst := hf.into_eq_nil (not_owns_of_owns_earlier hi (Nat.le_refl _))
    change into (f.edges ++ g.edges) i = _
    rw [into_append, hfirst, List.nil_append]

/-! ## Below a decision -/

section

variable {v : Vertex} {yesLabel noLabel : String} {own : List Exit}

/-- The edges into a decision do not lead below it. -/
theorem into_vertex_eq_nil (hi : next < i) : into (vertex next v entry).edges i = [] := by
  apply (placed_vertex v).into_eq_nil
  rw [owns_vertex]
  omega

/-- Each side of a decision keeps the edges into it. Neither the decision nor the other side adds
to them. -/
theorem inset_fork_left (hn : n.Placed (next + 1 + y.vertices.length) [⟨next, noLabel⟩]) :
    y.Inset (next + 1) ((vertex next v entry).fork y n) where
  vertices := List.subset_append_of_subset_left _ (List.subset_append_right _ _)
  into i hi := by
    have hhead : into (vertex next v entry).edges i = [] := into_vertex_eq_nil hi.1
    have hother := hn.into_eq_nil (not_owns_of_owns_later hi (Nat.le_refl _))
    change into ((vertex next v entry).edges ++ y.edges ++ n.edges) i = _
    rw [into_append, into_append, hhead, hother, List.append_nil, List.nil_append]

theorem inset_fork_right (hy : y.Placed (next + 1) [⟨next, yesLabel⟩]) :
    n.Inset (next + 1 + y.vertices.length) ((vertex next v entry).fork y n) where
  vertices := List.subset_append_right _ _
  into i hi := by
    have hlt : next < i := Nat.lt_of_lt_of_le (by omega) hi.1
    have hhead : into (vertex next v entry).edges i = [] := into_vertex_eq_nil hlt
    have hother := hy.into_eq_nil (not_owns_of_owns_earlier hi (Nat.le_refl _))
    change into ((vertex next v entry).edges ++ y.edges ++ n.edges) i = _
    rw [into_append, into_append, hhead, hother, List.append_nil, List.nil_append]

/-- The body of a loop keeps its edges: what leads back leads into the decision. -/
theorem inset_cycle : b.Inset (next + 1) ((vertex next v entry).cycle next b) where
  vertices := List.subset_append_right _ _
  into i hi := by
    have hhead : into (vertex next v entry).edges i = [] := into_vertex_eq_nil hi.1
    have hback : into (b.backSources.map fun source => ⟨source, next, loopLabel⟩) i = [] := by
      apply List.filter_eq_nil_iff.mpr
      intro e he htarget
      obtain ⟨s, _, rfl⟩ := List.mem_map.mp he
      have heq : next = i := of_decide_eq_true htarget
      exact absurd hi.1 (by omega)
    change into ((vertex next v entry).edges ++ b.edges ++ _) i = _
    rw [into_append, into_append, hhead, hback, List.append_nil, List.nil_append]

/-- The cases of a multiway branch keep their edges. -/
theorem inset_select : c.Inset (next + 1) ((vertex next v entry).select c own) where
  vertices := List.subset_append_right _ _
  into i hi := by
    have hhead : into (vertex next v entry).edges i = [] := into_vertex_eq_nil hi.1
    change into ((vertex next v entry).edges ++ c.edges) i = _
    rw [into_append, hhead, List.nil_append]

end

/-! ## Side by side, under a handler and before a final part -/

/-- A case keeps its edges beside the later ones. -/
theorem inset_alongside_left (hg : g.Placed (next + f.vertices.length) entry) :
    f.Inset next (f.alongside g) where
  vertices := List.subset_append_left _ _
  into i hi := by
    have hother := hg.into_eq_nil (not_owns_of_owns_later hi (Nat.le_refl _))
    change into (f.edges ++ g.edges) i = _
    rw [into_append, hother, List.append_nil]

/-- The later cases keep their edges beside the first one. -/
theorem inset_alongside_right (hf : f.Placed next entry) :
    g.Inset (next + f.vertices.length) (f.alongside g) where
  vertices := List.subset_append_right _ _
  into i hi := by
    have hother := hf.into_eq_nil (not_owns_of_owns_earlier hi (Nat.le_refl _))
    change into (f.edges ++ g.edges) i = _
    rw [into_append, hother, List.nil_append]

/-- A guarded block keeps its edges: those to the handler lead out of it. -/
theorem inset_protect_left (hh : h.Placed (next + b.vertices.length) b.entered) :
    b.Inset next (b.protect h) where
  vertices := List.subset_append_left _ _
  into i hi := by
    have hother := hh.into_eq_nil (not_owns_of_owns_later hi (Nat.le_refl _))
    change into (b.edges ++ h.edges) i = _
    rw [into_append, hother, List.append_nil]

/-- A handler keeps its edges. -/
theorem inset_protect_right (hb : b.Placed next entry) :
    h.Inset (next + b.vertices.length) (b.protect h) where
  vertices := List.subset_append_right _ _
  into i hi := by
    have hother := hb.into_eq_nil (not_owns_of_owns_earlier hi (Nat.le_refl _))
    change into (b.edges ++ h.edges) i = _
    rw [into_append, hother, List.nil_append]

/-- What a final part ends keeps its edges. -/
theorem inset_finish_left (hg : g.Placed (next + f.vertices.length) f.finalEntry) :
    f.Inset next (f.finish g) where
  vertices := by
    rw [vertices_finish]
    exact List.subset_append_left _ _
  into i hi := by
    have hother := hg.into_eq_nil (not_owns_of_owns_later hi (Nat.le_refl _))
    rw [edges_finish, into_append, hother, List.append_nil]

/-- A final part keeps its edges. -/
theorem inset_finish_right (hf : f.Placed next entry) :
    g.Inset (next + f.vertices.length) (f.finish g) where
  vertices := by
    rw [vertices_finish]
    exact List.subset_append_right _ _
  into i hi := by
    have hother := hf.into_eq_nil (not_owns_of_owns_earlier hi (Nat.le_refl _))
    rw [edges_finish, into_append, hother, List.nil_append]

end Fragment

end Flow

namespace Outline

open Fragment

variable {text : Range → String} {c c' : Call} {f f' : Fragment}

/-- What one part calls for is kept in what the part itself gives. -/
theorem Calls.inset (hcall : Calls text c c') (hlive : c.Live) (hf : c.Gives text f)
    (hf' : c'.Gives text f') : f'.Inset c'.next f := by
  -- A call fixes what it gives, so `f'` is the piece of `f` that the rule names.
  cases hcall with
  | @runRest r rest next entry watched hreturns =>
      cases hf with
      | unreached => exact absurd rfl hlive.entered
      | @run _ _ _ _ g _ hrest =>
          rw [ends_runFragment hreturns] at hrest
          obtain rfl := hf'.unique (emit_eq_ok_of_emits hrest)
          have hinset : f'.Inset _ ((runFragment text r next entry).andThen f') :=
            inset_andThen_right (placed_runFragment r)
          rwa [length_runFragment] at hinset
  | stepFirst =>
      cases hf with
      | unreached => exact absurd rfl hlive.entered
      | step _ hfirst hrest =>
          obtain rfl := hf'.unique (emit_eq_ok_of_emits hfirst)
          exact inset_andThen_left hrest.placed
  | stepRest hemit hends =>
      cases hf with
      | unreached => exact absurd rfl hlive.entered
      | step _ hfirst hrest =>
          obtain rfl := hfirst.unique hemit
          obtain rfl := hf'.unique (emit_eq_ok_of_emits hrest)
          exact inset_andThen_right hfirst.placed
  | nested =>
      cases hf with
      | nested hinner =>
          obtain rfl := hf'.unique (emit_eq_ok_of_emits hinner)
          exact .refl _ _
  | branchYes =>
      cases hf with
      | branch hyes hno =>
          obtain rfl := hf'.unique (emit_eq_ok_of_emits hyes)
          exact inset_fork_left hno.placed
  | branchNo hemit =>
      cases hf with
      | branch hyes hno =>
          obtain rfl := hyes.unique hemit
          obtain rfl := hf'.unique (emit_eq_ok_of_emits hno)
          exact inset_fork_right hyes.placed
  | loopBody =>
      cases hf with
      | loop hbody =>
          obtain rfl := hf'.unique (emit_eq_ok_of_emits hbody)
          exact inset_cycle
  | switchCases =>
      cases hf with
      | switch hcases =>
          obtain rfl := hf'.unique (emit_eq_ok_of_emits hcases)
          exact inset_select
  | @caseBody kind d test body rest next entry watched =>
      cases hf with
      | @case _ caption _ _ _ _ _ _ b r _ hbody hrest =>
          obtain rfl := hf'.unique (emit_eq_ok_of_emits hbody)
          have hhead : f'.Inset (next + 1)
              ((decisionFragment text caption d next (caseEntry text test entry)).andThen f') :=
            inset_andThen_right (placed_vertex _)
          have hplaced : r.Placed (next + ((decisionFragment text caption d next
              (caseEntry text test entry)).andThen f').vertices.length) entry := by
            rw [length_andThen, ← Nat.add_assoc]
            exact hrest.placed
          exact hhead.trans (fun i hi => owns_andThen.mpr (.inr hi)) (inset_alongside_left hplaced)
  | @caseRest kind d test body rest next entry watched _ hemit =>
      cases hf with
      | @case _ caption _ _ _ _ _ _ b r _ hbody hrest =>
          obtain rfl := hbody.unique hemit
          obtain rfl := hf'.unique (emit_eq_ok_of_emits hrest)
          have hinset : f'.Inset _ (((decisionFragment text caption d next
              (caseEntry text test entry)).andThen b).alongside f') :=
            inset_alongside_right ((placed_vertex _).andThen hbody.placed)
          rwa [length_andThen, ← Nat.add_assoc] at hinset
  | guardedBody =>
      cases hf with
      | guarded hbody hhandler hfinal =>
          obtain rfl := hf'.unique (emit_eq_ok_of_emits hbody)
          exact (inset_protect_left hhandler.placed).trans
            (fun i hi => owns_protect.mpr (.inl hi)) (inset_finish_left hfinal.placed)
  | guardedHandler hemit =>
      cases hf with
      | guarded hbody hhandler hfinal =>
          obtain rfl := hbody.unique hemit
          obtain rfl := hf'.unique (emit_eq_ok_of_emits hhandler)
          exact (inset_protect_right hbody.placed).trans
            (fun i hi => owns_protect.mpr (.inr hi)) (inset_finish_left hfinal.placed)
  | guardedFinal hemit hemit' =>
      cases hf with
      | guarded hbody hhandler hfinal =>
          obtain rfl := hbody.unique hemit
          obtain rfl := hhandler.unique hemit'
          obtain rfl := hf'.unique (emit_eq_ok_of_emits hfinal)
          exact inset_finish_right (hbody.placed.protect hhandler.placed)
  | catchBody =>
      cases hf with
      | «catch» _ hbody =>
          obtain rfl := hf'.unique (emit_eq_ok_of_emits hbody)
          exact inset_andThen_right (placed_vertex _)

/-- So is what is laid down at any depth. -/
theorem Visits.inset (hvisit : Visits text c c') (hlive : c.Live) (hf : c.Gives text f)
    (hf' : c'.Gives text f') : f'.Inset c'.next f := by
  induction hvisit generalizing f' with
  | refl =>
      obtain rfl := hf'.unique (emit_eq_ok_of_emits hf)
      exact .refl _ _
  | tail hvisit hcall ih =>
      obtain ⟨middle, hmiddle, hliveMiddle, _⟩ := Visits.sits hvisit hlive hf
      obtain ⟨inner, hinner, _, hsits⟩ := hcall.sits hliveMiddle hmiddle
      obtain rfl := hf'.unique (emit_eq_ok_of_emits hinner)
      exact (hcall.inset hliveMiddle hmiddle hf').trans hsits.owns (ih hmiddle)

end Outline

end Cyclomatic
