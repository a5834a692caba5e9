import Mathlib.Logic.Relation
import Cyclomatic.Proofs.Flow.Shape

/-! # Reaching and leaving

Every vertex of a fragment is reached from the exits the fragment was entered
from, and from every vertex control gets to an end or to a place where the
function is left.
-/

namespace Cyclomatic

open Cyclomatic.Flow

namespace Flow

/-- Some edge goes from one vertex to the other. -/
def Joins (edges : List Edge) (a b : Nat) : Prop := ∃ e ∈ edges, e.source = a ∧ e.target = b

instance (edges : List Edge) (a b : Nat) : Decidable (Joins edges a b) :=
  inferInstanceAs (Decidable (∃ e ∈ edges, e.source = a ∧ e.target = b))

/-- A way of any length along edges. -/
abbrev Leads (edges : List Edge) : Nat → Nat → Prop := Relation.ReflTransGen (Joins edges)

/-- A way along edges, by the vertices it meets. -/
structure Route (edges : List Edge) (start goal : Nat) (path : List Nat) : Prop where
  chain : path.IsChain (Joins edges)
  head : path.head? = some start
  last : path.getLast? = some goal

instance (edges : List Edge) (start goal : Nat) (path : List Nat) :
    Decidable (Route edges start goal path) :=
  decidable_of_iff (path.IsChain (Joins edges) ∧ path.head? = some start ∧
    path.getLast? = some goal) ⟨fun ⟨hchain, hhead, hlast⟩ => ⟨hchain, hhead, hlast⟩,
      fun ⟨hchain, hhead, hlast⟩ => ⟨hchain, hhead, hlast⟩⟩

variable {edges first second : List Edge} {a b i s id : Nat} {starts middle goals : List Nat}

/-- An edge stays when edges are added. -/
theorem Joins.mono (hsub : first ⊆ edges) (h : Joins first a b) : Joins edges a b := by
  obtain ⟨e, he, hends⟩ := h
  exact ⟨e, hsub he, hends⟩

/-- A way through some edges is a way through more of them. -/
theorem Leads.mono (hsub : first ⊆ edges) (h : Leads first a b) : Leads edges a b :=
  Relation.ReflTransGen.mono (fun _ _ => Joins.mono hsub) _ _ h

/-- Every exit that is connected to a vertex has an edge to it. -/
theorem joins_connect {exits : List Exit} (hs : s ∈ sources exits) :
    Joins (connect exits id) s id := by
  obtain ⟨x, hx, rfl⟩ := List.mem_map.mp hs
  exact ⟨_, List.mem_map_of_mem hx, rfl, rfl⟩

/-- Reachable from one of several vertices. -/
def ReachedFrom (edges : List Edge) (starts : List Nat) (i : Nat) : Prop :=
  ∃ s ∈ starts, Leads edges s i

theorem reachedFrom_of_mem (hs : s ∈ starts) : ReachedFrom edges starts s := ⟨s, hs, .refl⟩

theorem ReachedFrom.mono (hsub : first ⊆ edges) (h : ReachedFrom first starts i) :
    ReachedFrom edges starts i := by
  obtain ⟨s, hs, hlead⟩ := h
  exact ⟨s, hs, hlead.mono hsub⟩

/-- What is reached from vertices that are all reached themselves is reached from where those are
reached from. -/
theorem ReachedFrom.trans (hfirst : ∀ s ∈ middle, ReachedFrom edges starts s)
    (hsecond : ReachedFrom edges middle i) : ReachedFrom edges starts i := by
  obtain ⟨m, hm, hlead⟩ := hsecond
  obtain ⟨s, hs, hlead'⟩ := hfirst m hm
  exact ⟨s, hs, hlead'.trans hlead⟩

/-- Some one of several vertices is reachable. -/
def LeadsTo (edges : List Edge) (i : Nat) (goals : List Nat) : Prop :=
  ∃ t ∈ goals, Leads edges i t

theorem leadsTo_of_mem (hs : s ∈ goals) : LeadsTo edges s goals := ⟨s, hs, .refl⟩

/-- Control still gets to its goal when edges and goals are added. -/
theorem LeadsTo.mono {wider : List Nat} (hsub : first ⊆ edges) (hgoals : goals ⊆ wider)
    (h : LeadsTo first i goals) : LeadsTo edges i wider := by
  obtain ⟨t, ht, hlead⟩ := h
  exact ⟨t, hgoals ht, hlead.mono hsub⟩

/-- Control gets to a goal if it gets to vertices that all lead on to it. -/
theorem LeadsTo.trans (hfirst : LeadsTo edges i middle)
    (hsecond : ∀ t ∈ middle, LeadsTo edges t goals) : LeadsTo edges i goals := by
  obtain ⟨m, hm, hlead⟩ := hfirst
  obtain ⟨t, ht, hlead'⟩ := hsecond m hm
  exact ⟨t, ht, hlead.trans hlead'⟩

/-- Control gets to a goal if one step leads to where it does. -/
theorem LeadsTo.head (hstep : Joins edges a b) (h : LeadsTo edges b goals) :
    LeadsTo edges a goals := by
  obtain ⟨t, ht, hlead⟩ := h
  exact ⟨t, ht, .head hstep hlead⟩

/-- A way from inside some set of vertices to the outside steps out of it. -/
theorem Route.exists_escape {edges : List Edge} {start goal : Nat} {path : List Nat}
    (hroute : Route edges start goal path) {inside : Nat → Prop} (hstart : inside start)
    (hgoal : ¬ inside goal) :
    ∃ front u v rest, path = front ++ u :: v :: rest ∧ Joins edges u v ∧ inside u ∧ ¬ inside v := by
  obtain ⟨hchain, hhead, hlast⟩ := hroute
  induction path generalizing start with
  | nil => cases hhead
  | cons a path ih =>
      obtain rfl : a = start := by simpa using hhead
      cases path with
      | nil =>
          obtain rfl : a = goal := by simpa using hlast
          exact absurd hstart hgoal
      | cons b path =>
          obtain ⟨hjoins, hchain⟩ := List.isChain_cons_cons.mp hchain
          by_cases hb : inside b
          · obtain ⟨front, u, v, rest, hpath, hstep⟩ :=
              ih hb hchain rfl (by simpa [List.getLast?_cons_cons] using hlast)
            exact ⟨a :: front, u, v, rest, by rw [hpath, List.cons_append], hstep⟩
          · exact ⟨[], a, b, path, rfl, hjoins, hstart, hb⟩

namespace Fragment

/-- Where control is when it is done with a fragment. -/
def outlets (f : Fragment) : List Nat := sources f.ends ++ f.returned

/-- The outlets of a fragment are where control goes on after it and where the function is left. -/
theorem mem_outlets {f : Fragment} : s ∈ f.outlets ↔ s ∈ sources f.ends ∨ s ∈ f.returned :=
  List.mem_append

variable {f g y n b h c head : Fragment} {next : Nat} {entry : List Exit}

/-- Outlets of the second of two fragments in sequence are outlets of the whole; those of the first
need not be. -/
theorem outlets_andThen : g.outlets ⊆ (f.andThen g).outlets := by
  intro s hs
  exact mem_outlets.mpr ((mem_outlets.mp hs).imp_right (List.mem_append_right _))

/-- Each side of a decision keeps its outlets in the whole. -/
theorem outlets_fork_left : y.outlets ⊆ (head.fork y n).outlets := by
  intro s hs
  rw [mem_outlets, mem_ends_fork]
  exact (mem_outlets.mp hs).imp .inl (List.mem_append_left _)

theorem outlets_fork_right : n.outlets ⊆ (head.fork y n).outlets := by
  intro s hs
  rw [mem_outlets, mem_ends_fork]
  exact (mem_outlets.mp hs).imp .inr (List.mem_append_right _)

/-- The cases of a multiway branch keep their outlets in the whole. -/
theorem outlets_select {own : List Exit} : c.outlets ⊆ (head.select c own).outlets := by
  intro s hs
  rw [mem_outlets, mem_ends_select]
  exact (mem_outlets.mp hs).imp_left .inl

/-- Cases beside each other keep their outlets. -/
theorem outlets_alongside_left : f.outlets ⊆ (f.alongside g).outlets := by
  intro s hs
  rw [mem_outlets, mem_ends_alongside]
  exact (mem_outlets.mp hs).imp .inl (List.mem_append_left _)

theorem outlets_alongside_right : g.outlets ⊆ (f.alongside g).outlets := by
  intro s hs
  rw [mem_outlets, mem_ends_alongside]
  exact (mem_outlets.mp hs).imp .inr (List.mem_append_right _)

/-- A block keeps its outlets under a handler. -/
theorem outlets_protect_left : b.outlets ⊆ (b.protect h).outlets := by
  intro s hs
  rw [mem_outlets, mem_ends_protect]
  exact (mem_outlets.mp hs).imp .inl (List.mem_append_left _)

theorem outlets_protect_right : h.outlets ⊆ (b.protect h).outlets := by
  intro s hs
  rw [mem_outlets, mem_ends_protect]
  exact (mem_outlets.mp hs).imp .inr (List.mem_append_right _)

/-- Outlets of a final part are outlets of the whole. -/
theorem outlets_finish : g.outlets ⊆ (f.finish g).outlets := by
  intro s hs
  rw [mem_outlets] at hs ⊢
  by_cases hends : f.ends = []
  · rw [mem_returned_finish_of_nil hends]
    exact .inr hs.symm
  · rw [ends_finish_of_ne_nil hends, returned_finish_of_ne_nil hends]
    exact hs.imp_right (List.mem_append_right _)

/-- What a protected part leaves open is taken up by its final part, or stays. -/
theorem mem_outlets_of_protected {s : Nat} (hs : s ∈ f.outlets) :
    s ∈ sources f.finalEntry ∨ s ∈ (f.finish g).outlets := by
  by_cases hends : f.ends = []
  · rw [mem_outlets, hends] at hs
    rw [finalEntry_of_nil hends, sources_map_exit]
    exact .inl (hs.resolve_left (by simp))
  · rw [finalEntry_of_ne_nil hends, mem_outlets, returned_finish_of_ne_nil hends]
    exact (mem_outlets.mp hs).imp_right fun hs => .inr (List.mem_append_left _ hs)

/-! ## Reaching every vertex -/

/-- All of two fragments in sequence is reached if each is reached from its own entry, since the
ends of the first are reached too. -/
theorem reached_andThen (hf : f.Placed next entry)
    (hreach : ∀ i, f.Owns next i → ReachedFrom f.edges (sources entry) i)
    (hrest : ∀ i, g.Owns (next + f.vertices.length) i → ReachedFrom g.edges (sources f.ends) i)
    (hi : (f.andThen g).Owns next i) : ReachedFrom (f.andThen g).edges (sources entry) i := by
  rcases owns_andThen.mp hi with hi | hi
  · exact (hreach i hi).mono (List.subset_append_left _ _)
  · refine .trans ?_ ((hrest i hi).mono (List.subset_append_right _ _))
    intro s hs
    rcases hf.ends s hs with hs | hs
    · exact reachedFrom_of_mem hs
    · exact (hreach s hs).mono (List.subset_append_left _ _)

/-- What is entered from one vertex is reached from wherever that vertex is. -/
theorem reached_below {label : String} (hsub : f.edges ⊆ edges)
    (hhead : ReachedFrom edges starts id) (hi : ReachedFrom f.edges (sources [⟨id, label⟩]) i) :
    ReachedFrom edges starts i := by
  refine .trans ?_ (hi.mono hsub)
  intro s hs
  obtain rfl : s = id := by simpa using hs
  exact hhead

/-- A vertex that some exit is connected to is reached. -/
theorem reached_connect {exits : List Exit} (hentry : exits ≠ [])
    (hsub : connect exits id ⊆ edges) : ReachedFrom edges (sources exits) id := by
  obtain ⟨x, hx⟩ := List.exists_mem_of_ne_nil _ hentry
  have hs : x.source ∈ sources exits := List.mem_map_of_mem hx
  exact ⟨_, hs, .single ((joins_connect hs).mono hsub)⟩

/-- A vertex is reached if anything leads to it. -/
theorem reached_vertex {v : Vertex} (hentry : entry ≠ []) (hi : (vertex next v entry).Owns next i) :
    ReachedFrom (vertex next v entry).edges (sources entry) i := by
  obtain rfl := owns_vertex.mp hi
  exact reached_connect hentry (List.Subset.refl _)

/-- Both sides of a decision are reached, because the decision is. -/
theorem reached_fork {v : Vertex} {yesLabel noLabel : String} (hentry : entry ≠ [])
    (hy : ∀ i, y.Owns (next + 1) i → ReachedFrom y.edges (sources [⟨next, yesLabel⟩]) i)
    (hn : ∀ i, n.Owns (next + 1 + y.vertices.length) i →
      ReachedFrom n.edges (sources [⟨next, noLabel⟩]) i)
    (hi : ((vertex next v entry).fork y n).Owns next i) :
    ReachedFrom ((vertex next v entry).fork y n).edges (sources entry) i := by
  have hhead : ReachedFrom ((vertex next v entry).fork y n).edges (sources entry) next :=
    reached_connect hentry fun e he => List.mem_append_left _ (List.mem_append_left _ he)
  rcases owns_fork.mp hi with rfl | hi | hi
  · exact hhead
  · exact reached_below (fun e he => List.mem_append_left _ (List.mem_append_right _ he)) hhead
      (hy i hi)
  · exact reached_below (List.subset_append_right _ _) hhead (hn i hi)

/-- A handler is reached from what its block was entered from, and these exits may be inside the
block. -/
theorem reached_protect (hb : b.Placed next entry)
    (hbody : ∀ i, b.Owns next i → ReachedFrom b.edges (sources entry) i)
    (hhandler : ∀ i, h.Owns (next + b.vertices.length) i →
      ReachedFrom h.edges (sources b.entered) i)
    (hi : (b.protect h).Owns next i) : ReachedFrom (b.protect h).edges (sources entry) i := by
  rcases owns_protect.mp hi with hi | hi
  · exact (hbody i hi).mono (List.subset_append_left _ _)
  · refine .trans ?_ ((hhandler i hi).mono (List.subset_append_right _ _))
    intro s hs
    rcases hb.entered s hs with hs | hs
    · exact reachedFrom_of_mem hs
    · exact (hbody s hs).mono (List.subset_append_left _ _)

/-- A final part is reached from the outlets of what it ends. -/
theorem reached_finish (hf : f.Placed next entry)
    (hreach : ∀ i, f.Owns next i → ReachedFrom f.edges (sources entry) i)
    (hfinal : ∀ i, g.Owns (next + f.vertices.length) i →
      ReachedFrom g.edges (sources f.finalEntry) i)
    (hi : (f.finish g).Owns next i) : ReachedFrom (f.finish g).edges (sources entry) i := by
  rw [edges_finish]
  rcases owns_finish.mp hi with hi | hi
  · exact (hreach i hi).mono (List.subset_append_left _ _)
  · refine .trans ?_ ((hfinal i hi).mono (List.subset_append_right _ _))
    intro s hs
    rcases hf.finalEntry hs with hs | hs
    · exact reachedFrom_of_mem hs
    · exact (hreach s hs).mono (List.subset_append_left _ _)

end Fragment

end Flow

namespace Outline

open Fragment

variable {text : Range → String} {p : Part} {next i : Nat} {entry : List Exit} {f : Fragment}

/-- A sequence is entered from some exit, or passed over. -/
theorem Emits.entry_ne_nil_or {o : Outline .sequence} (hf : Emits text o next entry f) :
    entry ≠ [] ∨ f = .pass [] := by
  by_cases hentry : entry = []
  · subst hentry
    exact .inr hf.eq_pass_of_nil
  · exact .inl hentry

/-- A fragment with a vertex was entered: nothing is laid down where no exit leads. -/
theorem entry_ne_nil_of_owns (hlive : entry ≠ [] ∨ f = .pass []) (hi : f.Owns next i) :
    entry ≠ [] := by
  refine hlive.resolve_right ?_
  rintro rfl
  have hlt : next < next := Nat.lt_of_le_of_lt hi.1 (by simpa [Fragment.pass] using hi.2)
  exact Nat.lt_irrefl _ hlt

theorem reached_runFragment {r : Run} (hentry : entry ≠ [])
    (hi : (runFragment text r next entry).Owns next i) :
    ReachedFrom (runFragment text r next entry).edges (sources entry) i := by
  unfold runFragment at hi ⊢
  split <;> rename_i hreturns
  · rw [if_pos hreturns] at hi
    exact reached_vertex hentry hi
  · rw [if_neg hreturns] at hi
    exact reached_vertex hentry hi

/-- Every vertex that is laid down is reached from an exit that leads to the part. -/
theorem Emits.reached {o : Outline p} (hf : Emits text o next entry f)
    (hlive : entry ≠ [] ∨ f = .pass []) (hi : f.Owns next i) :
    ReachedFrom f.edges (sources entry) i := by
  -- A vertex is only laid down where some exit leads.
  have hentry := entry_ne_nil_of_owns hlive hi
  clear hlive
  induction hf generalizing i with
  | done | absent | unreached | noCase | noHandler =>
      exact absurd (Nat.lt_of_le_of_lt hi.1 hi.2) (Nat.lt_irrefl _)
  | @run r rest next entry g _ hrest ih =>
      refine reached_andThen (placed_runFragment r) (fun i => reached_runFragment hentry) ?_ hi
      rw [length_runFragment]
      intro i hi
      exact ih hi (entry_ne_nil_of_owns hrest.entry_ne_nil_or hi)
  | step _ hfirst hrest ihFirst ihRest =>
      refine reached_andThen hfirst.placed (fun i hi => ihFirst hi hentry) ?_ hi
      intro i hi
      exact ihRest hi (entry_ne_nil_of_owns hrest.entry_ne_nil_or hi)
  | nested _ ih => exact ih hi hentry
  | branch _ _ ihYes ihNo =>
      exact reached_fork hentry (fun i hi => ihYes hi (by simp)) (fun i hi => ihNo hi (by simp)) hi
  | @loop style d body next entry b _ ih =>
      have hhead : ReachedFrom
          ((decisionFragment text style.caption d next entry).cycle next b).edges (sources entry)
          next :=
        reached_connect hentry fun e he => List.mem_append_left _ (List.mem_append_left _ he)
      rcases owns_cycle.mp hi with rfl | hi
      · exact hhead
      · exact reached_below (fun e he => List.mem_append_left _ (List.mem_append_right _ he)) hhead
          (ih hi (by simp))
  | choice _ _ ihYes ihNo =>
      exact reached_fork hentry (fun i hi => ihYes hi (by simp)) (fun i hi => ihNo hi (by simp)) hi
  | @switch d cases next entry c _ ih =>
      have hhead : ReachedFrom ((decisionFragment text .switch d next entry).select c
          (switchEnds cases next)).edges (sources entry) next :=
        reached_connect hentry (List.subset_append_left _ _)
      rcases owns_select.mp hi with rfl | hi
      · exact hhead
      · exact reached_below (List.subset_append_right _ _) hhead (ih hi (by simp))
  | guarded hbody hhandler hfinal ihBody ihHandler ihFinal =>
      have hentered := hbody.entered_ne_nil hentry
      have hfinalEntry := (hbody.foretells hentry).finalEntry_ne_nil (hhandler.foretells hentered)
      refine reached_finish (hbody.placed.protect hhandler.placed) ?_
        (fun i hi => ihFinal hi hfinalEntry) hi
      intro i hi
      exact reached_protect hbody.placed (fun i hi => ihBody hi hentry)
        (fun i hi => ihHandler hi hentered) hi
  | @case kind caption d test body rest next entry b r _ hbody _ ihBody ihRest =>
      have hrelabelled : caseEntry text test entry ≠ [] := by simpa [caseEntry] using hentry
      rcases owns_alongside.mp hi with hi | hi
      · rw [← sources_caseEntry text test entry]
        refine (reached_andThen (placed_vertex _) (fun i => reached_vertex hrelabelled)
          (fun i hi => ihBody hi (by simp)) hi).mono (List.subset_append_left _ _)
      · rw [length_andThen, ← Nat.add_assoc] at hi
        exact (ihRest hi hentry).mono (List.subset_append_right _ _)
  | «catch» _ _ ih =>
      exact reached_andThen (placed_vertex _) (fun i => reached_vertex hentry)
        (fun i hi => ih hi (by simp)) hi
  | leaf => exact reached_vertex hentry hi
  | ternary _ _ ihYes ihNo =>
      exact reached_fork hentry (fun i hi => ihYes hi (by simp)) (fun i hi => ihNo hi (by simp)) hi

/-! ## Leaving every vertex -/

/-- An exit that leads to a part stays open or goes on to a vertex of it. -/
theorem Emits.onward {o : Outline p} (hf : Emits text o next entry f) (hvoid : o.isVoid = false)
    {s : Nat} (hs : s ∈ sources entry) :
    s ∈ sources f.ends ∨ ∃ i, f.Owns next i ∧ Joins f.edges s i := by
  induction hf with
  | done | absent | unreached => exact .inl hs
  | @run r rest next entry g _ _ _ =>
      refine .inr ⟨next, owns_andThen.mpr (.inl (by simp [Owns])), ?_⟩
      refine (joins_connect hs).mono fun e he => List.mem_append_left _ ?_
      unfold runFragment
      split <;> exact he
  | step _ _ _ ihFirst ihRest =>
      rcases ihFirst (isVoid_construct _) hs with hs | ⟨i, hi, hjoin⟩
      · rcases ihRest (isVoid_sequence _) hs with hs | ⟨i, hi, hjoin⟩
        · exact .inl hs
        · exact .inr ⟨i, owns_andThen.mpr (.inr hi), hjoin.mono (List.subset_append_right _ _)⟩
      · exact .inr ⟨i, owns_andThen.mpr (.inl hi), hjoin.mono (List.subset_append_left _ _)⟩
  | nested _ ih => exact ih (isVoid_sequence _) hs
  | branch | choice | ternary =>
      refine .inr ⟨_, owns_fork.mpr (.inl rfl), (joins_connect hs).mono fun e he => ?_⟩
      exact List.mem_append_left _ (List.mem_append_left _ he)
  | loop =>
      refine .inr ⟨_, owns_cycle.mpr (.inl rfl), (joins_connect hs).mono fun e he => ?_⟩
      exact List.mem_append_left _ (List.mem_append_left _ he)
  | switch =>
      exact .inr ⟨_, owns_select.mpr (.inl rfl),
        (joins_connect hs).mono (List.subset_append_left _ _)⟩
  | @guarded body handler final next entry b h f _ _ _ ihBody _ ihFinal =>
      rw [edges_finish]
      rcases ihBody (isVoid_sequence _) hs with hs | ⟨i, hi, hjoin⟩
      · have hprotect : s ∈ sources (b.protect h).ends := mem_ends_protect.mpr (.inl hs)
        have hends : (b.protect h).ends ≠ [] := by
          rw [ne_eq, ← sources_eq_nil_iff]
          exact List.ne_nil_of_mem hprotect
        rw [finalEntry_of_ne_nil hends] at ihFinal
        rw [ends_finish_of_ne_nil hends]
        rcases ihFinal (isVoid_sequence _) hprotect with hs | ⟨i, hi, hjoin⟩
        · exact .inl hs
        · exact .inr ⟨i, owns_finish.mpr (.inr hi), hjoin.mono (List.subset_append_right _ _)⟩
      · refine .inr ⟨i, owns_finish.mpr (.inl (owns_protect.mpr (.inl hi))), hjoin.mono ?_⟩
        exact fun e he => List.mem_append_left _ (List.mem_append_left _ he)
  | noCase | noHandler => cases hvoid
  | case =>
      rw [← sources_caseEntry] at hs
      refine .inr ⟨_, owns_alongside.mpr (.inl (owns_andThen.mpr (.inl (owns_vertex.mpr rfl)))), ?_⟩
      exact (joins_connect hs).mono fun e he => List.mem_append_left _ (List.mem_append_left _ he)
  | «catch» =>
      exact .inr ⟨_, owns_andThen.mpr (.inl (owns_vertex.mpr rfl)),
        (joins_connect hs).mono (List.subset_append_left _ _)⟩
  | leaf => exact .inr ⟨_, owns_vertex.mpr rfl, joins_connect hs⟩

/-- A straight run is an outlet, for control goes on from it or leaves the function there. -/
theorem leaves_runFragment {r : Run} (hi : (runFragment text r next entry).Owns next i) :
    i ∈ (runFragment text r next entry).outlets := by
  have heq : i = next := by
    have hlength : (runFragment text r next entry).vertices.length = 1 := length_runFragment r
    unfold Owns at hi
    omega
  subst heq
  unfold runFragment
  split <;> simp [outlets, Fragment.leaving, vertex]

/-- If every vertex of a part gets out of it, so does every exit that leads to it. -/
theorem Emits.through {o : Outline p} (hf : Emits text o next entry f) (hvoid : o.isVoid = false)
    (hleaves : ∀ i, f.Owns next i → LeadsTo f.edges i f.outlets) {s : Nat}
    (hs : s ∈ sources entry) : LeadsTo f.edges s f.outlets := by
  rcases hf.onward hvoid hs with hs | ⟨i, hi, hjoin⟩
  · exact leadsTo_of_mem (mem_outlets.mpr (.inl hs))
  · exact .head hjoin (hleaves i hi)

/-- Control in the first of two fragments gets to one of its outlets. From an end it gets through
the second fragment, unless that adds nothing. -/
theorem leaves_andThen {g : Fragment} {rest : Outline .sequence}
    (hrest : Emits text rest (next + f.vertices.length) f.ends g)
    (hfirst : ∀ i, f.Owns next i → LeadsTo f.edges i f.outlets)
    (hleaves : ∀ i, g.Owns (next + f.vertices.length) i → LeadsTo g.edges i g.outlets)
    (hi : (f.andThen g).Owns next i) :
    LeadsTo (f.andThen g).edges i (f.andThen g).outlets := by
  rcases owns_andThen.mp hi with hi | hi
  · refine ((hfirst i hi).mono (List.subset_append_left _ _) (List.Subset.refl _)).trans ?_
    intro t ht
    rcases mem_outlets.mp ht with ht | ht
    · exact (hrest.through (isVoid_sequence _) hleaves ht).mono (List.subset_append_right _ _)
        outlets_andThen
    · exact leadsTo_of_mem (mem_outlets.mpr (.inr (List.mem_append_left _ ht)))
  · exact (hleaves i hi).mono (List.subset_append_right _ _) outlets_andThen

theorem leaves_vertex {v : Vertex} (hi : (vertex next v entry).Owns next i) :
    LeadsTo (vertex next v entry).edges i (vertex next v entry).outlets := by
  obtain rfl := owns_vertex.mp hi
  exact leadsTo_of_mem (by simp [outlets, vertex])

/-- Control gets out of a decision through one of its sides; a side that adds nothing ends at the
decision. -/
theorem leaves_fork {yes : Outline p} {y n : Fragment} {v : Vertex} {label : String}
    (hvoid : yes.isVoid = false) (hyes : Emits text yes (next + 1) [⟨next, label⟩] y)
    (hy : ∀ i, y.Owns (next + 1) i → LeadsTo y.edges i y.outlets)
    (hn : ∀ i, n.Owns (next + 1 + y.vertices.length) i → LeadsTo n.edges i n.outlets)
    (hi : ((vertex next v entry).fork y n).Owns next i) :
    LeadsTo ((vertex next v entry).fork y n).edges i ((vertex next v entry).fork y n).outlets := by
  have hsub : y.edges ⊆ ((vertex next v entry).fork y n).edges :=
    fun e he => List.mem_append_left _ (List.mem_append_right _ he)
  rcases owns_fork.mp hi with rfl | hi | hi
  · exact (hyes.through hvoid hy (by simp)).mono hsub outlets_fork_left
  · exact (hy i hi).mono hsub outlets_fork_left
  · exact (hn i hi).mono (List.subset_append_right _ _) outlets_fork_right

/-- A body that goes on gets back to the loop. -/
theorem leaves_cycle {b : Fragment} {v : Vertex}
    (hb : ∀ i, b.Owns (next + 1) i → LeadsTo b.edges i b.outlets)
    (hi : ((vertex next v entry).cycle next b).Owns next i) :
    LeadsTo ((vertex next v entry).cycle next b).edges i
      ((vertex next v entry).cycle next b).outlets := by
  have hhead : LeadsTo ((vertex next v entry).cycle next b).edges next
      ((vertex next v entry).cycle next b).outlets :=
    leadsTo_of_mem (by simp [outlets, cycle])
  rcases owns_cycle.mp hi with rfl | hi
  · exact hhead
  · refine ((hb i hi).mono (fun e he => List.mem_append_left _ (List.mem_append_right _ he))
      (List.Subset.refl _)).trans fun t ht => ?_
    rcases mem_outlets.mp ht with ht | ht
    · -- From an end of the body, the loop is one step away, and the loop is an end.
      have hback : t ∈ b.backSources := mem_backSources.mpr (.inl ht)
      refine .head ⟨⟨t, next, loopLabel⟩, List.mem_append_right _ ?_, rfl, rfl⟩ hhead
      exact List.mem_map_of_mem hback
    · exact leadsTo_of_mem (mem_outlets.mpr (.inr ht))

/-- Control gets out of a multiway branch through its cases or past them. -/
theorem leaves_select {cases : Outline .cases} {c : Fragment} {v : Vertex}
    (hcases : Emits text cases (next + 1) [⟨next, ""⟩] c)
    (hc : ∀ i, c.Owns (next + 1) i → LeadsTo c.edges i c.outlets)
    (hi : ((vertex next v entry).select c (switchEnds cases next)).Owns next i) :
    LeadsTo ((vertex next v entry).select c (switchEnds cases next)).edges i
      ((vertex next v entry).select c (switchEnds cases next)).outlets := by
  rcases owns_select.mp hi with rfl | hi
  · cases hvoid : cases.isVoid with
    | false =>
        exact (hcases.through hvoid hc (by simp)).mono (List.subset_append_right _ _) outlets_select
    | true =>
        -- Without a case, the switch is an end itself.
        have htested : cases.allTested = true := by
          cases cases with
          | noCase => simp [allTested]
          | case => cases hvoid
        refine leadsTo_of_mem (mem_outlets.mpr (.inl ?_))
        simp [select, mem_sources_unique, switchEnds, htested]
  · exact (hc i hi).mono (List.subset_append_right _ _) outlets_select

/-- Control that gets to a final part gets out of it, and control that does not has got out
already. -/
theorem leaves_finish {g : Fragment} {final : Outline .sequence}
    (hfinal : Emits text final (next + f.vertices.length) f.finalEntry g)
    (hf : ∀ i, f.Owns next i → LeadsTo f.edges i f.outlets)
    (hg : ∀ i, g.Owns (next + f.vertices.length) i → LeadsTo g.edges i g.outlets)
    (hi : (f.finish g).Owns next i) : LeadsTo (f.finish g).edges i (f.finish g).outlets := by
  rw [edges_finish]
  rcases owns_finish.mp hi with hi | hi
  · refine ((hf i hi).mono (List.subset_append_left _ _) (List.Subset.refl _)).trans fun t ht => ?_
    rcases mem_outlets_of_protected ht with ht | ht
    · exact (hfinal.through (isVoid_sequence _) hg ht).mono (List.subset_append_right _ _)
        outlets_finish
    · exact leadsTo_of_mem ht
  · exact (hg i hi).mono (List.subset_append_right _ _) outlets_finish

/-- From every vertex that is laid down, control gets to an end of the part or
to a place where it leaves the function. -/
theorem Emits.leaves {o : Outline p} (hf : Emits text o next entry f)
    (hlive : entry ≠ [] ∨ f = .pass []) (hi : f.Owns next i) : LeadsTo f.edges i f.outlets := by
  have hentry := entry_ne_nil_of_owns hlive hi
  clear hlive
  induction hf generalizing i with
  | done | absent | unreached | noCase | noHandler =>
      exact absurd (Nat.lt_of_le_of_lt hi.1 hi.2) (Nat.lt_irrefl _)
  | @run r rest next entry g _ hrest ih =>
      have hlength : (runFragment text r next entry).vertices.length = 1 := length_runFragment r
      rw [← hlength] at hrest ih
      exact leaves_andThen hrest (fun i hi => leadsTo_of_mem (leaves_runFragment hi))
        (fun i hi => ih hi (entry_ne_nil_of_owns hrest.entry_ne_nil_or hi)) hi
  | step _ _ hrest ihFirst ihRest =>
      exact leaves_andThen hrest (fun i hi => ihFirst hi hentry)
        (fun i hi => ihRest hi (entry_ne_nil_of_owns hrest.entry_ne_nil_or hi)) hi
  | nested _ ih => exact ih hi hentry
  | branch hyes _ ihYes ihNo =>
      exact leaves_fork (isVoid_sequence _) hyes (fun i hi => ihYes hi (by simp))
        (fun i hi => ihNo hi (by simp)) hi
  | loop _ ih => exact leaves_cycle (fun i hi => ih hi (by simp)) hi
  | choice hyes _ ihYes ihNo =>
      exact leaves_fork (isVoid_operand _) hyes (fun i hi => ihYes hi (by simp))
        (fun i hi => ihNo hi (by simp)) hi
  | switch hcases ih => exact leaves_select hcases (fun i hi => ih hi (by simp)) hi
  | guarded hbody hhandler hfinal ihBody ihHandler ihFinal =>
      have hentered := hbody.entered_ne_nil hentry
      have hfinalEntry := (hbody.foretells hentry).finalEntry_ne_nil (hhandler.foretells hentered)
      refine leaves_finish hfinal (fun i hi => ?_) (fun i hi => ihFinal hi hfinalEntry) hi
      rcases owns_protect.mp hi with hi | hi
      · exact (ihBody hi hentry).mono (List.subset_append_left _ _) outlets_protect_left
      · exact (ihHandler hi hentered).mono (List.subset_append_right _ _) outlets_protect_right
  | case _ hbody _ ihBody ihRest =>
      rcases owns_alongside.mp hi with hi | hi
      · exact (leaves_andThen hbody (fun i => leaves_vertex) (fun i hi => ihBody hi (by simp))
          hi).mono (List.subset_append_left _ _) outlets_alongside_left
      · rw [length_andThen, ← Nat.add_assoc] at hi
        exact (ihRest hi hentry).mono (List.subset_append_right _ _) outlets_alongside_right
  | «catch» _ hbody ih =>
      exact leaves_andThen hbody (fun i => leaves_vertex) (fun i hi => ih hi (by simp)) hi
  | leaf => exact leaves_vertex hi
  | ternary hyes _ ihYes ihNo =>
      exact leaves_fork (isVoid_operand _) hyes (fun i hi => ihYes hi (by simp))
        (fun i hi => ihNo hi (by simp)) hi

end Outline

end Cyclomatic
