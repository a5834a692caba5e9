import Cyclomatic.Proofs.Flow.ExitEdges
import Cyclomatic.Proofs.Tree.Execution

/-! # Executions are routes

The routes through the graph of a function, from the entry to the exit, are the
executions of the function's body. A loop whose body always leaves the function
is the one exception: the places where it leaves are led back to the loop as
well, and a route may go on from there.
-/

namespace Cyclomatic

open Cyclomatic.Flow Cyclomatic.Flow.Fragment

namespace Flow.Fragment

variable {f g y n b c : Fragment} {strict : Bool} {next i : Nat} {entry : List Exit} {v : Vertex}

/-- Control goes on from a vertex, inside a fragment or behind it. Only where it is `strict`
does this count the edges that go back to a loop. -/
def GoesFrom (f : Fragment) (strict : Bool) (i : Nat) : Prop :=
  i ∈ sources f.ends ∨ ∃ e ∈ f.edges, e.source = i ∧ (strict = true ∨ e.label ≠ loopLabel)

/-- Control does not go on from where the function is left. -/
def Settled (f : Fragment) (strict : Bool) : Prop := ∀ i ∈ f.returned, ¬ f.GoesFrom strict i

/-- Control goes on from the entry of a placed fragment or from its own vertices. -/
theorem Placed.goesFrom (hf : f.Placed next entry) (hi : f.GoesFrom strict i) :
    i ∈ sources entry ∨ f.Owns next i := by
  rcases hi with hi | ⟨e, he, rfl, _⟩
  · exact hf.ends i hi
  · exact hf.source e he

/-- Control does not go on in one fragment from a vertex of another that it avoids. -/
theorem Avoids.not_goesFrom (havoids : g.Avoids f next) (hi : f.Owns next i) :
    ¬ g.GoesFrom strict i := by
  rintro (hends | ⟨e, he, rfl, _⟩)
  · exact havoids.ends i hends hi
  · exact havoids.source e he hi

/-- Where control goes on from in two fragments in sequence, it does so in one of them. -/
theorem goesFrom_andThen (hi : (f.andThen g).GoesFrom strict i) :
    f.GoesFrom strict i ∨ g.GoesFrom strict i := by
  rcases hi with hi | ⟨e, he, hcounts⟩
  · exact .inr (.inl hi)
  · exact (List.mem_append.mp he).imp (fun he => .inr ⟨e, he, hcounts⟩)
      fun he => .inr ⟨e, he, hcounts⟩

/-- In a decision with two sides control goes on from its entry or inside one of the sides. -/
theorem goesFrom_fork (hi : ((vertex next v entry).fork y n).GoesFrom strict i) :
    i ∈ sources entry ∨ y.GoesFrom strict i ∨ n.GoesFrom strict i := by
  rcases hi with hi | ⟨e, he, rfl, hcounts⟩
  · exact .inr ((mem_ends_fork.mp hi).imp .inl .inl)
  · simp only [fork, List.mem_append] at he
    rcases he with (he | he) | he
    · exact .inl (mem_connect he).1
    · exact .inr (.inl (.inr ⟨e, he, rfl, hcounts⟩))
    · exact .inr (.inr (.inr ⟨e, he, rfl, hcounts⟩))

/-- A loop that can go round goes back only from the ends of its body. -/
theorem goesFrom_cycle (hb : strict = true → b.ends ≠ [])
    (hi : ((vertex next v entry).cycle next b).GoesFrom strict i) :
    i ∈ sources entry ∨ i = next ∨ b.GoesFrom strict i := by
  rcases hi with hi | ⟨e, he, rfl, hcounts⟩
  · exact .inr (.inl (by simpa [cycle] using hi))
  · simp only [cycle, List.mem_append] at he
    rcases he with (he | he) | he
    · exact .inl (mem_connect he).1
    · exact .inr (.inr (.inr ⟨e, he, rfl, hcounts⟩))
    · obtain ⟨s, hs, rfl⟩ := List.mem_map.mp he
      have hstrict : strict = true := hcounts.resolve_right fun h => h rfl
      have hback := (mem_backSources.mp hs).resolve_right fun h => hb hstrict h.1
      exact .inr (.inr (.inl hback))

/-- In a multiway branch control goes on from its entry, from the branch, or inside its cases. -/
theorem goesFrom_select {own : List Exit} (hown : ∀ s ∈ sources own, s = next)
    (hi : ((vertex next v entry).select c own).GoesFrom strict i) :
    i ∈ sources entry ∨ i = next ∨ c.GoesFrom strict i := by
  rcases hi with hi | ⟨e, he, rfl, hcounts⟩
  · rcases mem_ends_select.mp hi with hi | hi
    · exact .inr (.inr (.inl hi))
    · exact .inr (.inl (hown i hi))
  · rcases List.mem_append.mp he with he | he
    · exact .inl (mem_connect he).1
    · exact .inr (.inr (.inr ⟨e, he, rfl, hcounts⟩))

theorem goesFrom_alongside (hi : (f.alongside g).GoesFrom strict i) :
    f.GoesFrom strict i ∨ g.GoesFrom strict i := by
  rcases hi with hi | ⟨e, he, hcounts⟩
  · exact (mem_ends_alongside.mp hi).imp .inl .inl
  · exact (List.mem_append.mp he).imp (fun he => .inr ⟨e, he, hcounts⟩)
      fun he => .inr ⟨e, he, hcounts⟩

theorem settled_vertex : (vertex next v entry).Settled strict := nofun

/-- Two settled fragments in sequence are settled: the second goes on from the ends of the first
only, and the function is not left there. -/
theorem Settled.andThen (hf : f.Settled strict) (hg : g.Settled strict) (hentry : Before entry next)
    (hfirst : f.Placed next entry) (hrest : g.Placed (next + f.vertices.length) f.ends) :
    (f.andThen g).Settled strict := by
  intro i hi hgoes
  rcases List.mem_append.mp hi with hi | hi
  · rcases goesFrom_andThen hgoes with hgoes | hgoes
    · exact hf i hi hgoes
    · rcases hrest.goesFrom hgoes with hends | howns
      · exact hf i hi (.inl hends)
      · exact not_owns_of_owns_later (hfirst.returned i hi) (Nat.le_refl _) howns
  · have hapart : f.Avoids g (next + f.vertices.length) :=
      hfirst.avoids_later hentry (Nat.le_refl _)
    rcases goesFrom_andThen hgoes with hgoes | hgoes
    · exact hapart.not_goesFrom (hrest.returned i hi) hgoes
    · exact hg i hi hgoes

/-- A decision with two settled sides is settled. -/
theorem Settled.fork {yesLabel noLabel : String} (hy : y.Settled strict) (hn : n.Settled strict)
    (hentry : Before entry next) (hyes : y.Placed (next + 1) [⟨next, yesLabel⟩])
    (hno : n.Placed (next + 1 + y.vertices.length) [⟨next, noLabel⟩]) :
    ((vertex next v entry).fork y n).Settled strict := by
  intro i hi hgoes
  rcases List.mem_append.mp hi with hi | hi
  · have howns := hyes.returned i hi
    rcases goesFrom_fork hgoes with hfrom | hgoes | hgoes
    · exact hentry.not_owns hfrom (Nat.le_succ _) howns
    · exact hy i hi hgoes
    · exact (hno.avoids_earlier (before_singleton _ _)).not_goesFrom howns hgoes
  · have howns := hno.returned i hi
    rcases goesFrom_fork hgoes with hfrom | hgoes | hgoes
    · exact hentry.not_owns hfrom (Nat.le_add_right_of_le (Nat.le_succ _)) howns
    · exact (hyes.avoids_later (before_singleton _ _) (Nat.le_refl _)).not_goesFrom howns hgoes
    · exact hn i hi hgoes

/-- A loop with a settled body is settled. Where the edges back count, the body has to end
somewhere, since else they start where the function is left. -/
theorem Settled.cycle {label : String} (hb : b.Settled strict) (hends : strict = true → b.ends ≠ [])
    (hentry : Before entry next) (hbody : b.Placed (next + 1) [⟨next, label⟩]) :
    ((vertex next v entry).cycle next b).Settled strict := by
  intro i hi hgoes
  have howns := hbody.returned i hi
  rcases goesFrom_cycle hends hgoes with hfrom | rfl | hgoes
  · exact hentry.not_owns hfrom (Nat.le_succ _) howns
  · exact absurd howns.1 (Nat.not_succ_le_self _)
  · exact hb i hi hgoes

/-- A multiway branch with settled cases is settled. -/
theorem Settled.select {label : String} {own : List Exit} (hc : c.Settled strict)
    (hown : ∀ s ∈ sources own, s = next) (hentry : Before entry next)
    (hcases : c.Placed (next + 1) [⟨next, label⟩]) :
    ((vertex next v entry).select c own).Settled strict := by
  intro i hi hgoes
  have howns := hcases.returned i hi
  rcases goesFrom_select hown hgoes with hfrom | rfl | hgoes
  · exact hentry.not_owns hfrom (Nat.le_succ _) howns
  · exact absurd howns.1 (Nat.not_succ_le_self _)
  · exact hc i hi hgoes

/-- Settled cases beside each other are settled. -/
theorem Settled.alongside {relabelled : List Exit} (hf : f.Settled strict) (hg : g.Settled strict)
    (hentry : Before entry next) (hsame : sources relabelled = sources entry)
    (hfirst : f.Placed next relabelled) (hrest : g.Placed (next + f.vertices.length) entry) :
    (f.alongside g).Settled strict := by
  intro i hi hgoes
  rcases List.mem_append.mp hi with hi | hi
  · rcases goesFrom_alongside hgoes with hgoes | hgoes
    · exact hf i hi hgoes
    · exact (hrest.avoids_earlier hentry).not_goesFrom (hfirst.returned i hi) hgoes
  · have hrelabelled : Before relabelled next := fun s hs => hentry s (hsame ▸ hs)
    have hapart : f.Avoids g (next + f.vertices.length) :=
      hfirst.avoids_later hrelabelled (Nat.le_refl _)
    rcases goesFrom_alongside hgoes with hgoes | hgoes
    · exact hapart.not_goesFrom (hrest.returned i hi) hgoes
    · exact hg i hi hgoes

end Flow.Fragment

namespace Outline

variable {text : Range → String} {p : Part} {next : Nat} {entry : List Exit} {f : Fragment}
  {strict : Bool}

/-- A straight run is settled: it has no ends if it leaves the function. -/
theorem settled_runFragment (hentry : Before entry next) (r : Run) :
    (runFragment text r next entry).Settled strict := by
  unfold runFragment
  cases r.returns with
  | false => exact settled_vertex
  | true =>
      intro i hi hgoes
      obtain rfl : i = next := List.mem_singleton.mp hi
      rcases hgoes with hends | ⟨e, he, rfl, _⟩
      · cases hends
      · exact Nat.lt_irrefl _ (hentry _ (mem_connect he).1)

/-- From where the function is left, control goes on at most back to a loop, and if every
loop can go round, not even that. -/
theorem Emits.settled {o : Outline p} (hf : Emits text o next entry f) (ho : o.unguarded = true)
    (hloops : strict = true → o.all goesRound = true) (hentry : Before entry next) :
    f.Settled strict := by
  induction hf with
  | done | absent | unreached | noCase => exact nofun
  | @run r rest next entry g _ hrest ih =>
      refine (settled_runFragment hentry r).andThen (ih ho hloops fun j hj => ?_) hentry
        (placed_runFragment r) (by simpa using hrest.placed)
      simpa using (owns_ends_runFragment r j hj).2
  | step _ hfirst hrest ihFirst ihRest =>
      simp only [unguarded, all, Bool.and_eq_true, imp_and] at ho hloops
      refine (ihFirst ho.1 hloops.1 hentry).andThen (ihRest ho.2 hloops.2 fun j hj => ?_) hentry
        hfirst.placed hrest.placed
      exact hentry.after (hfirst.placed.ends j hj)
  | nested _ ih =>
      simp only [unguarded, all, Bool.and_eq_true, imp_and] at ho hloops
      exact ih ho.2 hloops.2 hentry
  | branch hyes hno ihYes ihNo =>
      simp only [unguarded, all, Bool.and_eq_true, imp_and] at ho hloops
      refine (ihYes ho.1.2 hloops.1.2 (before_singleton _ _)).fork (ihNo ho.2 hloops.2 ?_) hentry
        hyes.placed hno.placed
      exact (before_singleton _ _).mono (Nat.le_add_right _ _)
  | choice hyes hno | ternary hyes hno =>
      -- The function is not left inside an operand.
      have hy := (hyes.foretells (by simp)).returned.mpr (mayReturn_operand _)
      have hn := (hno.foretells (by simp)).returned.mpr (mayReturn_operand _)
      intro i hi
      simp [fork, hy, hn] at hi
  | loop hbody ih =>
      simp only [unguarded, all, Bool.and_eq_true, imp_and] at ho hloops
      have hends (hstrict : strict = true) :=
        mt (hbody.foretells (by simp)).ends.mp (by simpa [goesRound] using hloops.1 hstrict)
      exact (ih ho.2 hloops.2 (before_singleton _ _)).cycle hends hentry hbody.placed
  | switch hcases ih =>
      simp only [unguarded, all, Bool.and_eq_true, imp_and] at ho hloops
      exact (ih ho.2 hloops.2 (before_singleton _ _)).select (fun s => mem_sources_switchEnds)
        hentry hcases.placed
  | guarded | noHandler | «catch» => cases ho
  | @case kind caption d test body rest next entry b r hcaption hbody hrest ihBody ihRest =>
      simp only [unguarded, all, Bool.and_eq_true, imp_and] at ho hloops
      have hplaced : r.Placed (next + ((decisionFragment text caption d next
          (caseEntry text test entry)).andThen b).vertices.length) entry := by
        rw [length_andThen, ← Nat.add_assoc]
        exact hrest.placed
      have hcase : ((decisionFragment text caption d next
          (caseEntry text test entry)).andThen b).Settled strict :=
        settled_vertex.andThen (ihBody ho.1 hloops.1 (before_singleton _ _))
          (before_caseEntry hentry test) (placed_vertex _) hbody.placed
      refine hcase.alongside (ihRest ho.2 hloops.2 ?_) hentry (sources_caseEntry text test entry)
        ((placed_vertex _).andThen hbody.placed) hplaced
      exact hentry.mono (Nat.le_add_right_of_le (Nat.le_succ _))
  | leaf => exact settled_vertex

/-- What a list of statements is outlined as has a guarded construct only if one of the
statements is guarded. -/
theorem unguarded_ofStatements {ts : List Tree}
    (hguards : ∀ s, Tree.StatementOf ts s → s.kind ≠ .guarded) :
    (ofStatements none ts).unguarded = true := by
  refine Tree.all_of_outlined (Tree.outlined_statements ts) (by simp) fun s c hs hopens => ?_
  cases hopens with
  | guarded hkind => exact absurd hkind (hguards s hs)
  | _ => rfl

/-- Loops whose bodies can be carried out to the end can go round. -/
theorem goesRound_ofStatements {ts : List Tree}
    (hloops : ∀ s, Tree.StatementOf ts s → Tree.GoesRound text s) :
    (ofStatements none ts).all goesRound = true := by
  refine Tree.all_of_outlined (Tree.outlined_statements ts) (by simp) fun s c hs hopens => ?_
  cases hopens with
  | @loop style hcaption =>
      obtain ⟨n, w, hexec⟩ := hloops s hs _ hcaption (Tree.isLoop_caption style)
      exact (Tree.executes_statements_iff.mp hexec).completes
  | _ => rfl

end Outline

namespace Flow.Graph

variable {source : Bytes} {t : Tree} {g : Graph} {body : Fragment} {u i : Nat}
  {ids rest path : List Nat} {out : Outcome}

/-- Where the function is left, a path goes to the exit. -/
def Stops (returned : List Nat) (exit : Nat) (path : List Nat) : Prop :=
  path.IsChain fun i j => i ∈ returned → j = exit

instance (returned : List Nat) (exit : Nat) (path : List Nat) :
    Decidable (Stops returned exit path) :=
  inferInstanceAs (Decidable (path.IsChain fun i j => i ∈ returned → j = exit))

/-- A way through the body, with the exit behind it. -/
theorem isChain_of_way (hkept : ∀ s ∈ body.outlets, Joins (close body).edges s (exitId body))
    (hway : body.Way u ids out) :
    (u :: (ids ++ [exitId body])).IsChain (Joins (close body).edges) := by
  have hinner {a b : Nat} (hjoins : Joins body.edges a b) : Joins (close body).edges a b :=
    hjoins.mono (List.subset_append_left _ _)
  induction hway with
  | stop hs =>
      have hexit := hkept _ (mem_outlets.mpr (.inl hs))
      exact List.isChain_cons_cons.mpr ⟨hexit, .singleton _⟩
  | leave hjoins hi =>
      have hexit := hkept _ (mem_outlets.mpr (.inr hi))
      exact List.isChain_cons_cons.mpr ⟨hinner hjoins,
        List.isChain_cons_cons.mpr ⟨hexit, .singleton _⟩⟩
  | step hjoins _ _ ih => exact List.isChain_cons_cons.mpr ⟨hinner hjoins, ih⟩

/-- A way through the body meets a place where the function is left only as its last vertex. -/
theorem stops_of_way (hway : body.Way u ids out) (hu : u ∉ body.returned) :
    Stops body.returned (exitId body) (u :: (ids ++ [exitId body])) := by
  induction hway with
  | stop => exact List.isChain_cons_cons.mpr ⟨fun _ => rfl, .singleton _⟩
  | leave =>
      exact List.isChain_cons_cons.mpr ⟨fun h => absurd h hu,
        List.isChain_cons_cons.mpr ⟨fun _ => rfl, .singleton _⟩⟩
  | step _ hi _ ih => exact List.isChain_cons_cons.mpr ⟨fun h => absurd h hu, ih hi⟩

/-- An edge of a graph that does not lead to the exit is one of the body. -/
theorem joins_body (hjoins : Joins (close body).edges u i) (hi : i ≠ exitId body) :
    Joins body.edges u i := by
  obtain ⟨e, he, hsource, htarget⟩ := hjoins
  rcases mem_edges_close he with he | ⟨_, hexit⟩
  · exact ⟨e, he, hsource, htarget⟩
  · exact absurd (htarget.symm.trans hexit) hi

section

variable (hbody : BodyOf source t body)
include hbody

/-- Nothing leads on from the exit. -/
theorem eq_nil_of_isChain_exit
    (hchain : (exitId body :: rest).IsChain (Joins (close body).edges)) : rest = [] := by
  cases rest with
  | nil => rfl
  | cons i rest =>
      obtain ⟨e, he, hsource, _⟩ := (List.isChain_cons_cons.mp hchain).1
      have hlt := (bounds_of_mem_edges hbody he).1
      exact absurd hsource (Nat.ne_of_lt hlt)

/-- A path to the exit that goes nowhere else from where the function is left is a way
through the body. -/
theorem way_of_isChain (hchain : (u :: rest).IsChain (Joins (close body).edges))
    (hlast : (u :: rest).getLast? = some (exitId body))
    (hstops : Stops body.returned (exitId body) (u :: rest)) (hexit : u ≠ exitId body)
    (hu : u ∉ body.returned) :
    ∃ ids out, body.Way u ids out ∧ rest = ids ++ [exitId body] := by
  induction rest generalizing u with
  | nil => exact absurd (by simpa using hlast) hexit
  | cons i rest ih =>
      obtain ⟨hjoins, hchain⟩ := List.isChain_cons_cons.mp hchain
      obtain ⟨_, hstops⟩ := List.isChain_cons_cons.mp hstops
      rw [List.getLast?_cons_cons] at hlast
      by_cases hi : i = exitId body
      · subst hi
        obtain rfl := eq_nil_of_isChain_exit hbody hchain
        have hend := (joins_exit_iff hbody).mp hjoins
        exact ⟨[], .goesOn, .stop ((mem_outlets.mp hend.1).resolve_right hu), rfl⟩
      · have hstep := joins_body hjoins hi
        by_cases hreturned : i ∈ body.returned
        · -- Where the function is left, one more step is made, to the exit.
          cases rest with
          | nil => exact absurd (by simpa using hlast) hi
          | cons j rest =>
              obtain rfl := (List.isChain_cons_cons.mp hstops).1 hreturned
              obtain rfl := eq_nil_of_isChain_exit hbody (List.isChain_cons_cons.mp hchain).2
              exact ⟨[i], .leaves, .leave hstep hreturned, rfl⟩
        · obtain ⟨ids, out, hway, rfl⟩ := ih hchain hlast hstops hi hreturned
          exact ⟨i :: ids, out, .step hstep hreturned hway, rfl⟩

/-- Without a guarded statement, everything that the body leaves open has its edge to the exit. -/
theorem joins_exit_of_unguarded (hguards : (Outline.ofFunction t).unguarded = true) :
    ∀ s ∈ body.outlets, Joins (close body).edges s (exitId body) := by
  intro s hs
  refine (joins_exit_iff hbody).mpr ⟨hs, ?_⟩
  rintro rfl
  exact Outline.laid_eq_zero_of_passes hguards ((entry_mem_outlets_iff hbody).mp hs)

/-- The routes from the entry to the exit that stop where the function is left are the
ways through the body. -/
theorem route_iff_way (hguards : (Outline.ofFunction t).unguarded = true) :
    Route (close body).edges 0 (exitId body) path ∧ Stops body.returned (exitId body) path ↔
      ∃ ids out, body.Way 0 ids out ∧ path = 0 :: (ids ++ [exitId body]) := by
  have hentry : 0 ∉ body.returned := fun h => absurd (hbody.placed.returned 0 h).1 (by omega)
  constructor
  · rintro ⟨⟨hchain, hhead, hlast⟩, hstops⟩
    cases path with
    | nil => cases hhead
    | cons u rest =>
        obtain rfl : u = 0 := by simpa using hhead
        obtain ⟨ids, out, hway, rfl⟩ := way_of_isChain hbody hchain hlast hstops
          (by unfold exitId; omega) hentry
        exact ⟨ids, out, hway, rfl⟩
  · rintro ⟨ids, out, hway, rfl⟩
    have hchain := isChain_of_way (joins_exit_of_unguarded hbody hguards) hway
    exact ⟨⟨hchain, rfl, by simp [List.getLast?_cons]⟩, stops_of_way hway hentry⟩

end

/-- If control does not go on from where the function is left, every route stops there. -/
theorem stops_of_settled (hsettled : body.Settled true)
    (hchain : path.IsChain (Joins (close body).edges)) :
    Stops body.returned (exitId body) path := by
  refine hchain.imp fun i j hjoins hi => ?_
  by_contra hj
  obtain ⟨e, he, hsource, _⟩ := joins_body hjoins hj
  exact hsettled i hi (.inr ⟨e, he, hsource, .inl rfl⟩)

/-- From where the function is left, edges lead to the exit or back to a loop. -/
theorem loops_of_settled (hsettled : body.Settled false) {e : Edge} (he : e ∈ (close body).edges)
    (hreturned : e.source ∈ body.returned) : e.target = exitId body ∨ e.label = loopLabel := by
  rcases mem_edges_close he with he | ⟨_, hexit⟩
  · by_contra hnot
    exact hsettled _ hreturned (.inr ⟨e, he, rfl, .inr fun h => hnot (.inr h)⟩)
  · exact .inl hexit

/-- In the graph of a function without guarded statements, the executions of the body,
with the entry before and the exit behind, are the routes from the entry to the exit
that stop where the function is left. From there a route could go on only back to a
loop; if every loop can go round, no route does. What an execution meets is in the
graph. -/
theorem executions_are_routes (hg : ofFunction source t = .ok g)
    (hguards : ∀ s, Tree.StatementOf (Tree.asStatements t.body) s → s.kind ≠ .guarded) :
    ∃ body, (Outline.ofFunction t).emit (Range.text source) 1 [⟨0, ""⟩] = .ok body ∧
      g = close body ∧
      (∀ w, t.Execution source w → w ⊆ g.vertices) ∧
      (∀ path, Route g.edges 0 (exitId body) path ∧ Stops body.returned (exitId body) path ↔
        ∃ w, t.Execution source w ∧ path = 0 :: (w.map (·.1) ++ [exitId body])) ∧
      (∀ e ∈ g.edges, e.source ∈ body.returned → e.target = exitId body ∨ e.label = loopLabel) ∧
      ((∀ s, Tree.StatementOf (Tree.asStatements t.body) s → s.GoesRound (Range.text source)) →
        ∀ path, Route g.edges 0 (exitId body) path →
          Stops body.returned (exitId body) path) := by
  obtain ⟨body, hbody, rfl⟩ := ofFunction_eq_ok_iff.mp hg
  have houtline : Outline.ofFunction t = Outline.ofStatements none (Tree.asStatements t.body) :=
    Outline.ofBody_eq t.body
  have hunguarded : (Outline.ofFunction t).unguarded = true := by
    rw [houtline]
    exact Outline.unguarded_ofStatements hguards
  have hcharts := hbody.charts hunguarded (before_singleton 0 "") (s := 0) (by simp)
  have hcourses (w : List (Nat × Vertex)) : t.Execution source w ↔
      ∃ out, Outline.Course (Range.text source) (Outline.ofFunction t) 1 w out := by
    rw [houtline]
    exact exists_congr fun out => Tree.executes_statements_iff
  refine ⟨body, Outline.emit_eq_ok_of_emits hbody, rfl, fun w hexec => ?_, fun path => ?_,
    fun e he => ?_, fun hloops path hroute => ?_⟩
  · obtain ⟨out, hcourse⟩ := (hcourses w).mp hexec
    have hsubset := hcourse.subset_vertices hbody (by simp)
    exact List.subset_cons_of_subset _ (List.subset_append_of_subset_left _ hsubset)
  · rw [route_iff_way hbody hunguarded]
    constructor
    · rintro ⟨ids, out, hway, rfl⟩
      obtain ⟨w, hcourse, rfl⟩ := (hcharts ids out).mp hway
      exact ⟨w, (hcourses w).mpr ⟨out, hcourse⟩, rfl⟩
    · rintro ⟨w, hexec, rfl⟩
      obtain ⟨out, hcourse⟩ := (hcourses w).mp hexec
      exact ⟨_, out, (hcharts _ out).mpr ⟨w, hcourse, rfl⟩, rfl⟩
  · exact loops_of_settled (hbody.settled hunguarded nofun (before_singleton 0 "")) he
  · have hround : (Outline.ofFunction t).all Outline.goesRound = true := by
      rw [houtline]
      exact Outline.goesRound_ofStatements hloops
    have hsettled : body.Settled true :=
      hbody.settled hunguarded (fun _ => hround) (before_singleton 0 "")
    exact stops_of_settled hsettled hroute.chain

/-- A loop that may leave the function, and then a statement. -/
def searchLoop : Tree :=
  Sketch.function [Sketch.loop [Sketch.branch [Sketch.leave] []], Sketch.statement]

theorem searchLoop_unguarded :
    ∀ s, Tree.StatementOf (Tree.asStatements searchLoop.body) s → s.kind ≠ .guarded := by
  have hnone : ∀ s, Tree.StatementOf [] s → s.kind ≠ .guarded :=
    fun s hs => absurd hs Tree.not_statementOf_nil
  have hbranch : ∀ s, Tree.StatementOf [Sketch.branch [Sketch.leave] []] s → s.kind ≠ .guarded :=
    Tree.forall_statementOf_cons.mpr
      ⟨by decide, Tree.forall_statementOf_cons.mpr ⟨by decide, hnone, hnone⟩, hnone⟩
  exact Tree.forall_statementOf_cons.mpr
    ⟨by decide, hbranch, Tree.forall_statementOf_cons.mpr ⟨by decide, hnone, hnone⟩⟩

/-- Twice round the loop, and the function is left in the second round. -/
theorem searchLoop_executes :
    ∃ w, searchLoop.Execution [] w ∧ w.map (·.1) = [1, 2, 1, 2, 3] := by
  have hg : ofFunction [] searchLoop = .ok _ := rfl
  obtain ⟨body, hemit, _, _, hroutes, _⟩ := executions_are_routes hg searchLoop_unguarded
  obtain rfl := Except.ok.inj (hemit.symm.trans rfl)
  obtain ⟨w, hexec, hpath⟩ := (hroutes [0, 1, 2, 1, 2, 3, 5]).mp (by decide)
  have hids : [1, 2, 1, 2, 3] = w.map (·.1) :=
    List.append_inj_left' (List.cons.inj hpath).2 rfl
  exact ⟨w, hexec, hids.symm⟩

end Flow.Graph

end Cyclomatic
