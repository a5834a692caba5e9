import Cyclomatic.Proofs.Flow.Ways

/-! # Courses of an outline

A course is what control meets when a part of an outline is carried out once:
every straight run and every decision on the way, with the number each of them
has in a graph. The courses of an outline without guarded parts are the ways
through the fragment that it is laid down as.
-/

namespace Cyclomatic

open Cyclomatic.Flow Cyclomatic.Flow.Fragment

namespace Outline

/-- The courses of a part whose first vertex has the given number. -/
inductive Course (text : Range → String) :
    {p : Part} → Outline p → Nat → List (Nat × Vertex) → Outcome → Prop
  | done {next} : Course text .done next [] .goesOn
  | runOn {r rest next w out} (hreturns : r.returns = false)
      (hrest : Course text rest (next + 1) w out) :
      Course text (.run r rest) next ((next, blockVertex text r) :: w) out
  | runOff {r rest next} (hreturns : r.returns = true) :
      Course text (.run r rest) next [(next, blockVertex text r)] .leaves
  | stepOn {line construct rest next w w' out} (hfirst : Course text construct next w .goesOn)
      (hrest : Course text rest (next + construct.laid) w' out) :
      Course text (.step line construct rest) next (w ++ w') out
  | stepOff {line construct rest next w} (hfirst : Course text construct next w .leaves) :
      Course text (.step line construct rest) next w .leaves
  | nested {inner next w out} (hinner : Course text inner next w out) :
      Course text (.nested inner) next w out
  | branchYes {d yes no next w out} (hyes : Course text yes (next + 1) w out) :
      Course text (.branch d yes no) next ((next, decisionVertex text .branch d) :: w) out
  | branchNo {d yes no next w out} (hno : Course text no (next + 1 + yes.laid) w out) :
      Course text (.branch d yes no) next ((next, decisionVertex text .branch d) :: w) out
  | loopOn {style d body next rounds}
      (hrounds : ∀ round ∈ rounds, Course text body (next + 1) round .goesOn) :
      Course text (.loop style d body) next
        ((next, decisionVertex text style.caption d) ::
          laps (next, decisionVertex text style.caption d) rounds) .goesOn
  | loopOff {style d body next rounds last}
      (hrounds : ∀ round ∈ rounds, Course text body (next + 1) round .goesOn)
      (hlast : Course text body (next + 1) last .leaves) :
      Course text (.loop style d body) next
        ((next, decisionVertex text style.caption d) ::
          (laps (next, decisionVertex text style.caption d) rounds ++ last)) .leaves
  | choiceYes {d yes no next w out} (hyes : Course text yes (next + 1) w out) :
      Course text (.choice d yes no) next ((next, decisionVertex text .ternary d) :: w) out
  | choiceNo {d yes no next w out} (hno : Course text no (next + 1 + yes.laid) w out) :
      Course text (.choice d yes no) next ((next, decisionVertex text .ternary d) :: w) out
  | switchCase {d cases next w out} (hcases : Course text cases (next + 1) w out) :
      Course text (.switch d cases) next ((next, decisionVertex text .switch d) :: w) out
  | switchNone {d cases next} (htested : allTested cases = true) :
      Course text (.switch d cases) next [(next, decisionVertex text .switch d)] .goesOn
  | caseHere {kind caption d test body rest next w out} (hcaption : captionOf kind = .ok caption)
      (hbody : Course text body (next + 1) w out) :
      Course text (.case kind d test body rest) next
        ((next, decisionVertex text caption d) :: w) out
  | caseLater {kind d test body rest next w out}
      (hrest : Course text rest (next + 1 + body.laid) w out) :
      Course text (.case kind d test body rest) next w out
  | absent {next} : Course text .absent next [] .goesOn
  | leaf {site next} :
      Course text (.leaf site) next [(next, .operand site (text site.range))] .goesOn
  | ternaryYes {d yes no next w out} (hyes : Course text yes (next + 1) w out) :
      Course text (.ternary d yes no) next ((next, decisionVertex text .ternary d) :: w) out
  | ternaryNo {d yes no next w out} (hno : Course text no (next + 1 + yes.laid) w out) :
      Course text (.ternary d yes no) next ((next, decisionVertex text .ternary d) :: w) out

/-- A course of a decision with two sides: its vertex, and then a course of one side. -/
def CourseOfSides {p : Part} (text : Range → String) (v : Vertex) (yes no : Outline p) (next : Nat)
    (w : List (Nat × Vertex)) (out : Outcome) : Prop :=
  ∃ w', w = (next, v) :: w' ∧
    (Course text yes (next + 1) w' out ∨ Course text no (next + 1 + yes.laid) w' out)

variable {text : Range → String} {p : Part} {next s : Nat} {entry : List Exit} {f y n : Fragment}
  {ids : List Nat} {out : Outcome}

/-- There is one way through a straight run. It ends there if the run leaves the function. -/
theorem way_runFragment_iff (hentry : Before entry next) (hs : s ∈ sources entry) {r : Run} :
    (runFragment text r next entry).Way s ids out ↔
      ids = [next] ∧ out = if r.returns then .leaves else .goesOn := by
  unfold runFragment
  cases r.returns with
  | false => exact way_vertex_iff hentry hs
  | true => exact way_leaving_iff hs

section

variable {w : List (Nat × Vertex)} {d : Decision}

/-- A course of a straight run is the run alone if that leaves the function, and else goes on
through the rest. -/
theorem course_run_iff {r : Run} {rest : Outline .sequence} :
    Course text (.run r rest) next w out ↔
      r.returns = true ∧ w = [(next, blockVertex text r)] ∧ out = .leaves ∨
      r.returns = false ∧ ∃ w', w = (next, blockVertex text r) :: w' ∧
        Course text rest (next + 1) w' out := by
  constructor
  · intro hcourse
    cases hcourse with
    | runOn hreturns hrest => exact .inr ⟨hreturns, _, rfl, hrest⟩
    | runOff hreturns => exact .inl ⟨hreturns, rfl, rfl⟩
  · rintro (⟨hreturns, rfl, rfl⟩ | ⟨hreturns, w', rfl, hrest⟩)
    · exact .runOff hreturns
    · exact .runOn hreturns hrest

/-- A course of a construct and what follows: one through both, or one that leaves the function in
the construct. -/
theorem course_step_iff {line : Int} {construct : Outline .construct} {rest : Outline .sequence} :
    Course text (.step line construct rest) next w out ↔
      (∃ w₁ w₂, w = w₁ ++ w₂ ∧ Course text construct next w₁ .goesOn ∧
        Course text rest (next + construct.laid) w₂ out) ∨
      out = .leaves ∧ Course text construct next w .leaves := by
  constructor
  · intro hcourse
    cases hcourse with
    | stepOn hfirst hrest => exact .inl ⟨_, _, rfl, hfirst, hrest⟩
    | stepOff hfirst => exact .inr ⟨rfl, hfirst⟩
  · rintro (⟨w₁, w₂, rfl, hfirst, hrest⟩ | ⟨rfl, hfirst⟩)
    · exact .stepOn hfirst hrest
    · exact .stepOff hfirst

/-- A course of a branch is its decision and a course of one side. -/
theorem course_branch_iff {yes no : Outline .sequence} :
    Course text (.branch d yes no) next w out ↔
      CourseOfSides text (decisionVertex text .branch d) yes no next w out := by
  constructor
  · intro hcourse
    cases hcourse with
    | branchYes hyes => exact ⟨_, rfl, .inl hyes⟩
    | branchNo hno => exact ⟨_, rfl, .inr hno⟩
  · rintro ⟨w', rfl, hyes | hno⟩
    · exact .branchYes hyes
    · exact .branchNo hno

theorem course_choice_iff {yes no : Outline .operand} :
    Course text (.choice d yes no) next w out ↔
      CourseOfSides text (decisionVertex text .ternary d) yes no next w out := by
  constructor
  · intro hcourse
    cases hcourse with
    | choiceYes hyes => exact ⟨_, rfl, .inl hyes⟩
    | choiceNo hno => exact ⟨_, rfl, .inr hno⟩
  · rintro ⟨w', rfl, hyes | hno⟩
    · exact .choiceYes hyes
    · exact .choiceNo hno

theorem course_ternary_iff {yes no : Outline .operand} :
    Course text (.ternary d yes no) next w out ↔
      CourseOfSides text (decisionVertex text .ternary d) yes no next w out := by
  constructor
  · intro hcourse
    cases hcourse with
    | ternaryYes hyes => exact ⟨_, rfl, .inl hyes⟩
    | ternaryNo hno => exact ⟨_, rfl, .inr hno⟩
  · rintro ⟨w', rfl, hyes | hno⟩
    · exact .ternaryYes hyes
    · exact .ternaryNo hno

/-- A course of a loop comes back to the decision after each round. It ends there, or in a last
round that leaves the function. -/
theorem course_loop_iff {style : Loop} {body : Outline .sequence} :
    Course text (.loop style d body) next w out ↔
      ∃ rounds last, w = (next, decisionVertex text style.caption d) ::
          (laps (next, decisionVertex text style.caption d) rounds ++ last) ∧
        (∀ round ∈ rounds, Course text body (next + 1) round .goesOn) ∧
        (last = [] ∧ out = .goesOn ∨ out = .leaves ∧ Course text body (next + 1) last .leaves) := by
  constructor
  · intro hcourse
    cases hcourse with
    | loopOn hrounds => exact ⟨_, [], by simp, hrounds, .inl ⟨rfl, rfl⟩⟩
    | loopOff hrounds hlast => exact ⟨_, _, rfl, hrounds, .inr ⟨rfl, hlast⟩⟩
  · rintro ⟨rounds, last, rfl, hrounds, ⟨rfl, rfl⟩ | ⟨rfl, hlast⟩⟩
    · rw [List.append_nil]
      exact .loopOn hrounds
    · exact .loopOff hrounds hlast

/-- A course of a multiway branch goes through its cases, or past them if each has a test. -/
theorem course_switch_iff {cases : Outline .cases} :
    Course text (.switch d cases) next w out ↔
      ∃ w', w = (next, decisionVertex text .switch d) :: w' ∧
        (Course text cases (next + 1) w' out ∨
          w' = [] ∧ allTested cases = true ∧ out = .goesOn) := by
  constructor
  · intro hcourse
    cases hcourse with
    | switchCase hcases => exact ⟨_, rfl, .inl hcases⟩
    | switchNone htested => exact ⟨_, rfl, .inr ⟨rfl, htested, rfl⟩⟩
  · rintro ⟨w', rfl, hcases | ⟨rfl, htested, rfl⟩⟩
    · exact .switchCase hcases
    · exact .switchNone htested

/-- A course of a case and the later ones is the case and a course of its body, or a course of the
later ones. -/
theorem course_case_iff {kind : Kind} {caption : Caption} {test : Option Range}
    {body : Outline .sequence} {rest : Outline .cases} (hcaption : captionOf kind = .ok caption) :
    Course text (.case kind d test body rest) next w out ↔
      (∃ w', w = (next, decisionVertex text caption d) :: w' ∧ Course text body (next + 1) w' out) ∨
      Course text rest (next + 1 + body.laid) w out := by
  constructor
  · intro hcourse
    cases hcourse with
    | caseHere hcaption' hbody =>
        obtain rfl := Except.ok.inj (hcaption'.symm.trans hcaption)
        exact .inl ⟨_, rfl, hbody⟩
    | caseLater hrest => exact .inr hrest
  · rintro (⟨w', rfl, hbody⟩ | hrest)
    · exact .caseHere hcaption hbody
    · exact .caseLater hrest

end

/-- The ways through a fragment from a vertex are the courses of an outline. -/
def Charts (text : Range → String) (o : Outline p) (next : Nat) (f : Fragment) (s : Nat) : Prop :=
  ∀ ids out, f.Way s ids out ↔ ∃ w, Course text o next w out ∧ w.map (·.1) = ids

namespace Charts

variable {b c g : Fragment} {d : Decision} {v : Vertex}

/-- Two alternatives below a vertex. -/
theorem fork {q : Part} {o : Outline q} {yes no : Outline p}
    (hy : Charts text yes (next + 1) y next) (hn : Charts text no (next + 1 + yes.laid) n next)
    (hcourse : ∀ w out, Course text o next w out ↔ CourseOfSides text v yes no next w out)
    (hway : ∀ ids out, f.Way s ids out ↔
      ∃ rest, ids = next :: rest ∧ (y.Way next rest out ∨ n.Way next rest out)) :
    Charts text o next f s := by
  intro ids out
  rw [hway]
  constructor
  · rintro ⟨rest, rfl, hrest | hrest⟩
    · obtain ⟨w, hw, rfl⟩ := (hy rest out).mp hrest
      exact ⟨_, (hcourse _ out).mpr ⟨w, rfl, .inl hw⟩, rfl⟩
    · obtain ⟨w, hw, rfl⟩ := (hn rest out).mp hrest
      exact ⟨_, (hcourse _ out).mpr ⟨w, rfl, .inr hw⟩, rfl⟩
  · rintro ⟨w, hw, rfl⟩
    obtain ⟨w', rfl, hw | hw⟩ := (hcourse w out).mp hw
    · exact ⟨_, rfl, .inl ((hy _ out).mpr ⟨w', hw, rfl⟩)⟩
    · exact ⟨_, rfl, .inr ((hn _ out).mpr ⟨w', hw, rfl⟩)⟩

/-- A construct and what follows it are charted if each is, the rest from wherever control goes
on. -/
theorem step {line : Int} {construct : Outline .construct} {rest : Outline .sequence}
    (hfirst : Charts text construct next f s)
    (hrest : ∀ i ∈ sources f.ends, Charts text rest (next + construct.laid) g i)
    (hway : ∀ ids out, (f.andThen g).Way s ids out ↔
      (∃ front rest, ids = front ++ rest ∧ f.Way s front .goesOn ∧
        g.Way (lastFrom s front) rest out) ∨ out = .leaves ∧ f.Way s ids .leaves) :
    Charts text (.step line construct rest) next (f.andThen g) s := by
  intro ids out
  rw [hway]
  constructor
  · rintro (⟨front, rest, rfl, hfront, hback⟩ | ⟨rfl, hleaves⟩)
    · obtain ⟨w₂, hw₂, rfl⟩ := (hrest _ hfront.last_mem rest out).mp hback
      obtain ⟨w₁, hw₁, rfl⟩ := (hfirst front .goesOn).mp hfront
      exact ⟨w₁ ++ w₂, .stepOn hw₁ hw₂, List.map_append⟩
    · obtain ⟨w, hw, rfl⟩ := (hfirst ids .leaves).mp hleaves
      exact ⟨w, .stepOff hw, rfl⟩
  · rintro ⟨w, hw, rfl⟩
    rcases course_step_iff.mp hw with ⟨w₁, w₂, rfl, hw₁, hw₂⟩ | ⟨rfl, hleaves⟩
    · have hfront := (hfirst _ .goesOn).mpr ⟨w₁, hw₁, rfl⟩
      have hback := (hrest _ hfront.last_mem _ out).mpr ⟨w₂, hw₂, rfl⟩
      exact .inl ⟨_, _, List.map_append, hfront, hback⟩
    · exact .inr ⟨rfl, (hfirst _ .leaves).mpr ⟨w, hleaves, rfl⟩⟩

/-- A straight run and what follows it are charted if the rest is. Nothing needs to be known of the
rest if the run leaves the function. -/
theorem run {r : Run} {rest : Outline .sequence} (hentry : Before entry next)
    (hs : s ∈ sources entry) (hrest : r.returns = false → Charts text rest (next + 1) g next)
    (hway : ∀ ids out, ((runFragment text r next entry).andThen g).Way s ids out ↔
      (∃ front rest, ids = front ++ rest ∧ (runFragment text r next entry).Way s front .goesOn ∧
        g.Way (lastFrom s front) rest out) ∨
      out = .leaves ∧ (runFragment text r next entry).Way s ids .leaves) :
    Charts text (.run r rest) next ((runFragment text r next entry).andThen g) s := by
  intro ids out
  rw [hway]
  simp only [way_runFragment_iff hentry hs, course_run_iff]
  cases hreturns : r.returns with
  | false =>
      constructor
      · rintro (⟨front, rest, rfl, ⟨rfl, _⟩, hback⟩ | ⟨_, _, h⟩)
        · obtain ⟨w, hw, rfl⟩ := (hrest hreturns rest out).mp hback
          exact ⟨_, .inr ⟨rfl, w, rfl, hw⟩, rfl⟩
        · cases h
      · rintro ⟨w, ⟨h, _⟩ | ⟨_, w', rfl, hw⟩, rfl⟩
        · cases h
        · exact .inl ⟨[next], _, rfl, ⟨rfl, rfl⟩, (hrest hreturns _ out).mpr ⟨w', hw, rfl⟩⟩
  | true =>
      constructor
      · rintro (⟨_, _, _, ⟨_, h⟩, _⟩ | ⟨rfl, rfl, _⟩)
        · cases h
        · exact ⟨_, .inl ⟨rfl, rfl, rfl⟩, rfl⟩
      · rintro ⟨w, ⟨_, rfl, rfl⟩ | ⟨h, _⟩, rfl⟩
        · exact .inr ⟨rfl, rfl, rfl⟩
        · cases h

/-- Rounds through a fragment, and the rounds of courses they are. -/
theorem rounds {body : Outline .sequence} {m : Nat} (hb : Charts text body m b s)
    {rounds : List (List Nat)} : (∀ round ∈ rounds, b.Way s round .goesOn) ↔
      ∃ trails : List (List (Nat × Vertex)), (∀ w ∈ trails, Course text body m w .goesOn) ∧
        trails.map (·.map (·.1)) = rounds := by
  constructor
  · intro hrounds
    induction rounds with
    | nil => exact ⟨[], nofun, rfl⟩
    | cons round rounds ih =>
        obtain ⟨hround, hothers⟩ := List.forall_mem_cons.mp hrounds
        obtain ⟨w, hw, rfl⟩ := (hb round .goesOn).mp hround
        obtain ⟨trails, htrails, rfl⟩ := ih hothers
        exact ⟨w :: trails, List.forall_mem_cons.mpr ⟨hw, htrails⟩, rfl⟩
  · rintro ⟨trails, htrails, rfl⟩ round hround
    obtain ⟨w, hw, rfl⟩ := List.mem_map.mp hround
    exact (hb _ .goesOn).mpr ⟨w, htrails w hw, rfl⟩

/-- A loop is charted if its body is: rounds of the one are rounds of the other. -/
theorem loop {style : Loop} {body : Outline .sequence} (hb : Charts text body (next + 1) b next)
    (hway : ∀ ids out, f.Way s ids out ↔ ∃ rounds last, ids = next :: (laps next rounds ++ last) ∧
      (∀ round ∈ rounds, b.Way next round .goesOn) ∧
      (last = [] ∧ out = .goesOn ∨ out = .leaves ∧ b.Way next last .leaves)) :
    Charts text (.loop style d body) next f s := by
  intro ids out
  rw [hway]
  constructor
  · rintro ⟨rounds, last, rfl, hrounds, hend⟩
    obtain ⟨trails, htrails, rfl⟩ := hb.rounds.mp hrounds
    rcases hend with ⟨rfl, rfl⟩ | ⟨rfl, hlast⟩
    · refine ⟨_, .loopOn htrails, ?_⟩
      rw [List.map_cons, map_laps, List.append_nil]
    · obtain ⟨w, hw, rfl⟩ := (hb last .leaves).mp hlast
      refine ⟨_, .loopOff htrails hw, ?_⟩
      rw [List.map_cons, List.map_append, map_laps]
  · rintro ⟨w, hw, rfl⟩
    obtain ⟨trails, last, rfl, htrails, hend⟩ := course_loop_iff.mp hw
    refine ⟨trails.map (·.map (·.1)), last.map (·.1), ?_, hb.rounds.mpr ⟨trails, htrails, rfl⟩, ?_⟩
    · rw [List.map_cons, List.map_append, map_laps]
    · rcases hend with ⟨rfl, rfl⟩ | ⟨rfl, hlast⟩
      · exact .inl ⟨rfl, rfl⟩
      · exact .inr ⟨rfl, (hb _ .leaves).mpr ⟨last, hlast, rfl⟩⟩

/-- A multiway branch is charted if its cases are. -/
theorem switch {cases : Outline .cases} (hc : Charts text cases (next + 1) c next)
    (hway : ∀ ids out, f.Way s ids out ↔ ∃ rest, ids = next :: rest ∧
      (c.Way next rest out ∨ rest = [] ∧ next ∈ sources (switchEnds cases next) ∧ out = .goesOn)) :
    Charts text (.switch d cases) next f s := by
  have hown : next ∈ sources (switchEnds cases next) ↔ allTested cases = true := by
    unfold switchEnds
    split <;> simp_all
  intro ids out
  rw [hway, hown]
  constructor
  · rintro ⟨rest, rfl, hrest | ⟨rfl, htested, rfl⟩⟩
    · obtain ⟨w, hw, rfl⟩ := (hc rest out).mp hrest
      exact ⟨_, .switchCase hw, rfl⟩
    · exact ⟨_, .switchNone htested, rfl⟩
  · rintro ⟨w, hw, rfl⟩
    obtain ⟨w', rfl, hcases | ⟨rfl, htested, rfl⟩⟩ := course_switch_iff.mp hw
    · exact ⟨_, rfl, .inl ((hc _ out).mpr ⟨w', hcases, rfl⟩)⟩
    · exact ⟨[], rfl, .inr ⟨rfl, htested, rfl⟩⟩

/-- A case and the later ones are charted if its body and they are. -/
theorem case {kind : Kind} {caption : Caption} {test : Option Range} {body : Outline .sequence}
    {rest : Outline .cases} (hcaption : captionOf kind = .ok caption)
    (hb : Charts text body (next + 1) b next)
    (hg : Charts text rest (next + 1 + body.laid) g s)
    (hway : ∀ ids out, f.Way s ids out ↔
      (∃ rest, ids = next :: rest ∧ b.Way next rest out) ∨ g.Way s ids out) :
    Charts text (.case kind d test body rest) next f s := by
  intro ids out
  rw [hway]
  simp only [course_case_iff hcaption]
  constructor
  · rintro (⟨rest, rfl, hbody⟩ | hrest)
    · obtain ⟨w, hw, rfl⟩ := (hb rest out).mp hbody
      exact ⟨_, .inl ⟨w, rfl, hw⟩, rfl⟩
    · obtain ⟨w, hw, rfl⟩ := (hg ids out).mp hrest
      exact ⟨w, .inr hw, rfl⟩
  · rintro ⟨w, ⟨w', rfl, hw⟩ | hw, rfl⟩
    · exact .inl ⟨_, rfl, (hb _ out).mpr ⟨w', hw, rfl⟩⟩
    · exact .inr ((hg _ out).mpr ⟨w, hw, rfl⟩)

end Charts

/-- A vertex and then a fragment that is laid down from it. -/
theorem way_below_iff {v : Vertex} {b : Fragment} (hentry : Before entry next)
    (hs : s ∈ sources entry) (hb : b.Placed (next + 1) [⟨next, ""⟩]) :
    ((vertex next v entry).andThen b).Way s ids out ↔
      ∃ rest, ids = next :: rest ∧ b.Way next rest out := by
  rw [way_andThen_iff hentry (placed_vertex v) hb hs]
  simp only [way_vertex_iff hentry hs]
  constructor
  · rintro (⟨front, rest, rfl, ⟨rfl, _⟩, hrest⟩ | ⟨_, _, h⟩)
    · exact ⟨rest, rfl, hrest⟩
    · cases h
  · rintro ⟨rest, rfl, hrest⟩
    exact .inl ⟨[next], rest, rfl, ⟨rfl, trivial⟩, hrest⟩

/-- The ways through what an outline without guarded parts is laid down as are the
courses of the outline. -/
theorem Emits.charts {o : Outline p} (hf : Emits text o next entry f) (ho : o.unguarded = true)
    (hentry : Before entry next) (hs : s ∈ sources entry) : Charts text o next f s := by
  -- The exit is arbitrary: what follows a part is entered from any of its ends.
  have hbelow (next : Nat) (label : String) : next ∈ sources [⟨next, label⟩] := by simp
  induction hf generalizing s with
  | done | absent =>
      intro ids out
      rw [way_pass_iff hs]
      constructor
      · rintro ⟨rfl, rfl⟩
        exact ⟨[], by constructor, rfl⟩
      · rintro ⟨w, hw, rfl⟩
        cases hw
        exact ⟨rfl, rfl⟩
  | unreached => cases hs
  | @run r rest next entry g _ hrest ih =>
      refine .run hentry hs (fun hreturns => ?_) ?_
      · rw [ends_runFragment hreturns] at ih
        exact ih ho (before_singleton _ _) (hbelow _ _)
      · intro ids out
        exact way_andThen_iff hentry (placed_runFragment r) (by simpa using hrest.placed) hs
  | @step line construct rest next entry f g hne hfirst hrest ihFirst ihRest =>
      simp only [unguarded, all, Bool.and_eq_true] at ho
      -- Courses are numbered by what the outline foretells, fragments by what is laid down.
      have hlaid := (hfirst.foretells hne).length
      refine .step (ihFirst ho.1 hentry hs) (fun i hi => ?_) fun ids out =>
        way_andThen_iff hentry hfirst.placed hrest.placed hs
      rw [← hlaid]
      exact ihRest ho.2 (fun j hj => hentry.after (hfirst.placed.ends j hj)) hi
  | nested _ ih =>
      simp only [unguarded, all, Bool.and_eq_true] at ho
      intro ids out
      rw [ih ho.2 hentry hs]
      constructor
      · rintro ⟨w, hw, rfl⟩
        exact ⟨w, .nested hw, rfl⟩
      · rintro ⟨w, hw, rfl⟩
        cases hw with
        | nested hw => exact ⟨w, hw, rfl⟩
  | branch hyes hno ihYes ihNo =>
      simp only [unguarded, all, Bool.and_eq_true] at ho
      have hlaid := (hyes.foretells (by simp)).length
      refine .fork (ihYes ho.1.2 (before_singleton _ _) (hbelow _ _)) ?_
        (fun w out => course_branch_iff)
        fun ids out => way_fork_iff hentry hs hyes.placed hno.placed
      rw [← hlaid]
      exact ihNo ho.2 ((before_singleton _ _).mono (Nat.le_add_right _ _)) (hbelow _ _)
  | choice hyes hno ihYes ihNo =>
      have hlaid := (hyes.foretells (by simp)).length
      refine .fork (ihYes (unguarded_operand _) (before_singleton _ _) (hbelow _ _)) ?_
        (fun w out => course_choice_iff)
        fun ids out => way_fork_iff hentry hs hyes.placed hno.placed
      rw [← hlaid]
      exact ihNo (unguarded_operand _) ((before_singleton _ _).mono (Nat.le_add_right _ _))
        (hbelow _ _)
  | ternary hyes hno ihYes ihNo =>
      have hlaid := (hyes.foretells (by simp)).length
      refine .fork (ihYes (unguarded_operand _) (before_singleton _ _) (hbelow _ _)) ?_
        (fun w out => course_ternary_iff)
        fun ids out => way_fork_iff hentry hs hyes.placed hno.placed
      rw [← hlaid]
      exact ihNo (unguarded_operand _) ((before_singleton _ _).mono (Nat.le_add_right _ _))
        (hbelow _ _)
  | loop hbody ih =>
      simp only [unguarded, all, Bool.and_eq_true] at ho
      exact .loop (ih ho.2 (before_singleton _ _) (hbelow _ _)) fun ids out =>
        way_cycle_iff hentry hbody.placed hs
  | switch hcases ih =>
      simp only [unguarded, all, Bool.and_eq_true] at ho
      exact .switch (ih ho.2 (before_singleton _ _) (hbelow _ _)) fun ids out =>
        way_select_iff hentry hs hcases.placed fun i => mem_sources_switchEnds
  | guarded | noHandler | «catch» => cases ho
  | noCase =>
      intro ids out
      refine iff_of_false not_way_nothing ?_
      rintro ⟨w, hw, _⟩
      cases hw
  | @case kind caption d test body rest next entry b r hcaption hbody hrest ihBody ihRest =>
      simp only [unguarded, all, Bool.and_eq_true] at ho
      have hlaid := (hbody.foretells (by simp)).length
      have hs' : s ∈ sources (caseEntry text test entry) := by rwa [sources_caseEntry]
      have hlater : Charts text rest (next + 1 + body.laid) r s := by
        rw [← hlaid]
        exact ihRest ho.2 (hentry.mono (Nat.le_add_right_of_le (Nat.le_succ _))) hs
      refine .case hcaption (ihBody ho.1 (before_singleton _ _) (hbelow _ _)) hlater
        fun ids out => ?_
      have hplaced : r.Placed (next + ((decisionFragment text caption d next
          (caseEntry text test entry)).andThen b).vertices.length) entry := by
        rw [length_andThen, ← Nat.add_assoc]
        exact hrest.placed
      exact (way_alongside_iff hentry (sources_caseEntry text test entry)
        ((placed_vertex _).andThen hbody.placed) hplaced).trans
        (or_congr_left (way_below_iff (before_caseEntry hentry test) hs' hbody.placed))
  | leaf =>
      intro ids out
      rw [way_vertex_iff hentry hs]
      constructor
      · rintro ⟨rfl, rfl⟩
        exact ⟨_, .leaf, rfl⟩
      · rintro ⟨w, hw, rfl⟩
        cases hw
        exact ⟨rfl, rfl⟩

/-- Where a course goes on behind a part, the part completes. -/
theorem Course.completes {o : Outline p} {w : List (Nat × Vertex)}
    (hcourse : Course text o next w .goesOn) : o.completes = true := by
  generalize hout : Outcome.goesOn = out at hcourse
  induction hcourse with
  | done | loopOn | choiceYes | choiceNo | absent | leaf | ternaryYes | ternaryNo => rfl
  | runOn hreturns _ ih => simp [Outline.completes, hreturns, ih hout]
  | stepOn _ _ ihFirst ihRest => simp [Outline.completes, ihFirst rfl, ihRest hout]
  | runOff | stepOff | loopOff => cases hout
  | nested _ ih => exact ih hout
  | branchYes _ ih | branchNo _ ih | switchCase _ ih | caseHere _ _ ih | caseLater _ ih =>
      simp [Outline.completes, ih hout]
  | switchNone htested => simp [Outline.completes, htested]

theorem mem_vertices_runFragment (r : Run) :
    (next, blockVertex text r) ∈ (runFragment text r next entry).vertices := by
  unfold runFragment
  split <;> exact List.mem_singleton.mpr rfl

/-- What a course meets has been laid down. -/
theorem Course.subset_vertices {o : Outline p} {w : List (Nat × Vertex)}
    (hcourse : Course text o next w out) (hf : Emits text o next entry f) (hentry : entry ≠ []) :
    w ⊆ f.vertices := by
  have hbelow {next : Nat} {label : String} : [(⟨next, label⟩ : Exit)] ≠ [] := by simp
  induction hcourse generalizing entry f with
  | done | absent => exact List.nil_subset _
  | runOn hreturns _ ih =>
      cases hf with
      | unreached => cases hentry rfl
      | run _ hrest =>
          rw [ends_runFragment hreturns] at hrest
          exact List.cons_subset.mpr ⟨List.mem_append_left _ (mem_vertices_runFragment _),
            List.subset_append_of_subset_right _ (ih hrest hbelow)⟩
  | runOff =>
      cases hf with
      | unreached => cases hentry rfl
      | run _ hrest =>
          exact List.cons_subset.mpr ⟨List.mem_append_left _ (mem_vertices_runFragment _),
            List.nil_subset _⟩
  | stepOn hcourse _ ihFirst ihRest =>
      cases hf with
      | unreached => cases hentry rfl
      | step _ hfirst hrest =>
          -- The course goes on, so there is an end that the rest is laid down from.
          have hforetells := hfirst.foretells hentry
          have hends := mt hforetells.ends.mp (by simp [hcourse.completes])
          rw [hforetells.length] at hrest
          exact List.append_subset.mpr
            ⟨List.subset_append_of_subset_left _ (ihFirst hfirst hentry),
              List.subset_append_of_subset_right _ (ihRest hrest hends)⟩
  | stepOff _ ih =>
      cases hf with
      | unreached => cases hentry rfl
      | step _ hfirst hrest => exact List.subset_append_of_subset_left _ (ih hfirst hentry)
  | nested _ ih =>
      cases hf with
      | nested hinner => exact ih hinner hentry
  | branchYes _ ih | choiceYes _ ih | ternaryYes _ ih =>
      cases hf
      next hyes _ =>
        exact List.cons_subset_cons _ (List.subset_append_of_subset_left _ (ih hyes hbelow))
  | branchNo _ ih | choiceNo _ ih | ternaryNo _ ih =>
      cases hf
      next hyes hno =>
        rw [(hyes.foretells hbelow).length] at hno
        exact List.cons_subset_cons _ (List.subset_append_of_subset_right _ (ih hno hbelow))
  | loopOn _ ih =>
      cases hf with
      | loop hbody =>
          refine List.cons_subset.mpr ⟨List.mem_cons_self, laps_subset List.mem_cons_self ?_⟩
          intro round hround
          exact List.subset_append_of_subset_right _ (ih round hround hbody hbelow)
  | loopOff _ _ ihRounds ihLast =>
      cases hf with
      | loop hbody =>
          refine List.cons_subset.mpr ⟨List.mem_cons_self, List.append_subset.mpr
            ⟨laps_subset List.mem_cons_self ?_, ?_⟩⟩
          · intro round hround
            exact List.subset_append_of_subset_right _ (ihRounds round hround hbody hbelow)
          · exact List.subset_append_of_subset_right _ (ihLast hbody hbelow)
  | switchCase _ ih =>
      cases hf with
      | switch hcases => exact List.cons_subset_cons _ (ih hcases hbelow)
  | switchNone =>
      cases hf with
      | switch hcases => exact List.cons_subset_cons _ (List.nil_subset _)
  | caseHere hcaption _ ih =>
      cases hf with
      | case hcaption' hbody _ =>
          obtain rfl := Except.ok.inj (hcaption.symm.trans hcaption')
          exact List.cons_subset_cons _ (List.subset_append_of_subset_left _ (ih hbody hbelow))
  | caseLater _ ih =>
      cases hf with
      | case _ hbody hrest =>
          rw [(hbody.foretells hbelow).length] at hrest
          exact List.subset_append_of_subset_right _ (ih hrest hentry)
  | leaf =>
      cases hf with
      | leaf => exact fun _ => id

end Outline

end Cyclomatic
