import Cyclomatic.Proofs.Flow.Connectivity
import Cyclomatic.Proofs.Flow.Vertices
import Cyclomatic.Proofs.Tree.Sketch
import Cyclomatic.Proofs.Tree.Stretches

/-! # The blocks of a diagram

The basic blocks of a function's diagram are the blocks of straight-line
statements that control comes to, in the order in which they are gone through.
-/

namespace Cyclomatic

open Cyclomatic.Flow

/-- The extent and the text of a block. -/
def Flow.Vertex.block? : Vertex → Option (Site × String)
  | .block site code => some (site, code)
  | .entry | .exit | .decision .. | .operand .. => none

namespace Outline

variable {text : Range → String} {p : Part}

/-! ## The blocks of an outline -/

/-- The blocks that a part lays down when it is entered. -/
def blocks (text : Range → String) (o : Outline p) : List (Site × String) :=
  (o.vertices text).filterMap Vertex.block?

/-- A straight run is one block. Nothing follows it if it leaves the function. -/
theorem blocks_run (r : Run) (rest : Outline .sequence) :
    (run r rest).blocks text =
      (r.site, text r.site.range) :: if r.returns then [] else rest.blocks text := by
  have hblock : (blockVertex text r).block? = some (r.site, text r.site.range) := rfl
  rw [blocks, vertices, List.filterMap_cons_some hblock]
  split <;> rfl

/-- The blocks after a construct count only if control goes on after it. -/
theorem blocks_step (line : Int) (construct : Outline .construct) (rest : Outline .sequence) :
    (step line construct rest).blocks text =
      construct.blocks text ++ if construct.completes then rest.blocks text else [] := by
  rw [blocks, vertices, List.filterMap_append]
  split <;> rfl

@[simp] theorem blocks_nested (inner : Outline .sequence) :
    (nested inner).blocks text = inner.blocks text :=
  rfl

@[simp] theorem blocks_branch (d : Decision) (yes no : Outline .sequence) :
    (branch d yes no).blocks text = yes.blocks text ++ no.blocks text :=
  List.filterMap_append

@[simp] theorem blocks_loop (style : Loop) (d : Decision) (body : Outline .sequence) :
    (loop style d body).blocks text = body.blocks text :=
  rfl

/-- The alternatives of a ternary are no blocks. -/
@[simp] theorem blocks_operand (o : Outline .operand) : o.blocks text = [] := by
  match o with
  | .absent | .leaf _ => rfl
  | .ternary d yes no =>
      have hsplit : (ternary d yes no).blocks text = yes.blocks text ++ no.blocks text :=
        List.filterMap_append
      rw [hsplit, blocks_operand yes, blocks_operand no]
      rfl

@[simp] theorem blocks_choice (d : Decision) (yes no : Outline .operand) :
    (choice d yes no).blocks text = [] := by
  have hsplit : (choice d yes no).blocks text = yes.blocks text ++ no.blocks text :=
    List.filterMap_append
  simp [hsplit]

@[simp] theorem blocks_switch (d : Decision) (cases : Outline .cases) :
    (switch d cases).blocks text = cases.blocks text :=
  rfl

/-- The blocks of a guarded block, of its handler and of its final part, in this order. -/
@[simp] theorem blocks_guarded (body final : Outline .sequence) (handler : Outline .handler) :
    (guarded body handler final).blocks text =
      body.blocks text ++ (handler.blocks text ++ final.blocks text) := by
  simp [blocks, vertices]

/-- A clause is a decision and no block. -/
theorem block?_clauseVertex (kind : Kind) (d : Decision) :
    (clauseVertex text kind d).filterMap Vertex.block? = [] := by
  unfold clauseVertex
  cases Caption.ofKind? kind <;> rfl

@[simp] theorem blocks_case (kind : Kind) (d : Decision) (test : Option Range)
    (body : Outline .sequence) (rest : Outline .cases) :
    (case kind d test body rest).blocks text = body.blocks text ++ rest.blocks text := by
  simp [blocks, vertices, block?_clauseVertex]

@[simp] theorem blocks_catch (kind : Kind) (d : Decision) (body : Outline .sequence) :
    (Outline.catch kind d body).blocks text = body.blocks text := by
  simp [blocks, vertices, block?_clauseVertex]

end Outline

namespace Tree

open Outline

variable {text : Range → String} {t : Tree}

/-! ## Blocks on the tree -/

/-- The blocks of cases are those of their statements, case by case. -/
theorem blocks_ofCases (cs : List Tree) : (ofCases cs).blocks text =
    (cs.map (·.statements)).flatMap fun us => (ofStatements none us).blocks text := by
  induction cs with
  | nil =>
      rw [ofCases]
      rfl
  | cons c cs ih => rw [ofCases_cons, blocks_case, ih, List.map_cons, List.flatMap_cons]

/-- The blocks of a handler are those of its body. -/
theorem blocks_ofHandler (h : Option Tree) : (ofHandler h).blocks text =
    (ofStatements none (asStatements (h.bind (·.body)))).blocks text := by
  cases h with
  | none =>
      rw [ofHandler, Option.bind_none, asStatements, ofStatements_nil]
      rfl
  | some h => rw [ofHandler_some, blocks_catch, Option.bind_some]

/-- The blocks of a construct are those of its parts. -/
theorem blocks_construct {c : Outline .construct} (hopens : Opens t c) : c.blocks text =
    t.parts.flatMap fun us => (ofStatements none us).blocks text := by
  unfold parts
  cases hopens with
  | block hkind => simp [hkind]
  | branch hkind => simp [hkind]
  | loop hcaption =>
      rcases kind_of_loop_caption hcaption with ⟨hkind, _⟩ | ⟨hkind, _⟩ | ⟨hkind, _⟩ <;>
        simp [hkind]
  | choice hchoice =>
      rcases choice?_of_kind hchoice with hkind | hkind <;> simp [hkind]
  | switch hkind => rw [hkind, blocks_switch, blocks_ofCases]
  | guarded hkind => simp [hkind, ofBody_eq, blocks_ofHandler]

/-- The extent of consecutive statements, and its text. -/
def Stretch.block (text : Range → String) (s : Stretch) : Site × String :=
  (extent s.first s.last, text (extent s.first s.last).range)

namespace Remainder

/-- The blocks of what is ahead are the block at its front, if it is one, and those of what comes
next. -/
theorem blocks_ahead (r : Remainder) : (ofStatements none r.ahead).blocks text =
    r.stretch?.toList.map (Stretch.block text) ++
      r.next.flatMap fun r' => (ofStatements none r'.ahead).blocks text := by
  cases hahead : r.ahead with
  | nil =>
      rw [next_of_nil hahead, stretch?, hahead, ofStatements_nil]
      rfl
  | cons t ts =>
      rw [flatMap_next (fun us => (ofStatements none us).blocks text) hahead, stretch?, hahead]
      rcases front_cases t ts with ⟨ht, hfront⟩ | ⟨more, returns, hfront, hrun⟩
      · -- A construct is no block, and the blocks of its parts come before those past it.
        obtain ⟨c, hc⟩ := isStraight_eq_false_iff.mp ht
        have hopens := ofStatement?_eq_some_iff.mp hc
        rw [ofStatements_cons_construct hc, flush, blocks_step, blocks_construct hopens, behind,
          hfront, completes_singleton hopens]
        simp [ht]
      · -- A block is one run of the outline, which goes on behind it unless it returns.
        have ht := hrun.straight t List.mem_cons_self
        obtain ⟨count, hcount⟩ := ofStatements_front hfront hrun
        rw [hfront, completes_isRun hrun, parts_eq_nil ht, hcount, blocks_run]
        cases returns <;> simp [ht, Stretch.block, Stretch.last]

/-- The blocks of a list of statements, with their text, are its stretches. -/
theorem blocks_stretches (r : Remainder) :
    (ofStatements none r.ahead).blocks text = r.stretches.map (Stretch.block text) := by
  induction r using descent.induct with
  | hnext r ih =>
      rw [blocks_ahead, stretches_eq, List.map_append, List.map_flatMap]
      exact congrArg _ (List.flatMap_congr ih)

end Remainder

end Tree

namespace Diagram

open Cyclomatic.Tree

variable {source : Bytes} {t : Tree} {g : Graph} {name path : Option String}

/-- The extent, the lines and the text of a block. -/
def details (block : Site × String) : Option Range × Option Int × Option Int × Option String :=
  (some block.1.range, some block.1.line, some block.1.endLine, some block.2)

/-- What a diagram shows of its blocks can be read off the vertices that are blocks. -/
theorem map_details_block? (vs : List (Nat × Vertex)) :
    ((vs.map fun (i, v) => ofVertex i v).filter (·.isBlock)).map
        (fun b => (b.range, b.line, b.endLine, b.code)) =
      ((vs.map (·.2)).filterMap Vertex.block?).map details := by
  induction vs with
  | nil => rfl
  | cons v vs ih =>
      obtain ⟨i, v⟩ := v
      cases v with
      | block site code => exact congrArg _ ih
      | entry | exit | decision | operand => exact ih

/-- The blocks of a function's diagram are those of its outline. -/
theorem blocks_ofFunction (hg : Graph.ofFunction source t = .ok g) :
    (ofGraph g name path).blocks.map (fun b => (b.range, b.line, b.endLine, b.code)) =
      ((Outline.ofFunction t).blocks (Range.text source)).map details := by
  have hvertices := congrArg (List.filterMap Vertex.block?) (Graph.vertices_ofFunction hg)
  rw [List.filterMap_append, List.filterMap_cons] at hvertices
  have hblocks := hvertices.trans (List.append_nil _)
  exact (map_details_block? g.vertices).trans (congrArg _ hblocks)

/-- The basic blocks of a function's diagram, in the order of their numbers, are blocks of
straight-line statements that control comes to, one for one. A block reaches from the first of its
statements to the last, and its code is what the source has there. No statement is in two of them,
and all straight-line statements that control comes to are in one; if nothing leaves the function,
those are all the straight-line statements of the lists that are gone into. -/
theorem blocks_partition (hg : Graph.ofFunction source t = .ok g) (name path : Option String) :
    ∃ ss : List Stretch,
      (ofGraph g name path).nodes.map (·.id) =
        (List.range (ofGraph g name path).nodes.length).map vertexName ∧
      (ofGraph g name path).blocks.map (fun b => (b.range, b.line, b.endLine, b.code)) =
        ss.map (fun s =>
          (some ⟨s.first.place.startByte, s.last.place.endByte⟩, some s.first.place.startLine,
            some s.last.place.endLine,
            some (Utf8.decode
              (source.slice s.first.place.startByte s.last.place.endByte)))) ∧
      (∀ s ∈ ss, s.IsBlock (asStatements t.body)) ∧
      (ss.flatMap Stretch.occurrences).Nodup ∧
      (∀ a i, (a, i) ∈ ss.flatMap Stretch.occurrences ↔
        ∃ us u, Reached (asStatements t.body) a us ∧ us[i]? = some u ∧ u.isStraight = true ∧
          FallsThrough (us.take i)) ∧
      ((∀ s, StatementOf (asStatements t.body) s → s.head.exits = false) →
        ∀ a us i u, Reached (asStatements t.body) a us → us[i]? = some u → u.isStraight = true →
          (ss.flatMap Stretch.occurrences).count (a, i) = 1) := by
  refine ⟨(Remainder.whole [] (asStatements t.body)).stretches, ?_, ?_, ?_, ?_, ?_, ?_⟩
  · obtain ⟨body, hbody, rfl⟩ := Graph.ofFunction_eq_ok_iff.mp hg
    exact (singleEntryExit_close hbody).ids
  · have hstretches := @Remainder.blocks_stretches (Range.text source)
      (.whole [] (asStatements t.body))
    rw [blocks_ofFunction hg, Outline.ofFunction, Outline.ofBody_eq]
    exact (congrArg (List.map details) hstretches).trans List.map_map
  · intro s hs
    exact Remainder.isBlock_of_mem_stretches hs
  · exact Remainder.nodup_occurrences _
  · intro a i
    exact Remainder.mem_occurrences_iff
  · intro hstays a us i u hus hu hstraight
    exact Remainder.count_occurrences hstays hus hu hstraight

/-- Two statements, a branch with a statement on one side, and another statement. -/
def aroundBranch : String :=
  "function f(c) \x7b\n  a('é');\n  b();\n  if (c) \x7b\n    d();\n  \x7d\n  e();\n\x7d"

def callOfD : Tree := Sketch.placed .plain ⟨49, 53, 5, 4, 5, 8⟩

def branchOnC : Tree :=
  Sketch.placed .branch ⟨36, 57, 4, 2, 6, 3⟩ {
    consequent := some (Sketch.placed .block ⟨43, 57, 4, 9, 6, 3⟩ { statements := [callOfD] }) }

def callOfB : Tree := Sketch.placed .plain ⟨29, 33, 3, 2, 3, 6⟩

def statementsAroundBranch : Tree :=
  Sketch.placed .function ⟨0, 66, 1, 0, 8, 1⟩ {
    body := some (Sketch.placed .block ⟨14, 66, 1, 14, 8, 1⟩ {
      statements := [Sketch.placed .plain ⟨18, 26, 2, 2, 2, 10⟩, callOfB, branchOnC,
        Sketch.placed .plain ⟨60, 64, 7, 2, 7, 6⟩] }) }

/-- The first two statements are one block; a character of two bytes moves all that follows. -/
theorem statementsAroundBranch_blocks :
    ∃ (g : Graph) (ss : List Stretch),
      Graph.ofFunction (Utf8.encode aroundBranch) statementsAroundBranch = .ok g ∧
      (ofGraph g none none).blocks.map (fun b => (b.range, b.line, b.endLine, b.code)) =
        [(some ⟨18, 33⟩, some 2, some 3, some "a('é');\n  b();"),
          (some ⟨49, 53⟩, some 5, some 5, some "d();"),
          (some ⟨60, 64⟩, some 7, some 7, some "e();")] ∧
      ss.map (fun s => Range.mk s.first.place.startByte s.last.place.endByte) =
        [⟨18, 33⟩, ⟨49, 53⟩, ⟨60, 64⟩] ∧
      (∀ s ∈ ss, s.IsBlock (asStatements statementsAroundBranch.body)) ∧
      (ss.flatMap Stretch.occurrences).count ([], 1) = 1 ∧
      (ss.flatMap Stretch.occurrences).count ([(2, 0)], 0) = 1 := by
  have hdrawn : ∃ g, Graph.ofFunction (Utf8.encode aroundBranch) statementsAroundBranch = .ok g ∧
      (ofGraph g none none).blocks.map (fun b => (b.range, b.line, b.endLine, b.code)) =
        [(some ⟨18, 33⟩, some 2, some 3, some "a('é');\n  b();"),
          (some ⟨49, 53⟩, some 5, some 5, some "d();"),
          (some ⟨60, 64⟩, some 7, some 7, some "e();")] :=
    ⟨_, rfl, by decide +kernel⟩
  obtain ⟨g, hg, hshown⟩ := hdrawn
  obtain ⟨ss, _, hdetails, hblocks, _, _, hcount⟩ := blocks_partition hg none none
  have hranges := congrArg (List.filterMap Prod.fst) (hdetails.symm.trans hshown)
  have hnone : ∀ s, StatementOf [] s → s.head.exits = false := fun s hs =>
    absurd hs not_statementOf_nil
  have hplain {place : Place} {ts : List Tree}
      (hts : ∀ s, StatementOf ts s → s.head.exits = false) :
      ∀ s, StatementOf (Sketch.placed .plain place :: ts) s → s.head.exits = false :=
    forall_statementOf_cons.mpr ⟨rfl, hnone, hts⟩
  have hstays : ∀ s, StatementOf (asStatements statementsAroundBranch.body) s →
      s.head.exits = false :=
    hplain (hplain (forall_statementOf_cons.mpr ⟨rfl, hplain hnone, hplain hnone⟩))
  refine ⟨g, ss, hg, hshown, ?_, hblocks, ?_, ?_⟩
  · simpa [List.filterMap_map, Function.comp_def] using hranges
  · exact hcount hstays [] _ 1 callOfB .root rfl rfl
  · refine hcount hstays [(2, 0)] [callOfD] 0 callOfD ?_ rfl rfl
    exact .inside (a := []) .root rfl (.straight rfl rfl (.straight rfl rfl .nil)) rfl

end Diagram

end Cyclomatic
