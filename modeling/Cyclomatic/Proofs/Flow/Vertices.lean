import Cyclomatic.Proofs.Flow.Closing

/-! # The vertices of a graph

Which vertices a part lays down, and in which order, can be read off its
outline.
-/

namespace Cyclomatic

open Cyclomatic.Flow

namespace Outline

variable {text : Range → String} {p : Part} {next : Nat} {entry : List Exit} {f : Fragment}

/-- The vertex of a case or a handler, if a node of its kind has a caption. -/
def clauseVertex (text : Range → String) (kind : Kind) (d : Decision) : List Vertex :=
  (Caption.ofKind? kind).toList.map (decisionVertex text · d)

/-- The vertices that a part lays down when it is entered. -/
def vertices (text : Range → String) : {p : Part} → Outline p → List Vertex
  | _, .run r rest => blockVertex text r :: if r.returns then [] else rest.vertices text
  | _, .step _ construct rest =>
      construct.vertices text ++ if construct.completes then rest.vertices text else []
  | _, .nested inner => inner.vertices text
  | _, .branch d yes no =>
      decisionVertex text .branch d :: (yes.vertices text ++ no.vertices text)
  | _, .loop style d body => decisionVertex text style.caption d :: body.vertices text
  | _, .choice d yes no | _, .ternary d yes no =>
      decisionVertex text .ternary d :: (yes.vertices text ++ no.vertices text)
  | _, .switch d cases => decisionVertex text .switch d :: cases.vertices text
  | _, .guarded body handler final =>
      body.vertices text ++ handler.vertices text ++ final.vertices text
  | _, .case kind d _ body rest =>
      clauseVertex text kind d ++ body.vertices text ++ rest.vertices text
  | _, .catch kind d body => clauseVertex text kind d ++ body.vertices text
  | _, .leaf site => [.operand site (text site.range)]
  | _, .done | _, .noCase | _, .noHandler | _, .absent => []

/-- A clause that has a caption has one vertex. -/
theorem clauseVertex_of_captionOf {kind : Kind} {caption : Caption}
    (hcaption : captionOf kind = .ok caption) (d : Decision) :
    clauseVertex text kind d = [decisionVertex text caption d] := by
  unfold captionOf at hcaption
  unfold clauseVertex
  split at hcaption
  next heq =>
    cases hcaption
    rw [heq]
    rfl
  next => cases hcaption

theorem vertices_runFragment (r : Run) :
    (runFragment text r next entry).vertices.map (·.2) = [blockVertex text r] := by
  unfold runFragment
  split <;> rfl

/-- What is laid down from at least one exit has the vertices of its outline. -/
theorem Emits.vertices_eq {o : Outline p} (hf : Emits text o next entry f) (hentry : entry ≠ []) :
    f.vertices.map (·.2) = o.vertices text := by
  induction hf with
  | done | absent | noCase | noHandler | leaf => rfl
  | unreached => exact absurd rfl hentry
  | @run r rest next entry g _ hrest ih =>
      rw [Fragment.andThen, List.map_append, vertices_runFragment, vertices]
      split
      next hreturns =>
        rw [hrest.eq_pass_of_returns hreturns]
        rfl
      next hreturns =>
        rw [ih (by simp [runFragment, hreturns, Fragment.vertex])]
        rfl
  | step _ hfirst hrest ihFirst ihRest =>
      rw [Fragment.andThen, List.map_append, ihFirst hentry, vertices]
      have hends := (hfirst.foretells hentry).ends
      split
      next hcompletes => rw [ihRest (by rw [ne_eq, hends]; simp [hcompletes])]
      next hstops =>
        -- Nothing leads out of the construct, so the rest is laid down from no exit.
        rw [hends.mpr (eq_false_of_ne_true hstops)] at hrest
        rw [hrest.eq_pass_of_nil]
        rfl
  | nested _ ih => exact ih hentry
  | branch _ _ ihYes ihNo | choice _ _ ihYes ihNo | ternary _ _ ihYes ihNo =>
      simp [vertices, Fragment.fork, decisionFragment, Fragment.vertex, ihYes, ihNo]
  | loop _ ih => simp [vertices, Fragment.cycle, decisionFragment, Fragment.vertex, ih]
  | switch _ ih => simp [vertices, Fragment.select, decisionFragment, Fragment.vertex, ih]
  | guarded hbody hhandler hfinal ihBody ihHandler ihFinal =>
      have hentered := hbody.entered_ne_nil hentry
      have hfinalEntry :=
        (hbody.foretells hentry).finalEntry_ne_nil (hhandler.foretells hentered)
      rw [Fragment.vertices_finish, Fragment.protect, List.map_append, List.map_append,
        ihBody hentry, ihHandler hentered, ihFinal hfinalEntry, vertices]
  | case hcaption _ _ ihBody ihRest =>
      simp [vertices, Fragment.alongside, Fragment.andThen, decisionFragment, Fragment.vertex,
        ihBody, ihRest hentry, clauseVertex_of_captionOf hcaption]
  | «catch» hcaption _ ih =>
      simp [vertices, Fragment.andThen, decisionFragment, Fragment.vertex, ih,
        clauseVertex_of_captionOf hcaption]

end Outline

namespace Flow.Graph

/-- Between its entry and its exit, a function's graph has the vertices of the outline. -/
theorem vertices_ofFunction {source : Bytes} {t : Tree} {g : Graph}
    (hg : ofFunction source t = .ok g) : g.vertices.map (·.2) =
      .entry :: (Outline.ofFunction t).vertices (Range.text source) ++ [.exit] := by
  obtain ⟨body, hbody, rfl⟩ := ofFunction_eq_ok_iff.mp hg
  rw [← Outline.Emits.vertices_eq hbody (by simp)]
  simp [close]

end Flow.Graph

end Cyclomatic
