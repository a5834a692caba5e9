import Cyclomatic.Proofs.Flow.Vertices

/-! # The decisions of a graph

Which decisions a part lays down, for which part of the source and in which
order, can be read off its outline. Laying a part down fails at cases and
handlers without a caption and nowhere else.
-/

namespace Cyclomatic

open Cyclomatic.Flow

namespace Flow

/-- A decision without its text. -/
structure Mark where
  caption : Caption
  site : Site
  deriving DecidableEq, Repr

/-- A multiway branch is no decision of its own: each of its cases is. -/
def Mark.branches (m : Mark) : Bool := m.caption ≠ .switch

def Vertex.mark? : Vertex → Option Mark
  | .decision caption site _ => some ⟨caption, site⟩
  | .entry | .exit | .operand .. | .block .. => none

/-- The decisions of a graph, in the order of their vertices. -/
def Graph.marks (g : Graph) : List Mark := g.vertices.filterMap (·.2.mark?)

end Flow

namespace Outline

/-- The decision of a case or a handler, if a node of its kind has a caption. -/
def clauseMark (kind : Kind) (d : Decision) : List Mark :=
  (Caption.ofKind? kind).toList.map (⟨·, d.site⟩)

/-- The decisions that a part lays down when it is entered. -/
def marks : {p : Part} → Outline p → List Mark
  | _, .run r rest => if r.returns then [] else rest.marks
  | _, .step _ construct rest => construct.marks ++ if construct.completes then rest.marks else []
  | _, .nested inner => inner.marks
  | _, .branch d yes no => ⟨.branch, d.site⟩ :: (yes.marks ++ no.marks)
  | _, .loop style d body => ⟨style.caption, d.site⟩ :: body.marks
  | _, .choice d yes no | _, .ternary d yes no => ⟨.ternary, d.site⟩ :: (yes.marks ++ no.marks)
  | _, .switch d cases => ⟨.switch, d.site⟩ :: cases.marks
  | _, .guarded body handler final => body.marks ++ handler.marks ++ final.marks
  | _, .case kind d _ body rest => clauseMark kind d ++ body.marks ++ rest.marks
  | _, .catch kind d body => clauseMark kind d ++ body.marks
  | _, .done | _, .noCase | _, .noHandler | _, .absent | _, .leaf _ => []

/-- Whether every case and every handler of a part has a caption. -/
def captioned : {p : Part} → Outline p → Bool
  | _, .run _ rest => rest.captioned
  | _, .step _ construct rest => construct.captioned && rest.captioned
  | _, .nested inner => inner.captioned
  | _, .branch _ yes no => yes.captioned && no.captioned
  | _, .loop _ _ body => body.captioned
  | _, .switch _ cases => cases.captioned
  | _, .guarded body handler final => body.captioned && handler.captioned && final.captioned
  | _, .case kind _ _ body rest =>
      (Caption.ofKind? kind).isSome && body.captioned && rest.captioned
  | _, .catch kind _ body => (Caption.ofKind? kind).isSome && body.captioned
  | _, .done | _, .choice .. | _, .noCase | _, .noHandler | _, .absent | _, .leaf _
  | _, .ternary .. => true

variable {text : Range → String} {p : Part} {next : Nat} {entry : List Exit} {f : Fragment}

/-- The vertex of a clause has the mark of the clause. -/
theorem mark?_clauseVertex (kind : Kind) (d : Decision) :
    (clauseVertex text kind d).filterMap Vertex.mark? = clauseMark kind d := by
  unfold clauseVertex clauseMark
  cases Caption.ofKind? kind <;> rfl

/-- The decisions of an outline are those among its vertices. -/
theorem mark?_vertices (o : Outline p) : (o.vertices text).filterMap Vertex.mark? = o.marks := by
  induction o with
  | done | absent | noCase | noHandler | leaf => rfl
  | run r rest ih =>
      have hblock : (blockVertex text r).mark? = none := rfl
      rw [vertices, marks, List.filterMap_cons_none hblock]
      split
      · rfl
      · exact ih
  | step line construct rest ihFirst ihRest =>
      rw [vertices, marks, List.filterMap_append, ihFirst]
      split
      · rw [ihRest]
      · rfl
  | nested inner ih => exact ih
  | branch d yes no ihYes ihNo | choice d yes no ihYes ihNo | ternary d yes no ihYes ihNo =>
      simp [vertices, marks, decisionVertex, Vertex.mark?, ihYes, ihNo]
  | loop style d body ih | switch d cases ih =>
      simp [vertices, marks, decisionVertex, Vertex.mark?, ih]
  | guarded body handler final ihBody ihHandler ihFinal =>
      simp [vertices, marks, ihBody, ihHandler, ihFinal]
  | case kind d test body rest ihBody ihRest =>
      simp [vertices, marks, mark?_clauseVertex, ihBody, ihRest]
  | «catch» kind d body ih => simp [vertices, marks, mark?_clauseVertex, ih]

theorem captioned_operand (o : Outline .operand) : o.captioned = true := by
  cases o <;> rfl

theorem exists_captionOf {kind : Kind} (hkind : (Caption.ofKind? kind).isSome = true) :
    ∃ caption, captionOf kind = .ok caption := by
  obtain ⟨caption, hcaption⟩ := Option.isSome_iff_exists.mp hkind
  exact ⟨caption, by rw [captionOf, hcaption]⟩

/-- A part with captions for all its cases and handlers can be laid down anywhere. -/
theorem exists_emits {o : Outline p} (ho : o.captioned = true) (next : Nat)
    (entry : List Exit) : ∃ f, Emits text o next entry f := by
  induction o generalizing next entry with
  | done => exact ⟨_, .done⟩
  | run r rest ih =>
      by_cases hentry : entry = []
      · subst hentry
        exact ⟨_, .unreached⟩
      · obtain ⟨g, hg⟩ := ih ho (next + 1) (runFragment text r next entry).ends
        exact ⟨_, .run hentry hg⟩
  | step line construct rest ihFirst ihRest =>
      obtain ⟨hfirst, hrest⟩ := Bool.and_eq_true_iff.mp ho
      by_cases hentry : entry = []
      · subst hentry
        exact ⟨_, .unreached⟩
      · obtain ⟨f, hf⟩ := ihFirst hfirst next entry
        obtain ⟨g, hg⟩ := ihRest hrest (next + f.vertices.length) f.ends
        exact ⟨_, .step hentry hf hg⟩
  | nested inner ih =>
      obtain ⟨f, hf⟩ := ih ho next entry
      exact ⟨f, .nested hf⟩
  | branch d yes no ihYes ihNo =>
      obtain ⟨hyes, hno⟩ := Bool.and_eq_true_iff.mp ho
      obtain ⟨y, hy⟩ := ihYes hyes (next + 1) [⟨next, trueLabel⟩]
      obtain ⟨n, hn⟩ := ihNo hno (next + 1 + y.vertices.length) [⟨next, falseLabel⟩]
      exact ⟨_, .branch hy hn⟩
  | loop style d body ih =>
      obtain ⟨b, hb⟩ := ih ho (next + 1) [⟨next, trueLabel⟩]
      exact ⟨_, .loop hb⟩
  | choice d yes no ihYes ihNo =>
      obtain ⟨y, hy⟩ := ihYes (captioned_operand yes) (next + 1) [⟨next, trueLabel⟩]
      obtain ⟨n, hn⟩ := ihNo (captioned_operand no) (next + 1 + y.vertices.length)
        [⟨next, falseLabel⟩]
      exact ⟨_, .choice hy hn⟩
  | switch d cases ih =>
      obtain ⟨c, hc⟩ := ih ho (next + 1) [⟨next, ""⟩]
      exact ⟨_, .switch hc⟩
  | guarded body handler final ihBody ihHandler ihFinal =>
      obtain ⟨hguarded, hfinal⟩ := Bool.and_eq_true_iff.mp ho
      obtain ⟨hbody, hhandler⟩ := Bool.and_eq_true_iff.mp hguarded
      obtain ⟨b, hb⟩ := ihBody hbody next entry
      obtain ⟨h, hh⟩ := ihHandler hhandler (next + b.vertices.length) b.entered
      obtain ⟨f, hf⟩ := ihFinal hfinal (next + (b.protect h).vertices.length)
        (b.protect h).finalEntry
      exact ⟨_, .guarded hb hh hf⟩
  | noCase => exact ⟨_, .noCase⟩
  | case kind d test body rest ihBody ihRest =>
      obtain ⟨hclause, hrest⟩ := Bool.and_eq_true_iff.mp ho
      obtain ⟨hkind, hbody⟩ := Bool.and_eq_true_iff.mp hclause
      obtain ⟨caption, hcaption⟩ := exists_captionOf hkind
      obtain ⟨b, hb⟩ := ihBody hbody (next + 1) [⟨next, ""⟩]
      obtain ⟨r, hr⟩ := ihRest hrest (next + 1 + b.vertices.length) entry
      exact ⟨_, .case hcaption hb hr⟩
  | noHandler => exact ⟨_, .noHandler⟩
  | «catch» kind d body ih =>
      obtain ⟨hkind, hbody⟩ := Bool.and_eq_true_iff.mp ho
      obtain ⟨caption, hcaption⟩ := exists_captionOf hkind
      obtain ⟨b, hb⟩ := ih hbody (next + 1) [⟨next, ""⟩]
      exact ⟨_, .catch hcaption hb⟩
  | absent => exact ⟨_, .absent⟩
  | leaf site => exact ⟨_, .leaf⟩
  | ternary d yes no ihYes ihNo =>
      obtain ⟨y, hy⟩ := ihYes (captioned_operand yes) (next + 1) [⟨next, trueLabel⟩]
      obtain ⟨n, hn⟩ := ihNo (captioned_operand no) (next + 1 + y.vertices.length)
        [⟨next, falseLabel⟩]
      exact ⟨_, .ternary hy hn⟩

end Outline

namespace Flow.Graph

/-- The decisions of a graph are those of the outline it was laid down from, in order. -/
theorem marks_eq {source : Bytes} {t : Tree} {g : Graph} (hg : ofFunction source t = .ok g) :
    g.marks = (Outline.ofFunction t).marks := by
  have hvertices := congrArg (List.filterMap Vertex.mark?) (vertices_ofFunction hg)
  rw [List.filterMap_map, List.filterMap_append, List.filterMap_cons, Outline.mark?_vertices]
    at hvertices
  exact hvertices.trans (List.append_nil _)

/-- A function whose outline has all its captions has a graph, with the decisions of
the outline. -/
theorem exists_ofFunction {t : Tree} (ht : (Outline.ofFunction t).captioned = true)
    (source : Bytes) :
    ∃ g, ofFunction source t = .ok g ∧ g.marks = (Outline.ofFunction t).marks := by
  obtain ⟨body, hbody⟩ : ∃ body, BodyOf source t body := Outline.exists_emits ht 1 [⟨0, ""⟩]
  have hg : ofFunction source t = .ok (close body) := ofFunction_eq_ok_iff.mpr ⟨body, hbody, rfl⟩
  refine ⟨close body, hg, ?_⟩
  rw [marks_eq hg]

end Flow.Graph

end Cyclomatic
