import Cyclomatic.Flow.Graph

/-! # Building a graph from an outline

A part of an outline is laid down from the exits that lead to it. The result
is a fragment: the vertices and edges it adds, the exits it leaves open, and
the vertices at which it leaves the function. What no exit leads to is not
laid down.
-/

namespace Cyclomatic

open Cyclomatic.Flow

namespace Flow

structure Fragment where
  vertices : List (Nat × Vertex) := []
  edges : List Edge := []
  /-- The exits from which control goes on to what follows. -/
  ends : List Exit
  /-- The vertices from which control leaves the function. -/
  returned : List Nat := []
  /-- The exits from which a handler around the part is reached: those that led
  to it, and, if it opens with a guarded part that adds nothing, the ends of
  that part's handler. -/
  entered : List Exit
  /-- Nothing was laid down, and control goes on from where it came. -/
  idle : Bool := false
  deriving DecidableEq, Repr

namespace Fragment

def pass (entry : List Exit) : Fragment := { ends := entry, entered := entry, idle := true }

/-- Nothing at all: control does not get here. -/
def nothing (entry : List Exit) : Fragment := { ends := [], entered := entry }

/-- One vertex, entered from the given exits. -/
def vertex (id : Nat) (v : Vertex) (entry : List Exit) : Fragment where
  vertices := [(id, v)]
  edges := connect entry id
  ends := [⟨id, ""⟩]
  entered := entry

/-- A vertex at which the function is left. -/
def leaving (id : Nat) (f : Fragment) : Fragment := { f with ends := [], returned := f.returned ++ [id] }

/-- One fragment, and then another that was laid down from its ends. -/
def andThen (f g : Fragment) : Fragment where
  vertices := f.vertices ++ g.vertices
  edges := f.edges ++ g.edges
  ends := g.ends
  returned := f.returned ++ g.returned
  entered := if f.idle then g.entered else f.entered
  idle := f.idle && g.idle

/-- Two alternatives after a common beginning. -/
def fork (head yes no : Fragment) : Fragment where
  vertices := head.vertices ++ yes.vertices ++ no.vertices
  edges := head.edges ++ yes.edges ++ no.edges
  ends := unique (yes.ends ++ no.ends)
  returned := yes.returned ++ no.returned
  entered := head.entered

/-- The vertices from which a loop goes back: the ends of its body, or where the
body leaves the function if it has no ends. -/
def backSources (body : Fragment) : List Nat :=
  unique (if body.ends.isEmpty then body.returned else body.ends.map (·.source))

/-- A loop around a body. -/
def cycle (id : Nat) (head body : Fragment) : Fragment where
  vertices := head.vertices ++ body.vertices
  edges := head.edges ++ body.edges ++ body.backSources.map fun source => ⟨source, id, loopLabel⟩
  ends := [⟨id, falseLabel⟩]
  returned := body.returned
  entered := head.entered

/-- A multiway branch over its cases, with further ends of its own. -/
def select (head cases : Fragment) (own : List Exit) : Fragment where
  vertices := head.vertices ++ cases.vertices
  edges := head.edges ++ cases.edges
  ends := unique (cases.ends ++ own)
  returned := cases.returned
  entered := head.entered

/-- One case and the cases after it. -/
def alongside (f g : Fragment) : Fragment where
  vertices := f.vertices ++ g.vertices
  edges := f.edges ++ g.edges
  ends := f.ends ++ g.ends
  returned := f.returned ++ g.returned
  entered := f.entered

/-- A body and its handler, before anything final. -/
def protect (body handler : Fragment) : Fragment where
  vertices := body.vertices ++ handler.vertices
  edges := body.edges ++ handler.edges
  ends := unique (body.ends ++ handler.ends)
  returned := body.returned ++ handler.returned
  entered := if body.idle then body.entered ++ handler.ends else body.entered

/-- The exits from which a final part is entered: the ends, or where the function
would be left if there are none. -/
def finalEntry (f : Fragment) : List Exit :=
  if f.ends.isEmpty then f.returned.map (⟨·, ""⟩) else f.ends

/-- A protected part with its final part. If the function was about to be left,
it is left at the end of the final part instead. -/
def finish (f final : Fragment) : Fragment :=
  let joined : Fragment :=
    { vertices := f.vertices ++ final.vertices, edges := f.edges ++ final.edges
      ends := final.ends, returned := f.returned ++ final.returned, entered := f.entered }
  if f.ends.isEmpty then
    let leaving := unique (final.ends.map (·.source))
    { joined with
      ends := []
      returned := final.returned ++ leaving.filter (!final.returned.contains ·) }
  else joined

end Fragment

end Flow

namespace Outline

/-- Whether every case has a test, so that none of them need apply. -/
def allTested : Outline .cases → Bool
  | .noCase => true
  | .case _ _ test _ rest => test.isSome && rest.allTested

/-- The vertex of a straight run. -/
def blockVertex (text : Range → String) (r : Run) : Vertex := .block r.site (text r.site.range)

/-- The vertex of a decision. -/
def decisionVertex (text : Range → String) (caption : Caption) (d : Decision) : Vertex :=
  .decision caption d.site (d.code.map text)

/-- The caption of a case or a handler; a node of another kind in its place may have none. -/
def captionOf (kind : Kind) : Except Kind Caption :=
  match Caption.ofKind? kind with
  | some caption => .ok caption
  | none => .error kind

/-- The edge label of a case. -/
def caseLabel (text : Range → String) : Option Range → String
  | some test => text test
  | none => defaultLabel

/-- Lay down a part of an outline, with vertices numbered from `next` on and
entered from `entry`. It fails at a case or handler without a caption. -/
def emit (text : Range → String) : {p : Part} → Outline p → (next : Nat) → (entry : List Exit) →
    Except Kind Fragment
  | _, .done, _, entry => return .pass entry
  | _, .run r rest, next, entry =>
      if entry.isEmpty then return .pass entry
      else do
        let block := Fragment.vertex next (blockVertex text r) entry
        let first := if r.returns then block.leaving next else block
        return first.andThen (← rest.emit text (next + 1) first.ends)
  | _, .step _ construct rest, next, entry =>
      if entry.isEmpty then return .pass entry
      else do
        let first ← construct.emit text next entry
        return first.andThen (← rest.emit text (next + first.vertices.length) first.ends)
  | _, .nested inner, next, entry => inner.emit text next entry
  | _, .branch d yes no, next, entry => do
      let head := Fragment.vertex next (decisionVertex text .branch d) entry
      let y ← yes.emit text (next + 1) [⟨next, trueLabel⟩]
      let n ← no.emit text (next + 1 + y.vertices.length) [⟨next, falseLabel⟩]
      return head.fork y n
  | _, .loop style d body, next, entry => do
      let head := Fragment.vertex next (decisionVertex text style.caption d) entry
      let b ← body.emit text (next + 1) [⟨next, trueLabel⟩]
      return head.cycle next b
  | _, .choice d yes no, next, entry => do
      let head := Fragment.vertex next (decisionVertex text .ternary d) entry
      let y ← yes.emit text (next + 1) [⟨next, trueLabel⟩]
      let n ← no.emit text (next + 1 + y.vertices.length) [⟨next, falseLabel⟩]
      return head.fork y n
  | _, .switch d cases, next, entry => do
      let head := Fragment.vertex next (decisionVertex text .switch d) entry
      let c ← cases.emit text (next + 1) [⟨next, ""⟩]
      return head.select c (if cases.allTested then [⟨next, ""⟩] else [])
  | _, .guarded body handler final, next, entry => do
      let b ← body.emit text next entry
      let h ← handler.emit text (next + b.vertices.length) b.entered
      let guarded := b.protect h
      let f ← final.emit text (next + guarded.vertices.length) guarded.finalEntry
      return guarded.finish f
  | _, .noCase, _, entry => return .nothing entry
  | _, .case kind d test body rest, next, entry => do
      let caption ← captionOf kind
      let labelled := entry.map fun e => { e with label := caseLabel text test }
      let head := Fragment.vertex next (decisionVertex text caption d) labelled
      let b ← body.emit text (next + 1) head.ends
      let r ← rest.emit text (next + 1 + b.vertices.length) entry
      return (head.andThen b).alongside r
  | _, .noHandler, _, entry => return .nothing entry
  | _, .catch kind d body, next, entry => do
      let caption ← captionOf kind
      let head := Fragment.vertex next (decisionVertex text caption d) entry
      let b ← body.emit text (next + 1) head.ends
      return head.andThen b
  | _, .absent, _, entry => return .pass entry
  | _, .leaf site, next, entry => return .vertex next (.operand site (text site.range)) entry
  | _, .ternary d yes no, next, entry => do
      let head := Fragment.vertex next (decisionVertex text .ternary d) entry
      let y ← yes.emit text (next + 1) [⟨next, trueLabel⟩]
      let n ← no.emit text (next + 1 + y.vertices.length) [⟨next, falseLabel⟩]
      return head.fork y n

/-! ## What is not laid down -/

/-- Whether control can go on after a part. -/
def completes : {p : Part} → Outline p → Bool
  | _, .done => true
  | _, .run r rest => !r.returns && rest.completes
  | _, .step _ construct rest => construct.completes && rest.completes
  | _, .nested inner => inner.completes
  | _, .branch _ yes no => yes.completes || no.completes
  | _, .loop .. | _, .choice .. => true
  | _, .switch _ cases => cases.allTested || cases.completes
  | _, .guarded body handler final => (body.completes || handler.completes) && final.completes
  | _, .noCase => false
  | _, .case _ _ _ body rest => body.completes || rest.completes
  | _, .noHandler => false
  | _, .catch _ _ body => body.completes
  | _, .absent | _, .leaf _ | _, .ternary .. => true

/-- What is noticed while a part is laid down: statements that nothing leads to,
or a decision without a caption, at which the work ends. -/
inductive Notice where
  | skipped (count : Nat) (line : Int)
  | uncaptioned (kind : Kind)
  deriving DecidableEq, Repr

def statementCount : Outline .sequence → Nat
  | .done => 0
  | .run r rest => r.count + rest.statementCount
  | .step _ _ rest => 1 + rest.statementCount

/-- The notice that a whole sequence is skipped. -/
def skipped (o : Outline .sequence) : List Notice :=
  match o with
  | .done => []
  | .run r _ => [.skipped o.statementCount r.site.line]
  | .step line _ _ => [.skipped o.statementCount line]

def uncaptioned (kind : Kind) : List Notice :=
  match Caption.ofKind? kind with
  | some _ => []
  | none => [.uncaptioned kind]

/-- The notices of a part that is laid down, in order. -/
def notices : {p : Part} → Outline p → List Notice
  | _, .run r rest => if r.returns then rest.skipped else rest.notices
  | _, .step _ construct rest =>
      construct.notices ++ if construct.completes then rest.notices else rest.skipped
  | _, .nested inner => inner.notices
  | _, .branch _ yes no => yes.notices ++ no.notices
  | _, .loop _ _ body => body.notices
  | _, .switch _ cases => cases.notices
  | _, .guarded body handler final => body.notices ++ handler.notices ++ final.notices
  | _, .case kind _ _ body rest => uncaptioned kind ++ body.notices ++ rest.notices
  | _, .catch kind _ body => uncaptioned kind ++ body.notices
  | _, .done | _, .choice .. | _, .noCase | _, .noHandler | _, .absent | _, .leaf _
  | _, .ternary .. => []

end Outline

namespace Flow.Graph

/-- The edges to the exit: one from each vertex at which control ends. The entry
has one only if nothing else leads to the exit. -/
def exitEdges (sources : List Nat) (exit : Nat) : List Edge :=
  if sources = [0] then [⟨0, exit, ""⟩]
  else (sources.filter (· ≠ 0)).map fun source => ⟨source, exit, returnLabel⟩

/-- The graph around the fragment of a function's body. -/
def close (body : Fragment) : Graph :=
  let exit := 1 + body.vertices.length
  let sources := unique (body.ends.map (·.source) ++ body.returned)
  { vertices := (0, .entry) :: body.vertices ++ [(exit, .exit)]
    edges := body.edges ++ exitEdges sources exit }

/-- The graph of an outline. -/
def ofOutline (text : Range → String) (o : Outline .sequence) : Except Kind Graph :=
  return close (← o.emit text 1 [⟨0, ""⟩])

/-- The graph of a function. -/
def ofFunction (source : Bytes) (t : Tree) : Except Kind Graph :=
  ofOutline (Range.text source) (Outline.ofFunction t)

end Flow.Graph

end Cyclomatic
