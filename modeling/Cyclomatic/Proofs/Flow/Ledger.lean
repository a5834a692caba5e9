import Cyclomatic.Proofs.Flow.Faults

/-! # Building a graph with a ledger

A graph can also be drawn step by step: vertices and edges are added to a draft,
and a ledger lists the vertices at which control leaves the function so far. A
guarded part takes from the ledger what its body and handler have put there, to
go through its final part first; a loop reads back what its body has put there.
The draft comes to the same graph, and what is noted of every sequence that is
drawn tells whether control goes on after it.
-/

namespace Cyclomatic

open Cyclomatic.Flow

namespace Flow

/-- A sequence that has been drawn: the exits that led to it and those it left, and the ledger
before and after. -/
structure Drawn where
  outline : Outline .sequence
  entry : List Exit
  ends : List Exit
  before : List Nat
  after : List Nat

/-- A graph as far as it is drawn, with the ledger and the sequences that are finished. -/
structure Draft where
  vertices : List (Nat × Vertex) := []
  edges : List Edge := []
  ledger : List Nat := []
  finished : List Drawn := []

/-- Drawing may fail, and then the draft stays as far as it is. -/
abbrev Draw := EStateM Kind Draft

/-- What a part leaves behind: exits, the list of exits that led to it as that list is afterwards,
and whether the exits are that very list. -/
structure Left where
  ends : List Exit
  entered : List Exit
  idle : Bool := false

namespace Draft

/-- Add a vertex that some exits lead to. -/
def add (v : Vertex) (entry : List Exit) : Draw Nat := do
  let s ← get
  let id := s.vertices.length
  set { s with vertices := s.vertices ++ [(id, v)], edges := s.edges ++ connect entry id }
  return id

/-- The caption of a clause. -/
def caption (kind : Kind) : Draw Caption :=
  match Outline.captionOf kind with
  | .ok caption => return caption
  | .error kind => throw kind

/-- Put into the ledger what is not in it. -/
def enter : List Nat → List Nat → List Nat
  | ledger, [] => ledger
  | ledger, id :: ids => enter (if id ∈ ledger then ledger else ledger ++ [id]) ids

/-- Draw a sequence and note it. -/
def note (o : Outline .sequence) (entry : List Exit) (draw : Draw Left) : Draw Left := do
  let before := (← get).ledger
  let left ← draw
  modify fun s =>
    { s with finished := s.finished ++ [⟨o, entry, left.ends, before, s.ledger⟩] }
  return left

/-- Draw a final part. If every path was about to leave the function, what the ledger holds
behind the mark goes through the final part first, and the function is left at its ends. -/
def finishOff (final : Outline .sequence) (draw : List Exit → Draw Left) (mark : Nat)
    (guarded : Left) : Draw Left :=
  if guarded.ends.isEmpty then do
    let returned := ((← get).ledger.drop mark).map fun id => (⟨id, ""⟩ : Exit)
    modify fun s => { s with ledger := s.ledger.take mark }
    let f ← note final returned (draw returned)
    modify fun s => { s with ledger := enter s.ledger (f.ends.map (·.source)) }
    return ⟨[], guarded.entered, false⟩
  else do
    let f ← note final guarded.ends (draw guarded.ends)
    return ⟨f.ends, guarded.entered, false⟩

end Draft

end Flow

namespace Outline

open Cyclomatic.Flow.Draft

/-- Draw a part of an outline from some exits. -/
@[simp]
def draw (text : Range → String) : {p : Part} → Outline p → List Exit → Draw Left
  | _, .done, entry => return ⟨entry, entry, true⟩
  | _, .run r rest, entry =>
      if entry.isEmpty then return ⟨entry, entry, true⟩
      else do
        let id ← add (blockVertex text r) entry
        modify fun s => { s with ledger := s.ledger ++ if r.returns then [id] else [] }
        let left ← rest.draw text (if r.returns then [] else [⟨id, ""⟩])
        return ⟨left.ends, entry, false⟩
  | _, .step _ construct rest, entry =>
      if entry.isEmpty then return ⟨entry, entry, true⟩
      else do
        let first ← construct.draw text entry
        let left ← rest.draw text first.ends
        return ⟨left.ends, if first.idle then left.entered else first.entered,
          first.idle && left.idle⟩
  | _, .nested inner, entry => note inner entry (inner.draw text entry)
  | _, .branch d yes no, entry => do
      let id ← add (decisionVertex text .branch d) entry
      let y ← note yes [⟨id, trueLabel⟩] (yes.draw text [⟨id, trueLabel⟩])
      let n ← note no [⟨id, falseLabel⟩] (no.draw text [⟨id, falseLabel⟩])
      return ⟨unique (y.ends ++ n.ends), entry, false⟩
  | _, .loop style d body, entry => do
      let id ← add (decisionVertex text style.caption d) entry
      let mark := (← get).ledger.length
      let b ← note body [⟨id, trueLabel⟩] (body.draw text [⟨id, trueLabel⟩])
      -- If every path through the body leaves the function, the loop goes back from there.
      modify fun s =>
        let sources := if b.ends.isEmpty then s.ledger.drop mark else b.ends.map (·.source)
        { s with edges := s.edges ++ (unique sources).map fun source => ⟨source, id, loopLabel⟩ }
      return ⟨[⟨id, falseLabel⟩], entry, false⟩
  | _, .choice d yes no, entry => do
      let id ← add (decisionVertex text .ternary d) entry
      let y ← yes.draw text [⟨id, trueLabel⟩]
      let n ← no.draw text [⟨id, falseLabel⟩]
      return ⟨unique (y.ends ++ n.ends), entry, false⟩
  | _, .switch d cases, entry => do
      let id ← add (decisionVertex text .switch d) entry
      let c ← cases.draw text [⟨id, ""⟩]
      return ⟨unique (c.ends ++ if cases.allTested then [⟨id, ""⟩] else []), entry, false⟩
  | _, .guarded body handler final, entry => do
      let mark := (← get).ledger.length
      let b ← note body entry (body.draw text entry)
      let h ← handler.draw text b.entered
      finishOff final (final.draw text) mark
        ⟨unique (b.ends ++ h.ends), if b.idle then b.entered ++ h.ends else b.entered, false⟩
  | _, .noCase, entry => return ⟨[], entry, false⟩
  | _, .case kind d test body rest, entry => do
      let caption ← caption kind
      let labelled := entry.map fun e => { e with label := caseLabel text test }
      let id ← add (decisionVertex text caption d) labelled
      let b ← note body [⟨id, ""⟩] (body.draw text [⟨id, ""⟩])
      let r ← rest.draw text entry
      return ⟨b.ends ++ r.ends, labelled, false⟩
  | _, .noHandler, entry => return ⟨[], entry, false⟩
  | _, .catch kind d body, entry => do
      let caption ← caption kind
      let id ← add (decisionVertex text caption d) entry
      let b ← note body [⟨id, ""⟩] (body.draw text [⟨id, ""⟩])
      return ⟨b.ends, entry, false⟩
  | _, .absent, entry => return ⟨entry, entry, true⟩
  | _, .leaf site, entry => do
      let id ← add (.operand site (text site.range)) entry
      return ⟨[⟨id, ""⟩], entry, false⟩
  | _, .ternary d yes no, entry => do
      let id ← add (decisionVertex text .ternary d) entry
      let y ← yes.draw text [⟨id, trueLabel⟩]
      let n ← no.draw text [⟨id, falseLabel⟩]
      return ⟨unique (y.ends ++ n.ends), entry, false⟩

/-- The sequences that are drawn inside a part. -/
def inside : {p : Part} → Outline p → List (Outline .sequence)
  | _, .run r rest => if r.returns then [] else rest.inside
  | _, .step _ construct rest => construct.inside ++ if construct.completes then rest.inside else []
  | _, .nested inner => inner :: inner.inside
  | _, .branch _ yes no => yes :: yes.inside ++ no :: no.inside
  | _, .loop _ _ body => body :: body.inside
  | _, .switch _ cases => cases.inside
  | _, .guarded body handler final => body :: body.inside ++ handler.inside ++ final :: final.inside
  | _, .case _ _ _ body rest => body :: body.inside ++ rest.inside
  | _, .catch _ _ body => body :: body.inside
  | _, .done | _, .choice .. | _, .noCase | _, .noHandler | _, .absent | _, .leaf _
  | _, .ternary .. => []

end Outline

namespace Flow

open Draft Outline Fragment

/-! ## Steps of the draft -/

/-- After a step that succeeds, drawing goes on from the draft the step has left. -/
theorem bind_of_ok {α β : Type} {x : Draw α} {k : α → Draw β} {s s' : Draft} {a : α}
    (hx : x s = .ok a s') : (x >>= k) s = k a s' := by
  change EStateM.bind x k s = _
  rw [EStateM.bind, hx]

/-- A step that fails is the last one; the draft stays as it was left. -/
theorem bind_of_error {α β : Type} {x : Draw α} {k : α → Draw β} {s s' : Draft} {kind : Kind}
    (hx : x s = .error kind s') : (x >>= k) s = .error kind s' := by
  change EStateM.bind x k s = _
  rw [EStateM.bind, hx]

theorem get_bind {β : Type} (k : Draft → Draw β) (s : Draft) : (get >>= k) s = k s s := rfl

theorem modify_bind {β : Type} (change : Draft → Draft) (k : Unit → Draw β) (s : Draft) :
    (modify change >>= k) s = k () (change s) := rfl

/-- The draft with one more vertex. -/
def Draft.added (s : Draft) (v : Vertex) (entry : List Exit) : Draft :=
  { s with
    vertices := s.vertices ++ [(s.vertices.length, v)]
    edges := s.edges ++ connect entry s.vertices.length }

/-- A vertex is added under the next number, with edges from all exits that lead to it. -/
theorem add_bind {β : Type} (v : Vertex) (entry : List Exit) (k : Nat → Draw β) (s : Draft) :
    (add v entry >>= k) s = k s.vertices.length (s.added v entry) := rfl

/-- The ledger lists vertices that are drawn, each once. -/
structure Draft.Ready (s : Draft) : Prop where
  nodup : s.ledger.Nodup
  bound : ∀ i ∈ s.ledger, i < s.vertices.length

/-- A draft has grown by a fragment. -/
structure Draft.Grew (s s' : Draft) (f : Fragment) : Prop where
  vertices : s'.vertices = s.vertices ++ f.vertices
  edges : s'.edges = s.edges ++ f.edges
  ledger : s'.ledger = s.ledger ++ f.returned

/-- A sequence that was drawn is one of those that are known. It decides whether control goes on
after it, and the ledger has only grown, by at least one vertex if control does not go on. -/
structure Drawn.Sound (known : Outline .sequence → Prop) (c : Drawn) : Prop where
  outline : known c.outline
  entry : c.entry ≠ []
  ends : c.ends = [] ↔ c.outline.completes = false
  left : c.ends = [] → c.before.length < c.after.length
  kept : c.before <+: c.after
  nodup : c.after.Nodup

def Fragment.left (f : Fragment) : Left := ⟨f.ends, f.entered, f.idle⟩

/-- A draft in good order. -/
structure Draft.Good (known : Outline .sequence → Prop) (s : Draft) : Prop extends s.Ready where
  sound : ∀ c ∈ s.finished, c.Sound known

/-- To draw comes to the same as to lay down, seen from some draft before. -/
inductive Draws (known : Outline .sequence → Prop) (s : Draft) :
    EStateM.Result Kind Draft Left → Except Kind Fragment → Prop
  | ok {s' f} (hgrew : s.Grew s' f) (hgood : s'.Good known) : Draws known s (.ok f.left s') (.ok f)
  | error {s' kind} (hsound : ∀ c ∈ s'.finished, c.Sound known) :
      Draws known s (.error kind s') (.error kind)

variable {known : Outline .sequence → Prop}

/-- What follows is drawn from a draft that has grown by the fragment of the first part. If the
first part fails, nothing follows on either side. -/
theorem Draws.bind {s s₀ : Draft} {x : Draw Left} {k : Left → Draw Left} {e : Except Kind Fragment}
    {g : Fragment → Except Kind Fragment} (hx : Draws known s (x s) e)
    (hk : ∀ f s', e = .ok f → s.Grew s' f → s'.Good known → Draws known s₀ (k f.left s') (g f)) :
    Draws known s₀ ((x >>= k) s) (e >>= g) := by
  generalize hresult : x s = result at hx
  cases hx with
  | ok hgrew hgood =>
      rw [bind_of_ok hresult]
      exact hk _ _ rfl hgrew hgood
  | error hsound =>
      rw [bind_of_error hresult]
      exact .error hsound

/-- A caption is looked up before anything is drawn, so that a missing one leaves the draft as it
is. -/
theorem draws_caption {s s₀ : Draft} {kind : Kind} {k : Caption → Draw Left}
    {g : Caption → Except Kind Fragment} (hs : s.Good known)
    (hk : ∀ c, captionOf kind = .ok c → Draws known s₀ (k c s) (g c)) :
    Draws known s₀ ((caption kind >>= k) s) (captionOf kind >>= g) := by
  have hcaption : caption kind s = match captionOf kind with
      | .ok c => .ok c s
      | .error kind => .error kind s := by
    rw [caption]
    cases captionOf kind <;> rfl
  cases hkind : captionOf kind with
  | ok c =>
      rw [hkind] at hcaption
      rw [bind_of_ok hcaption]
      exact hk c hkind
  | error kind =>
      rw [hkind] at hcaption
      rw [bind_of_error hcaption]
      exact .error hs.sound

/-- A vertex may be added to a draft in good order. -/
theorem Draft.Good.added {s : Draft} (hs : s.Good known) (v : Vertex) (entry : List Exit) :
    (s.added v entry).Good known where
  nodup := hs.nodup
  bound i hi := by
    have hlt := hs.bound i hi
    simp only [Draft.added, List.length_append, List.length_singleton]
    omega
  sound := hs.sound

/-- To add a vertex is to grow by the fragment of that vertex. -/
theorem grew_added (s : Draft) (v : Vertex) (entry : List Exit) :
    s.Grew (s.added v entry) (.vertex s.vertices.length v entry) where
  vertices := rfl
  edges := rfl
  ledger := (List.append_nil _).symm

theorem Draft.Grew.length {s s' : Draft} {f : Fragment} (hgrew : s.Grew s' f) :
    s'.vertices.length = s.vertices.length + f.vertices.length := by
  rw [hgrew.vertices, List.length_append]

/-- A draft that grows twice has grown by both fragments in sequence. -/
theorem Draft.Grew.andThen {s s' s'' : Draft} {f g : Fragment} (hf : s.Grew s' f)
    (hg : s'.Grew s'' g) : s.Grew s'' (f.andThen g) where
  vertices := by rw [hg.vertices, hf.vertices, List.append_assoc]; rfl
  edges := by rw [hg.edges, hf.edges, List.append_assoc]; rfl
  ledger := by rw [hg.ledger, hf.ledger, List.append_assoc]; rfl

variable {text : Range → String} {entry : List Exit} {s : Draft}

/-- Where no exit leads, nothing is drawn. -/
theorem draw_nil (o : Outline .sequence) (s : Draft) :
    o.draw text [] s = .ok (Fragment.pass []).left s := by
  cases o with
  | done => rfl
  | run r rest => rfl
  | step line construct rest => rfl

theorem grew_pass (s : Draft) (entry : List Exit) : s.Grew s (.pass entry) :=
  ⟨(List.append_nil _).symm, (List.append_nil _).symm, (List.append_nil _).symm⟩

theorem grew_nothing (s : Draft) (entry : List Exit) : s.Grew s (.nothing entry) :=
  ⟨(List.append_nil _).symm, (List.append_nil _).symm, (List.append_nil _).symm⟩

/-- To draw a part step by step comes to the same as to lay it down. -/
def Drawable (text : Range → String) (known : Outline .sequence → Prop) {p : Part}
    (o : Outline p) : Prop :=
  ∀ {entry : List Exit} {s : Draft}, entry ≠ [] → s.Good known →
    Draws known s (o.draw text entry s) (o.emit text s.vertices.length entry)

/-- A sequence that may be noted. -/
structure Notable (text : Range → String) (known : Outline .sequence → Prop)
    (o : Outline .sequence) : Prop where
  outline : known o
  drawable : Drawable text known o

/-- A sequence that is drawn as it is laid down is noted soundly. -/
theorem Notable.note {o : Outline .sequence} (ho : Notable text known o) (hentry : entry ≠ [])
    (hs : s.Good known) :
    Draws known s (note o entry (o.draw text entry) s) (o.emit text s.vertices.length entry) := by
  have hdraw := ho.drawable hentry hs
  generalize hresult : o.draw text entry s = result at hdraw
  generalize hemit : o.emit text s.vertices.length entry = emitted at hdraw ⊢
  rw [Draft.note, get_bind]
  cases hdraw with
  | error hsound =>
      rw [bind_of_error hresult]
      exact .error hsound
  | ok hgrew hgood =>
      rw [bind_of_ok hresult, modify_bind]
      refine .ok ⟨hgrew.vertices, hgrew.edges, hgrew.ledger⟩ ⟨⟨hgood.nodup, hgood.bound⟩, ?_⟩
      intro c hc
      rcases List.mem_append.mp hc with hc | hc
      · exact hgood.sound c hc
      · obtain rfl := List.mem_singleton.mp hc
        have hforetells := (emit_eq_ok_iff.mp hemit).foretells hentry
        refine ⟨ho.outline, hentry, hforetells.ends, fun hends => ?_, ?_, hgood.nodup⟩
        · have hreturn := mayReturn_of_not_completes (hforetells.ends.mp hends)
          have hreturned := List.length_pos_iff.mpr fun hnil =>
            absurd (hforetells.returned.mp hnil) (by simp [hreturn])
          simp only [hgrew.ledger, List.length_append]
          omega
        · simp only [hgrew.ledger]
          exact List.prefix_append _ _

/-- What follows in a sequence is not drawn if nothing leads to it. -/
theorem draws_rest {o : Outline .sequence} (entry : List Exit)
    (ho : entry ≠ [] → Drawable text known o) (hs : s.Good known) :
    Draws known s (o.draw text entry s) (o.emit text s.vertices.length entry) := by
  by_cases hentry : entry = []
  · rw [hentry, draw_nil, emit_nil]
    exact .ok (grew_pass s []) hs
  · exact ho hentry hentry hs

theorem length_added (s : Draft) (v : Vertex) (entry : List Exit) :
    (s.added v entry).vertices.length = s.vertices.length + 1 := by
  simp [Draft.added]

/-! ## What each part adds -/

section

variable {s₁ s₂ s₃ : Draft} {v : Vertex} {f g y n b h c : Fragment} {next : Nat}

/-- The vertex just added may go into the ledger, for it is not in it yet. -/
theorem good_returned (hs : s.Good known) (v : Vertex) (entry : List Exit) :
    Good known { s.added v entry with ledger := s.ledger ++ [s.vertices.length] } where
  nodup := by
    refine List.nodup_append.mpr ⟨hs.nodup, by simp, ?_⟩
    rintro i hi _ hlast rfl
    obtain rfl := List.mem_singleton.mp hlast
    exact Nat.lt_irrefl _ (hs.bound _ hi)
  bound i hi := by
    change i < (s.added v entry).vertices.length
    rw [length_added]
    rcases List.mem_append.mp hi with hi | hi
    · exact Nat.lt_succ_of_lt (hs.bound i hi)
    · exact Nat.lt_succ_of_le (Nat.le_of_eq (List.mem_singleton.mp hi))
  sound := hs.sound

/-- To add a vertex and put it into the ledger is to grow by a vertex where the function is left. -/
theorem grew_returned (s : Draft) (v : Vertex) (entry : List Exit) :
    s.Grew { s.added v entry with ledger := s.ledger ++ [s.vertices.length] }
      ((Fragment.vertex s.vertices.length v entry).leaving s.vertices.length) where
  vertices := rfl
  edges := rfl
  ledger := rfl

/-- A draft that grows by a decision and then by its sides has grown by the whole. -/
theorem grew_fork (hhead : s.Grew s₁ (.vertex next v entry)) (hy : s₁.Grew s₂ y)
    (hn : s₂.Grew s₃ n) : s.Grew s₃ ((Fragment.vertex next v entry).fork y n) where
  vertices := by rw [hn.vertices, hy.vertices, hhead.vertices]; simp [Fragment.fork]
  edges := by rw [hn.edges, hy.edges, hhead.edges]; simp [Fragment.fork]
  ledger := by rw [hn.ledger, hy.ledger, hhead.ledger]; simp [Fragment.fork, Fragment.vertex]

theorem grew_select (hhead : s.Grew s₁ (.vertex next v entry)) (hc : s₁.Grew s₂ c)
    (own : List Exit) : s.Grew s₂ ((Fragment.vertex next v entry).select c own) where
  vertices := by rw [hc.vertices, hhead.vertices]; simp [Fragment.select]
  edges := by rw [hc.edges, hhead.edges]; simp [Fragment.select]
  ledger := by rw [hc.ledger, hhead.ledger]; simp [Fragment.select, Fragment.vertex]

theorem grew_alongside (hf : s.Grew s₁ f) (hg : s₁.Grew s₂ g) : s.Grew s₂ (f.alongside g) where
  vertices := by rw [hg.vertices, hf.vertices]; simp [Fragment.alongside]
  edges := by rw [hg.edges, hf.edges]; simp [Fragment.alongside]
  ledger := by rw [hg.ledger, hf.ledger]; simp [Fragment.alongside]

/-- A draft that grows by a block and then by its handler has grown by the guarded block. -/
theorem grew_protect (hb : s.Grew s₁ b) (hh : s₁.Grew s₂ h) : s.Grew s₂ (b.protect h) where
  vertices := by rw [hh.vertices, hb.vertices]; simp [Fragment.protect]
  edges := by rw [hh.edges, hb.edges]; simp [Fragment.protect]
  ledger := by rw [hh.ledger, hb.ledger]; simp [Fragment.protect]

/-- What a part has put into the ledger is what is there behind the mark. -/
theorem Draft.Grew.drop_ledger (hf : s.Grew s₁ f) :
    s₁.ledger.drop s.ledger.length = f.returned := by
  rw [hf.ledger, List.drop_left]

/-- A ledger only grows, so what was in it can be taken from its front. -/
theorem Draft.Grew.take_ledger (hf : s.Grew s₁ f) :
    s₁.ledger.take s.ledger.length = s.ledger := by
  rw [hf.ledger, List.take_left]

/-- A loop goes back from the ends of its body, or from what its body has put into the ledger. -/
theorem grew_cycle (hhead : s.Grew s₁ (.vertex next v entry)) (hb : s₁.Grew s₂ b) :
    s.Grew
      { s₂ with
        edges := s₂.edges ++ (unique (if b.ends.isEmpty then s₂.ledger.drop s₁.ledger.length
          else b.ends.map (·.source))).map fun source => ⟨source, next, loopLabel⟩ }
      ((Fragment.vertex next v entry).cycle next b) where
  vertices := by
    change s₂.vertices = _
    rw [hb.vertices, hhead.vertices]
    simp [Fragment.cycle]
  edges := by
    rw [hb.drop_ledger, hb.edges, hhead.edges]
    simp [Fragment.cycle, Fragment.backSources]
  ledger := by
    change s₂.ledger = _
    rw [hb.ledger, hhead.ledger]
    simp [Fragment.cycle, Fragment.vertex]

/-- What is put into a ledger goes to its end, each once and only if it was not there. -/
theorem enter_eq (ledger ids : List Nat) :
    enter ledger ids = ledger ++ (unique ids).filter (· ∉ ledger) := by
  induction ids generalizing ledger with
  | nil => simp [enter, unique]
  | cons id ids ih =>
      rw [enter, ih, unique]
      by_cases hid : id ∈ ledger
      · have hfilter : ((unique ids).filter (· ≠ id)).filter (· ∉ ledger) =
            (unique ids).filter (· ∉ ledger) := by
          rw [List.filter_filter]
          refine List.filter_congr fun i _ => ?_
          by_cases hi : i = id
          · simp [hi, hid]
          · simp [hi]
        rw [if_pos hid, List.filter_cons_of_neg (by simpa using hid), hfilter]
      · rw [if_neg hid, List.filter_cons_of_pos (by simpa using hid), List.append_assoc,
          List.singleton_append, List.filter_filter]
        refine congrArg (ledger ++ id :: ·) (List.filter_congr fun i _ => ?_)
        simp

/-- Vertices that are in the draft may go into its ledger. -/
theorem good_entered (hs : s.Good known) {ids : List Nat}
    (hids : ∀ i ∈ ids, i < s.vertices.length) :
    Good known { s with ledger := enter s.ledger ids } where
  nodup := by
    rw [enter_eq]
    refine List.nodup_append.mpr ⟨hs.nodup, (nodup_unique ids).filter _, ?_⟩
    rintro i hi _ hnew rfl
    simpa [hi] using (List.mem_filter.mp hnew).2
  bound i hi := by
    rw [enter_eq] at hi
    rcases List.mem_append.mp hi with hi | hi
    · exact hs.bound i hi
    · exact hids i (mem_unique.mp (List.mem_of_mem_filter hi))
  sound := hs.sound

/-- A draft that grows by a block and then by its final part has grown by the whole, if control
can fall through to the final part. -/
theorem grew_finish (hf : s.Grew s₁ f) (hg : s₁.Grew s₂ g) (hends : f.ends ≠ []) :
    s.Grew s₂ (f.finish g) where
  vertices := by rw [hg.vertices, hf.vertices, vertices_finish, List.append_assoc]
  edges := by rw [hg.edges, hf.edges, edges_finish, List.append_assoc]
  ledger := by rw [hg.ledger, hf.ledger, returned_finish_of_ne_nil hends, List.append_assoc]

/-- What is behind the mark is taken out of the ledger. -/
theorem good_back (hs : s.Good known) (hgrew : s.Grew s₁ f) (hgood : s₁.Good known) :
    Good known { s₁ with ledger := s.ledger } where
  nodup := hs.nodup
  bound i hi := by
    change i < s₁.vertices.length
    have hlt := hs.bound i hi
    have hlength := hgrew.length
    omega
  sound := hgood.sound

/-- A final part that is gone through before the function is left: what was behind the mark is
taken out of the ledger, and the ends of the final part are entered. -/
theorem grew_finish_of_nil (hf : s.Grew s₁ f) (hg : Grew { s₁ with ledger := s.ledger } s₂ g)
    (hends : f.ends = []) (hnew : ∀ i ∈ sources g.ends, i ∉ s.ledger) :
    s.Grew { s₂ with ledger := enter s₂.ledger (sources g.ends) } (f.finish g) where
  vertices := by
    change s₂.vertices = _
    rw [hg.vertices, vertices_finish, ← List.append_assoc, ← hf.vertices]
  edges := by
    change s₂.edges = _
    rw [hg.edges, edges_finish, ← List.append_assoc, ← hf.edges]
  ledger := by
    have hfilter : (unique (sources g.ends)).filter (· ∉ s.ledger ++ g.returned) =
        (unique (sources g.ends)).filter (!g.returned.contains ·) := by
      refine List.filter_congr fun i hi => ?_
      simp [hnew i (mem_unique.mp hi)]
    rw [enter_eq, hg.ledger, hfilter, List.append_assoc]
    simp [Fragment.finish, hends, sources]

end

/-! ## Drawing and laying down -/

namespace Drawable

theorem isEmpty_eq_false (hentry : entry ≠ []) : ¬entry.isEmpty = true :=
  fun hempty => hentry (List.isEmpty_iff.mp hempty)

/-- A straight run can be drawn if the rest can, or if the run leaves the function. -/
theorem run {r : Run} {rest : Outline .sequence}
    (hrest : r.returns = false → Drawable text known rest) : Drawable text known (.run r rest) := by
  intro entry s hentry hs
  rw [draw, emit, if_neg (isEmpty_eq_false hentry), if_neg (isEmpty_eq_false hentry), add_bind,
    modify_bind]
  cases hreturns : r.returns with
  | true =>
      -- The function is left here, and the rest is not drawn.
      have hgood := good_returned hs (blockVertex text r) entry
      have hdrawable : [] ≠ ([] : List Exit) → Drawable text known rest := absurd rfl
      have hdraws := draws_rest [] hdrawable hgood
      change Draws known _ _ (rest.emit text (s.added _ entry).vertices.length []) at hdraws
      rw [length_added] at hdraws
      exact hdraws.bind fun g s₁ _ hg hgood => .ok ((grew_returned ..).andThen hg) hgood
  | false =>
      have hgood := hs.added (blockVertex text r) entry
      have hdraws := hrest hreturns (List.cons_ne_nil ⟨s.vertices.length, ""⟩ []) hgood
      rw [length_added] at hdraws
      simp only [Bool.false_eq_true, if_false, List.append_nil]
      exact hdraws.bind fun g s₁ _ hg hgood => .ok ((grew_added ..).andThen hg) hgood

/-- A construct can be drawn with what follows it if both can. The rest is not asked for where
control does not go on. -/
theorem step {line : Int} {construct : Outline .construct} {rest : Outline .sequence}
    (hfirst : Drawable text known construct)
    (hrest : construct.completes = true → Drawable text known rest) :
    Drawable text known (.step line construct rest) := by
  intro entry s hentry hs
  rw [draw, emit, if_neg (isEmpty_eq_false hentry), if_neg (isEmpty_eq_false hentry)]
  refine (hfirst hentry hs).bind fun f s₁ hemit hf hgood => ?_
  have hends := ((emit_eq_ok_iff.mp hemit).foretells hentry).ends
  have hdraws := draws_rest f.ends (fun hne => hrest (by simpa [hends] using hne)) hgood
  rw [hf.length] at hdraws
  exact hdraws.bind fun g s₂ _ hg hgood => .ok (hf.andThen hg) hgood

/-- A branch can be drawn if its sides can be drawn and noted. -/
theorem branch {d : Decision} {yes no : Outline .sequence} (hyes : Notable text known yes)
    (hno : Notable text known no) : Drawable text known (.branch d yes no) := by
  intro entry s _ hs
  rw [draw, emit, add_bind]
  have hdrawsYes := hyes.note (List.cons_ne_nil ⟨s.vertices.length, trueLabel⟩ [])
    (hs.added (decisionVertex text .branch d) entry)
  rw [length_added] at hdrawsYes
  refine hdrawsYes.bind fun y s₁ _ hy hgood => ?_
  have hdrawsNo := hno.note (List.cons_ne_nil ⟨s.vertices.length, falseLabel⟩ []) hgood
  rw [hy.length, length_added] at hdrawsNo
  exact hdrawsNo.bind fun n s₂ _ hn hgood => .ok (grew_fork (grew_added ..) hy hn) hgood

/-- A loop can be drawn if its body can be drawn and noted. The edges back are drawn when the body
is done. -/
theorem loop {style : Loop} {d : Decision} {body : Outline .sequence}
    (hbody : Notable text known body) : Drawable text known (.loop style d body) := by
  intro entry s _ hs
  rw [draw, emit, add_bind, get_bind]
  have hdraws := hbody.note (List.cons_ne_nil ⟨s.vertices.length, trueLabel⟩ [])
    (hs.added (decisionVertex text style.caption d) entry)
  rw [length_added] at hdraws
  refine hdraws.bind fun b s₁ _ hb hgood => ?_
  exact .ok (grew_cycle (grew_added ..) hb) ⟨⟨hgood.nodup, hgood.bound⟩, hgood.sound⟩

/-- Both forms of a ternary. -/
theorem fork {v : Vertex} {yes no : Outline .operand} (hyes : Drawable text known yes)
    (hno : Drawable text known no) (hs : s.Good known) (entry : List Exit) :
    Draws known s
      ((do
        let id ← add v entry
        let y ← yes.draw text [⟨id, trueLabel⟩]
        let n ← no.draw text [⟨id, falseLabel⟩]
        return ⟨unique (y.ends ++ n.ends), entry, false⟩ : Draw Left) s)
      (do
        let y ← yes.emit text (s.vertices.length + 1) [⟨s.vertices.length, trueLabel⟩]
        let n ← no.emit text (s.vertices.length + 1 + y.vertices.length)
          [⟨s.vertices.length, falseLabel⟩]
        return (Fragment.vertex s.vertices.length v entry).fork y n) := by
  rw [add_bind]
  have hdrawsYes := hyes (List.cons_ne_nil ⟨s.vertices.length, trueLabel⟩ []) (hs.added v entry)
  rw [length_added] at hdrawsYes
  refine hdrawsYes.bind fun y s₁ _ hy hgood => ?_
  have hdrawsNo := hno (List.cons_ne_nil ⟨s.vertices.length, falseLabel⟩ []) hgood
  rw [hy.length, length_added] at hdrawsNo
  exact hdrawsNo.bind fun n s₂ _ hn hgood => .ok (grew_fork (grew_added ..) hy hn) hgood

theorem choice {d : Decision} {yes no : Outline .operand} (hyes : Drawable text known yes)
    (hno : Drawable text known no) : Drawable text known (.choice d yes no) := by
  intro entry s _ hs
  rw [draw, emit]
  exact hyes.fork hno hs entry

theorem ternary {d : Decision} {yes no : Outline .operand} (hyes : Drawable text known yes)
    (hno : Drawable text known no) : Drawable text known (.ternary d yes no) := by
  intro entry s _ hs
  rw [draw, emit]
  exact hyes.fork hno hs entry

/-- A multiway branch can be drawn if its cases can. -/
theorem switch {d : Decision} {cases : Outline .cases} (hcases : Drawable text known cases) :
    Drawable text known (.switch d cases) := by
  intro entry s _ hs
  rw [draw, emit, add_bind]
  have hdraws := hcases (List.cons_ne_nil ⟨s.vertices.length, ""⟩ [])
    (hs.added (decisionVertex text .switch d) entry)
  rw [length_added] at hdraws
  exact hdraws.bind fun c s₁ _ hc hgood => .ok (grew_select (grew_added ..) hc _) hgood

/-- A case can be drawn with the later ones if its statements can be drawn and noted. -/
theorem case {kind : Kind} {d : Decision} {test : Option Range} {body : Outline .sequence}
    {rest : Outline .cases} (hbody : Notable text known body) (hrest : Drawable text known rest) :
    Drawable text known (.case kind d test body rest) := by
  intro entry s hentry hs
  rw [draw, emit]
  refine draws_caption hs fun caption _ => ?_
  rw [add_bind]
  have hdraws := hbody.note (List.cons_ne_nil ⟨s.vertices.length, ""⟩ [])
    (hs.added (decisionVertex text caption d)
      (entry.map fun e => { e with label := caseLabel text test }))
  rw [length_added] at hdraws
  refine hdraws.bind fun b s₁ _ hb hgood => ?_
  have hdrawsRest := hrest hentry hgood
  rw [hb.length, length_added] at hdrawsRest
  exact hdrawsRest.bind fun r s₂ _ hr hgood =>
    .ok (grew_alongside ((grew_added ..).andThen hb) hr) hgood

/-- A handler can be drawn if its body can be drawn and noted. -/
theorem caught {kind : Kind} {d : Decision} {body : Outline .sequence}
    (hbody : Notable text known body) : Drawable text known (.catch kind d body) := by
  intro entry s hentry hs
  rw [draw, emit]
  refine draws_caption hs fun caption _ => ?_
  rw [add_bind]
  have hdraws := hbody.note (List.cons_ne_nil ⟨s.vertices.length, ""⟩ [])
    (hs.added (decisionVertex text caption d) entry)
  rw [length_added] at hdraws
  exact hdraws.bind fun b s₁ _ hb hgood => .ok ((grew_added ..).andThen hb) hgood

/-- A final part is drawn behind what has been drawn so far. Where control cannot fall through to
it, what that has left in the ledger is taken out, and the ends of the final part are entered. -/
theorem finishOff {final : Outline .sequence} {s₁ : Draft} {g : Fragment}
    (hfinal : Notable text known final) (hs : s.Good known) (hgood : s₁.Good known)
    (hgrew : s.Grew s₁ g)
    (hplaced : g.Placed s.vertices.length entry) (hentry : g.finalEntry ≠ []) :
    Draws known s (finishOff final (final.draw text) s.ledger.length g.left s₁)
      (do
        let f ← final.emit text (s.vertices.length + g.vertices.length) g.finalEntry
        return g.finish f) := by
  rw [Draft.finishOff]
  by_cases hends : g.ends = []
  · have hempty : g.left.ends.isEmpty = true := List.isEmpty_iff.mpr hends
    rw [if_pos hempty, get_bind, hgrew.drop_ledger, modify_bind, hgrew.take_ledger]
    rw [finalEntry_of_nil hends] at hentry ⊢
    have hdraws := hfinal.note hentry (good_back hs hgrew hgood)
    change Draws known _ _ (final.emit text s₁.vertices.length _) at hdraws
    rw [hgrew.length] at hdraws
    refine hdraws.bind fun f s₂ hemit hf hgood => ?_
    -- The final part ends at vertices that are new since the mark.
    have hids : ∀ i ∈ sources f.ends, s.vertices.length ≤ i ∧ i < s₂.vertices.length := by
      intro i hi
      have hlength : s₂.vertices.length =
          s.vertices.length + g.vertices.length + f.vertices.length := by
        rw [hf.length, ← hgrew.length]
      rcases (emit_eq_ok_iff.mp hemit).placed.ends i hi with hi | hi
      · rw [sources_map_exit] at hi
        have howns := hplaced.returned i hi
        unfold Owns at howns
        omega
      · unfold Owns at hi
        omega
    rw [modify_bind]
    have hleft : (g.finish f).left = ⟨[], g.entered, false⟩ := by
      simp [Fragment.left, ends_finish_of_nil hends]
    have hnew : ∀ i ∈ sources f.ends, i ∉ s.ledger := fun i hi hmem =>
      absurd (hs.bound i hmem) (Nat.not_lt.mpr (hids i hi).1)
    have hresult := Draws.ok (grew_finish_of_nil hgrew hf hends hnew)
      (good_entered hgood fun i hi => (hids i hi).2)
    rwa [hleft] at hresult
  · have hne : ¬g.left.ends.isEmpty = true := isEmpty_eq_false hends
    rw [if_neg hne]
    have hdraws := hfinal.note hends hgood
    rw [hgrew.length] at hdraws
    rw [finalEntry_of_ne_nil hends]
    refine hdraws.bind fun f s₂ _ hf hgood => ?_
    have hleft : (g.finish f).left = ⟨f.ends, g.entered, false⟩ := by
      simp [Fragment.left, ends_finish_of_ne_nil hends]
    have hresult := Draws.ok (grew_finish hgrew hf hends) hgood
    rwa [hleft] at hresult

/-- A guarded block can be drawn if its body, its handler and its final part can. -/
theorem guarded {body final : Outline .sequence} {handler : Outline .handler}
    (hbody : Notable text known body) (hhandler : Drawable text known handler)
    (hfinal : Notable text known final) : Drawable text known (.guarded body handler final) := by
  intro entry s hentry hs
  rw [draw, emit, get_bind]
  refine (hbody.note hentry hs).bind fun b s₁ hb hgrewBody hgood => ?_
  have hbEmits := emit_eq_ok_iff.mp hb
  have hdraws := hhandler (hbEmits.entered_ne_nil hentry) hgood
  rw [hgrewBody.length] at hdraws
  refine hdraws.bind fun h s₂ hh hgrewHandler hgood => ?_
  have hhEmits := emit_eq_ok_iff.mp hh
  have hfinalEntry := (hbEmits.foretells hentry).finalEntry_ne_nil
    (hhEmits.foretells (hbEmits.entered_ne_nil hentry))
  exact finishOff hfinal hs hgood (grew_protect hgrewBody hgrewHandler)
    (hbEmits.placed.protect hhEmits.placed) hfinalEntry

end Drawable

theorem inside_operand (o : Outline .operand) : o.inside = [] := by
  cases o <;> rfl

/-- To draw comes to the same as to lay down, whatever the part. -/
theorem drawable {p : Part} (o : Outline p) (hknown : ∀ q ∈ o.inside, known q) :
    Drawable text known o := by
  induction o with
  | done | absent => exact fun _ hs => .ok (grew_pass ..) hs
  | noCase | noHandler => exact fun _ hs => .ok (grew_nothing ..) hs
  | leaf site => exact fun _ hs => .ok (grew_added ..) (hs.added ..)
  | run r rest ih =>
      refine Drawable.run fun hreturns => ih ?_
      simpa [inside, hreturns] using hknown
  | step line construct rest ihFirst ihRest =>
      simp only [inside, List.forall_mem_append] at hknown
      refine Drawable.step (ihFirst hknown.1) fun hcompletes => ihRest ?_
      simpa [hcompletes] using hknown.2
  | nested inner ih =>
      obtain ⟨hinner, hinside⟩ := List.forall_mem_cons.mp hknown
      exact (Notable.mk hinner (ih hinside)).note
  | branch d yes no ihYes ihNo =>
      simp only [inside, List.cons_append, List.forall_mem_cons, List.forall_mem_append] at hknown
      obtain ⟨hyes, hyesInside, hno, hnoInside⟩ := hknown
      exact Drawable.branch ⟨hyes, ihYes hyesInside⟩ ⟨hno, ihNo hnoInside⟩
  | loop style d body ih =>
      obtain ⟨hbody, hinside⟩ := List.forall_mem_cons.mp hknown
      exact Drawable.loop ⟨hbody, ih hinside⟩
  | choice d yes no ihYes ihNo =>
      exact Drawable.choice (ihYes (by simp [inside_operand])) (ihNo (by simp [inside_operand]))
  | ternary d yes no ihYes ihNo =>
      exact Drawable.ternary (ihYes (by simp [inside_operand])) (ihNo (by simp [inside_operand]))
  | switch d cases ih => exact Drawable.switch (ih hknown)
  | guarded body handler final ihBody ihHandler ihFinal =>
      simp only [inside, List.cons_append, List.append_assoc, List.forall_mem_cons,
        List.forall_mem_append] at hknown
      obtain ⟨hbody, hbodyInside, hhandler, hfinal, hfinalInside⟩ := hknown
      exact Drawable.guarded ⟨hbody, ihBody hbodyInside⟩ (ihHandler hhandler)
        ⟨hfinal, ihFinal hfinalInside⟩
  | case kind d test body rest ihBody ihRest =>
      simp only [inside, List.cons_append, List.forall_mem_cons, List.forall_mem_append] at hknown
      exact Drawable.case ⟨hknown.1, ihBody hknown.2.1⟩ (ihRest hknown.2.2)
  | «catch» kind d body ih =>
      obtain ⟨hbody, hinside⟩ := List.forall_mem_cons.mp hknown
      exact Drawable.caught ⟨hbody, ih hinside⟩

/-! ## The graph of a function -/

/-- Draw the entry of a function, its body and its exit. -/
def Draft.drawFunction (source : Bytes) (t : Tree) : Draw Graph := do
  let body := Outline.ofFunction t
  let entry ← add .entry []
  let left ← note body [⟨entry, ""⟩] (body.draw (Range.text source) [⟨entry, ""⟩])
  let exit ← add .exit []
  let s ← get
  let ends := unique (left.ends.map (·.source) ++ s.ledger)
  return ⟨s.vertices, s.edges ++ Graph.exitEdges ends exit⟩

/-- What comes of drawing a function: its graph, or the kind at which the drawing ended, and the
sequences that were finished by then. -/
structure Drawing where
  graph : Except Kind Graph
  sequences : List Drawn

def Drawing.ofFunction (source : Bytes) (t : Tree) : Drawing :=
  match drawFunction source t {} with
  | .ok g s => ⟨.ok g, s.finished⟩
  | .error kind s => ⟨.error kind, s.finished⟩

/-- The graph that is drawn is the graph of the function, and all that is noted is sound. -/
theorem Drawing.ofFunction_sound (source : Bytes) (t : Tree)
    (hknown : ∀ q ∈ Outline.ofFunction t :: (Outline.ofFunction t).inside, known q) :
    (ofFunction source t).graph = Graph.ofFunction source t ∧
      ∀ c ∈ (ofFunction source t).sequences, c.Sound known := by
  obtain ⟨hbody, hinside⟩ := List.forall_mem_cons.mp hknown
  have hstart : Good known {} := ⟨⟨List.nodup_nil, nofun⟩, nofun⟩
  have hnotable : Notable (Range.text source) known (Outline.ofFunction t) :=
    ⟨hbody, drawable _ hinside⟩
  have hdraws := hnotable.note (List.cons_ne_nil ⟨({} : Draft).vertices.length, ""⟩ [])
    (hstart.added .entry [])
  change Draws known _ _ ((Outline.ofFunction t).emit (Range.text source) 1 [⟨0, ""⟩]) at hdraws
  rw [ofFunction, drawFunction, add_bind, Graph.ofFunction, Graph.ofOutline]
  generalize hresult : note (Outline.ofFunction t) _ _ _ = result at hdraws
  generalize (Outline.ofFunction t).emit (Range.text source) 1 [⟨0, ""⟩] = emitted at hdraws ⊢
  cases hdraws with
  | error hsound =>
      rw [bind_of_error hresult]
      exact ⟨rfl, hsound⟩
  | @ok s body hgrew hgood =>
      rw [bind_of_ok hresult, add_bind, get_bind]
      refine ⟨congrArg Except.ok ?_, hgood.sound⟩
      have hvertices : s.vertices = (0, .entry) :: body.vertices := hgrew.vertices
      have hedges : s.edges = body.edges := hgrew.edges
      have hledger : s.ledger = body.returned := hgrew.ledger
      simp [Graph.close, Draft.added, hvertices, hedges, hledger, Fragment.left, connect,
        Nat.add_comm 1]

end Flow

end Cyclomatic
