import Cyclomatic.Tree.Basic

/-! # Control outlines

The outline of a function body is what its control flow depends on: straight
runs of statements with their extent, and the constructs between them. What a
condition, a loop header or a plain statement contains is not part of it.
-/

namespace Cyclomatic

/-- What a decision is called in a graph. -/
inductive Caption where
  | branch
  | whileLoop
  | doLoop
  | forLoop
  | ternary
  | switch
  | case
  | handler
  deriving DecidableEq, Repr

namespace Caption

def toText : Caption → String
  | .branch => "IF"
  | .whileLoop => "WHILE"
  | .doLoop => "DO-WHILE"
  | .forLoop => "FOR"
  | .ternary => "TERNARY"
  | .switch => "SWITCH"
  | .case => "CASE"
  | .handler => "CATCH"

def isLoop : Caption → Bool
  | .whileLoop | .doLoop | .forLoop => true
  | _ => false

/-- The kinds that a graph can show as decisions. -/
def ofKind? : Kind → Option Caption
  | .branch => some .branch
  | .whileLoop => some .whileLoop
  | .doLoop => some .doLoop
  | .forLoop => some .forLoop
  | .ternary => some .ternary
  | .switch => some .switch
  | .case => some .case
  | .handler => some .handler
  | _ => none

end Caption

/-- The three loops; they share one shape. -/
inductive Loop where
  | pretest
  | posttest
  | counting
  deriving DecidableEq, Repr

def Loop.caption : Loop → Caption
  | .pretest => .whileLoop
  | .posttest => .doLoop
  | .counting => .forLoop

/-- An extent of source that a graph node stands for. -/
structure Site where
  range : Range
  line : Int
  endLine : Int
  deriving DecidableEq, Repr

def Place.site (p : Place) : Site := ⟨p.range, p.startLine, p.endLine⟩

/-- A decision: its extent, and the range of the text it is made on. -/
structure Decision where
  site : Site
  code : Option Range
  deriving DecidableEq, Repr

/-- A run of statements without constructs between them. -/
structure Run where
  site : Site
  count : Nat
  returns : Bool := false
  deriving DecidableEq, Repr

namespace Run

def single (p : Place) : Run := ⟨p.site, 1, false⟩

/-- The run with one more statement at its end. -/
def add (r : Run) (p : Place) : Run :=
  ⟨⟨⟨r.site.range.start, p.endByte⟩, r.site.line, p.endLine⟩, r.count + 1, false⟩

def extend (pending : Option Run) (p : Place) : Run :=
  match pending with
  | some r => r.add p
  | none => single p

end Run

/-- The sorts of outline. -/
inductive Part where
  | sequence
  | construct
  | cases
  | handler
  | operand
  deriving DecidableEq, Repr

/-- An outline. A step carries the line its statement starts on. -/
inductive Outline : Part → Type where
  | done : Outline .sequence
  | run (r : Run) (rest : Outline .sequence) : Outline .sequence
  | step (line : Int) (construct : Outline .construct) (rest : Outline .sequence) : Outline .sequence
  | nested (inner : Outline .sequence) : Outline .construct
  | branch (d : Decision) (yes no : Outline .sequence) : Outline .construct
  | loop (style : Loop) (d : Decision) (body : Outline .sequence) : Outline .construct
  | choice (d : Decision) (yes no : Outline .operand) : Outline .construct
  | switch (d : Decision) (cases : Outline .cases) : Outline .construct
  | guarded (body : Outline .sequence) (handler : Outline .handler) (final : Outline .sequence) :
      Outline .construct
  | noCase : Outline .cases
  | case (kind : Kind) (d : Decision) (test : Option Range) (body : Outline .sequence)
      (rest : Outline .cases) : Outline .cases
  | noHandler : Outline .handler
  | catch (kind : Kind) (d : Decision) (body : Outline .sequence) : Outline .handler
  | absent : Outline .operand
  | leaf (site : Site) : Outline .operand
  | ternary (d : Decision) (yes no : Outline .operand) : Outline .operand

namespace Outline

/-- The run that is still open, before what follows it. -/
def flush (pending : Option Run) (rest : Outline .sequence) : Outline .sequence :=
  match pending with
  | some r => .run r rest
  | none => rest

/-- A statement at the end of a sequence. -/
def last (head : Head) (construct : Option (Outline .construct)) : Outline .sequence :=
  match construct with
  | some c => .step head.place.startLine c .done
  | none => .run { Run.single head.place with returns := head.exits } .done

/-- The text a decision shows is its condition's; a handler's is its parameter's. -/
def decision (head : Head) (condition : Option Tree) (operands : List Tree) : Decision where
  site := head.place.site
  code := match condition with
    | some c => some c.range
    | none => if head.kind = .handler then operands.head?.map (·.range) else none

mutual

/-- The outline of a list of statements after an open run. -/
def ofStatements (pending : Option Run) : List Tree → Outline .sequence
  | [] => flush pending .done
  | t :: ts =>
      match ofStatement? t with
      | some c => flush pending (.step t.place.startLine c (ofStatements none ts))
      | none =>
          let r := Run.extend pending t.place
          if t.head.exits then .run { r with returns := true } (ofStatements none ts)
          else ofStatements (some r) ts

/-- The construct that a statement opens; a straight-line statement opens none. -/
def ofStatement? : Tree → Option (Outline .construct)
  | .node head c q a b h f _ ss cs os =>
      match head.kind with
      | .block => some (.nested (ofStatements none ss))
      | .branch => some (.branch (decision head c os) (ofBody q) (ofBody a))
      | .whileLoop => some (.loop .pretest (decision head c os) (ofBody b))
      | .doLoop => some (.loop .posttest (decision head c os) (ofBody b))
      | .forLoop => some (.loop .counting (decision head c os) (ofBody b))
      | .ternary => some (.choice (decision head c os) (ofOperand q) (ofOperand a))
      | .switch => some (.switch (decision head c os) (ofCases cs))
      | .guarded => some (.guarded (ofBody b) (ofHandler h) (ofBody f))
      | .plain => if head.exits then none else soleChoice? os
      | _ => none

/-- A ternary that is all there is to a statement. -/
def soleChoice? : List Tree → Option (Outline .construct)
  | [.node head c q a _ _ _ _ _ _ os] =>
      if head.kind = .ternary then some (.choice (decision head c os) (ofOperand q) (ofOperand a))
      else none
  | _ => none

/-- A branch or body: a block is its statements, any other node one statement. -/
def ofBody : Option Tree → Outline .sequence
  | none => .done
  | some (.node head c q a b h f v ss cs os) =>
      if head.kind = .block then ofStatements none ss
      else last head (ofStatement? (.node head c q a b h f v ss cs os))

def ofOperand : Option Tree → Outline .operand
  | none => .absent
  | some (.node head c q a _ _ _ _ _ _ os) =>
      if head.kind = .ternary then .ternary (decision head c os) (ofOperand q) (ofOperand a)
      else .leaf head.place.site

def ofCases : List Tree → Outline .cases
  | [] => .noCase
  | .node head c _ _ _ _ _ _ ss _ os :: rest =>
      .case head.kind (decision head c os) (c.map (·.range)) (ofStatements none ss) (ofCases rest)

def ofHandler : Option Tree → Outline .handler
  | none => .noHandler
  | some (.node head c _ _ b _ _ _ _ _ os) =>
      .catch head.kind (decision head c os) (ofBody b)

end

/-- The outline of a function's body. -/
def ofFunction (t : Tree) : Outline .sequence := ofBody t.body

end Outline

end Cyclomatic
