import Cyclomatic.Text.Utf8
import Cyclomatic.Text.Quoted

/-! # Syntax trees

A node has one kind out of a closed set, and ten places for children: seven
that hold at most one and three that hold a list. Each kind lists the slots
that count as its structure, in the order of the source; analyses that walk a
tree follow those and nothing else.
-/

namespace Cyclomatic

/-- What a construct does to control. -/
inductive Kind where
  | branch
  | whileLoop
  | doLoop
  | forLoop
  | ternary
  | switch
  | case
  | guarded
  | handler
  | conjunction
  | disjunction
  | block
  | plain
  | function
  | identifier
  | binding
  deriving DecidableEq, Repr

inductive Slot where
  | condition
  | consequent
  | alternate
  | body
  | handler
  | finalizer
  | value
  | statements
  | cases
  | operands
  deriving DecidableEq, Repr

namespace Kind

def all : List Kind :=
  [.branch, .whileLoop, .doLoop, .forLoop, .ternary, .switch, .case, .guarded, .handler,
   .conjunction, .disjunction, .block, .plain, .function, .identifier, .binding]

def toText : Kind → String
  | .branch => "branch"
  | .whileLoop => "loop-pretest"
  | .doLoop => "loop-posttest"
  | .forLoop => "loop-counting"
  | .ternary => "ternary"
  | .switch => "multiway-branch"
  | .case => "multiway-case"
  | .guarded => "guarded-block"
  | .handler => "exception-guard"
  | .conjunction => "short-circuit-and"
  | .disjunction => "short-circuit-or"
  | .block => "block"
  | .plain => "plain-statement"
  | .function => "function-like"
  | .identifier => "identifier"
  | .binding => "variable-binding"

def ofText? (s : String) : Option Kind := all.find? (·.toText == s)

/-- The child slots of a kind, in source order. -/
def slots : Kind → List Slot
  | .branch | .ternary => [.condition, .consequent, .alternate]
  | .whileLoop => [.condition, .body]
  | .doLoop => [.body, .condition]
  | .forLoop => [.operands, .condition, .body]
  | .switch => [.condition, .cases]
  | .case => [.condition, .statements]
  | .guarded => [.body, .handler, .finalizer]
  | .handler | .function => [.operands, .body]
  | .conjunction | .disjunction | .plain => [.operands]
  | .block => [.statements]
  | .identifier => []
  | .binding => [.operands, .value]

/-- Kinds that add a path each time they occur. A multiway branch adds none
itself; each of its cases does. -/
def decides : Kind → Bool
  | .branch | .whileLoop | .doLoop | .forLoop | .ternary | .handler | .case | .conjunction
  | .disjunction => true
  | _ => false

end Kind

def Slot.toText : Slot → String
  | .condition => "condition"
  | .consequent => "consequent"
  | .alternate => "alternate"
  | .body => "body"
  | .handler => "handler"
  | .finalizer => "finalizer"
  | .value => "value"
  | .statements => "statements"
  | .cases => "cases"
  | .operands => "operands"

/-- A part of the source by its bytes, the end excluded. -/
structure Range where
  start : Int
  stop : Int
  deriving DecidableEq, Repr

def Range.text (source : Bytes) (r : Range) : String := Utf8.decode (source.slice r.start r.stop)

/-- Where a node stands: lines count from one, columns from zero. -/
structure Place where
  startByte : Int := 0
  endByte : Int := 0
  startLine : Int := 0
  startColumn : Int := 0
  endLine : Int := 0
  endColumn : Int := 0
  deriving DecidableEq, Repr

def Place.range (p : Place) : Range := ⟨p.startByte, p.endByte⟩

/-- A name that counts: an empty one is as good as none. -/
def nonempty? (name : Option String) : Option String := name.filter (!·.isEmpty)

/-- A node without its children. -/
structure Head where
  kind : Kind
  type : String
  place : Place := {}
  name : Option String := none
  operator : Option String := none
  /-- Control leaves the function at this statement. -/
  exits : Bool := false
  deriving DecidableEq, Repr

inductive Tree where
  | node (head : Head)
      (condition consequent alternate body handler finalizer value : Option Tree)
      (statements cases operands : List Tree)

namespace Tree

/-- The children of a node that is being built, slot by slot. -/
structure Slots where
  condition : Option Tree := none
  consequent : Option Tree := none
  alternate : Option Tree := none
  body : Option Tree := none
  handler : Option Tree := none
  finalizer : Option Tree := none
  value : Option Tree := none
  statements : List Tree := []
  cases : List Tree := []
  operands : List Tree := []

def ofSlots (head : Head) (s : Slots) : Tree :=
  .node head s.condition s.consequent s.alternate s.body s.handler s.finalizer s.value
    s.statements s.cases s.operands

def head : Tree → Head | .node h .. => h
def condition : Tree → Option Tree | .node _ c .. => c
def consequent : Tree → Option Tree | .node _ _ c .. => c
def alternate : Tree → Option Tree | .node _ _ _ a .. => a
def body : Tree → Option Tree | .node _ _ _ _ b .. => b
def handler : Tree → Option Tree | .node _ _ _ _ _ h .. => h
def finalizer : Tree → Option Tree | .node _ _ _ _ _ _ f .. => f
def value : Tree → Option Tree | .node _ _ _ _ _ _ _ v .. => v
def statements : Tree → List Tree | .node _ _ _ _ _ _ _ _ ss _ _ => ss
def cases : Tree → List Tree | .node _ _ _ _ _ _ _ _ _ cs _ => cs
def operands : Tree → List Tree | .node _ _ _ _ _ _ _ _ _ _ os => os

def kind (t : Tree) : Kind := t.head.kind
def place (t : Tree) : Place := t.head.place
def range (t : Tree) : Range := t.place.range
def text (source : Bytes) (t : Tree) : String := t.range.text source

/-- The nodes that one slot holds. -/
def inSlot (t : Tree) : Slot → List Tree
  | .condition => t.condition.toList
  | .consequent => t.consequent.toList
  | .alternate => t.alternate.toList
  | .body => t.body.toList
  | .handler => t.handler.toList
  | .finalizer => t.finalizer.toList
  | .value => t.value.toList
  | .statements => t.statements
  | .cases => t.cases
  | .operands => t.operands

/-- The children with the slots that hold them, in slot order. -/
def branches (t : Tree) : List (Slot × Tree) :=
  t.kind.slots.flatMap fun slot => (t.inSlot slot).map (slot, ·)

def children (t : Tree) : List Tree := t.kind.slots.flatMap t.inSlot

/-- A branch or body as a list of statements: a block is its statements, any
other node is one statement. -/
def asStatements : Option Tree → List Tree
  | none => []
  | some t => if t.kind = .block then t.statements else [t]

/-- The one-line description of a node. -/
def describe (t : Tree) : String :=
  s!"SyntaxNode(kind={Quoted.encode t.kind.toText}, type={Quoted.encode t.head.type}, " ++
    s!"line={t.place.startLine})"

mutual

/-- The count of nodes below and including a node, over all ten slots. -/
def size : Tree → Nat
  | .node _ c q a b h f v ss cs os =>
      1 + sizeOption c + sizeOption q + sizeOption a + sizeOption b + sizeOption h + sizeOption f +
        sizeOption v + sizeList ss + sizeList cs + sizeList os

def sizeOption : Option Tree → Nat
  | none => 0
  | some t => size t

def sizeList : List Tree → Nat
  | [] => 0
  | t :: ts => size t + sizeList ts

end

end Tree

end Cyclomatic
