import Cyclomatic.Tree.Walk

/-! # Functions of a tree

Every function in a tree, nested ones included, with the name it goes by. A
declaration and a method have names of their own; any other function goes by
the variable it is bound to, if it is the bound value itself.
-/

namespace Cyclomatic

def anonymousName : String := "Anonymous Function"

/-- What a report says about one function. -/
structure FunctionSummary where
  name : String
  line : Int
  complexity : Int
  endLine : Int := 0
  deriving DecidableEq, Repr

namespace Visit

/-- The name of the variable that a node is the bound value of. -/
def boundName? (v : Visit) : Option String :=
  match v.via with
  | some (.value, parent) => if parent.kind = .binding then nonempty? parent.head.name else none
  | _ => none

def functionName (v : Visit) : String :=
  ((nonempty? v.node.head.name).or v.boundName?).getD anonymousName

def summary (v : Visit) : FunctionSummary where
  name := v.functionName
  line := v.node.place.startLine
  complexity := v.node.complexity
  endLine := v.node.place.endLine

end Visit

namespace Tree

def functions (t : Tree) : List Visit := t.visits.filter (·.node.kind = .function)

def functionSummaries (t : Tree) : List FunctionSummary := t.functions.map (·.summary)

/-- The first function of that name that starts on that line. -/
def findFunction? (t : Tree) (name : String) (line : Int) : Option Tree :=
  (t.functions.find? fun v => v.node.place.startLine = line && v.functionName = name).map (·.node)

end Tree

end Cyclomatic
