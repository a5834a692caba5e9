import Cyclomatic.ParseTree.Basic
import Cyclomatic.Tree.Basic

/-! # From parse trees to syntax trees

Each parse node becomes a node of the kind that its type calls for, from the
children it has already been given: comments and anonymous tokens are left
out, parentheses and else clauses around a single child give way to it, and a
construct takes its parts by field name.
-/

namespace Cyclomatic

/-- How a function comes by a name of its own. -/
inductive OwnName where
  | never
  | always
  /-- Only from a plain name; computed and quoted names do not count. -/
  | plainOnly
  deriving DecidableEq, Repr

/-- The treatment that a node type calls for. -/
inductive Form where
  | block
  | parenthesized
  | elseClause
  | function (own : OwnName)
  | declarator
  | branch
  | ternary
  | binary
  | whileLoop
  | doLoop
  | forLoop
  | forIn
  | switch
  | case
  | default
  | guarded
  | handler
  | identifier
  | exit
  | other
  deriving DecidableEq, Repr

def Form.ofType : String → Form
  | "program" | "statement_block" => .block
  | "parenthesized_expression" => .parenthesized
  | "else_clause" => .elseClause
  | "function_declaration" | "generator_function_declaration" => .function .always
  | "method_definition" => .function .plainOnly
  | "function_expression" | "function" | "generator_function" | "arrow_function" => .function .never
  | "variable_declarator" => .declarator
  | "if_statement" => .branch
  | "ternary_expression" => .ternary
  | "binary_expression" => .binary
  | "while_statement" => .whileLoop
  | "do_statement" => .doLoop
  | "for_statement" => .forLoop
  | "for_in_statement" => .forIn
  | "switch_statement" => .switch
  | "switch_case" => .case
  | "switch_default" => .default
  | "try_statement" => .guarded
  | "catch_clause" => .handler
  | "identifier" | "shorthand_property_identifier" => .identifier
  | "return_statement" | "throw_statement" => .exit
  | _ => .other

namespace Row

def form (r : Row) : Form := Form.ofType r.type

/-- Comments are not part of the syntax. -/
def isComment (r : Row) : Bool :=
  r.type = "comment" || r.type = "html_comment" || r.type = "hash_bang_line"

def listed (r : Row) : Bool := r.named && !r.isComment

def range (r : Row) : Range := ⟨r.start, r.stop⟩

def text (source : Bytes) (r : Row) : String := r.range.text source

def place (source : Bytes) (r : Row) : Place :=
  let first := source.position r.start
  let last := source.position r.stop
  { startByte := r.start, endByte := r.stop
    startLine := first.1 + 1, startColumn := first.2
    endLine := last.1 + 1, endColumn := last.2 }

def head (source : Bytes) (r : Row) (kind : Kind) : Head :=
  { kind, type := r.type, place := r.place source }

end Row

/-- A child that has become a syntax tree, with its own children for parents
that look one level further down. -/
structure Child where
  row : Row
  tree : Tree
  inner : List (Row × Tree)

namespace Child

/-- The first child in a field. -/
def inField? (name : String) (cs : List Child) : Option Child :=
  cs.find? fun c => c.row.field == some name

/-- The tree of the child in a field, unless a comment stands there. -/
def treeOf? (name : String) (cs : List Child) : Option Tree :=
  ((inField? name cs).filter (!·.row.isComment)).map (·.tree)

def listed (cs : List Child) : List Child := cs.filter (·.row.listed)

def trees (cs : List Child) : List Tree := cs.map (·.tree)

/-- The trees of the children in some fields, in the order of the fields. -/
def treesOf (names : List String) (cs : List Child) : List Tree :=
  names.filterMap fun name => (inField? name cs).map (·.tree)

end Child

namespace Tree

open Child

/-- A function's own name, where its form lets it have one. -/
def ownName? (source : Bytes) (own : OwnName) (cs : List Child) : Option String := do
  let c ← inField? "name" cs
  match own with
  | .never => none
  | .always => some (c.row.text source)
  | .plainOnly =>
      if c.row.type = "property_identifier" || c.row.type = "identifier" then some (c.row.text source)
      else none

/-- The name a declaration binds, if its target is a plain identifier. -/
def boundName? (source : Bytes) (cs : List Child) : Option String := do
  let c ← inField? "name" cs
  if c.row.type = "identifier" then some (c.row.text source) else none

/-- The only child in place of its parent, or a node over all of them. -/
def unwrap (cs : List Child) (whole : List Tree → Tree) : Tree :=
  match listed cs with
  | [c] => c.tree
  | cs => whole (trees cs)

/-- The statements of a case: its children without the tested value. -/
def caseStatements (cs : List Child) : List Tree :=
  match inField? "value" cs with
  | none => trees (listed cs)
  | some test =>
      trees ((listed cs).filter fun c => c.row.start != test.row.start || c.row.type != test.row.type)

/-- The kind a binary expression has by its operator. -/
def operatorKind : Option String → Kind
  | some "&&" => .conjunction
  | some "||" => .disjunction
  | _ => .plain

/-- The node for a row, once its children are trees. -/
def assemble (source : Bytes) (row : Row) (cs : List Child) : Tree :=
  let head := row.head source
  match row.form with
  | .block => ofSlots (head .block) { statements := trees (listed cs) }
  | .parenthesized => unwrap cs fun ts => ofSlots (head .plain) { operands := ts }
  | .elseClause => unwrap cs fun ts => ofSlots (head .block) { statements := ts }
  | .function own =>
      ofSlots { head .function with name := ownName? source own cs }
        { operands := ((inField? "parameters" cs).or (inField? "parameter" cs)).toList.map (·.tree)
          body := treeOf? "body" cs }
  | .declarator =>
      ofSlots { head .binding with name := boundName? source cs }
        { operands := treesOf ["name"] cs, value := treeOf? "value" cs }
  | .branch =>
      ofSlots (head .branch)
        { condition := treeOf? "condition" cs, consequent := treeOf? "consequence" cs
          alternate := treeOf? "alternative" cs }
  | .ternary =>
      ofSlots (head .ternary)
        { condition := treeOf? "condition" cs, consequent := treeOf? "consequence" cs
          alternate := treeOf? "alternative" cs }
  | .binary =>
      let operator := (inField? "operator" cs).map (·.row.type)
      ofSlots { head (operatorKind operator) with operator } { operands := trees (listed cs) }
  | .whileLoop =>
      ofSlots (head .whileLoop) { condition := treeOf? "condition" cs, body := treeOf? "body" cs }
  | .doLoop =>
      ofSlots (head .doLoop) { condition := treeOf? "condition" cs, body := treeOf? "body" cs }
  | .forLoop =>
      ofSlots (head .forLoop)
        { operands := treesOf ["initializer", "increment"] cs
          condition := treeOf? "condition" cs, body := treeOf? "body" cs }
  | .forIn =>
      ofSlots (head .forLoop) { operands := treesOf ["left", "right"] cs, body := treeOf? "body" cs }
  | .switch =>
      let cases := match inField? "body" cs with
        | some body => (body.inner.filter (·.1.listed)).map (·.2)
        | none => []
      ofSlots (head .switch) { condition := treeOf? "value" cs, cases }
  | .case =>
      ofSlots (head .case)
        { condition := (inField? "value" cs).map (·.tree), statements := caseStatements cs }
  | .default => ofSlots (head .case) { statements := trees (listed cs) }
  | .guarded =>
      let finalizer := do
        let clause ← inField? "finalizer" cs
        let (row, tree) ← clause.inner.find? fun (row, _) => row.field == some "body"
        if row.isComment then none else some tree
      ofSlots (head .guarded)
        { body := treeOf? "body" cs, handler := treeOf? "handler" cs, finalizer }
  | .handler =>
      ofSlots (head .handler) { operands := treesOf ["parameter"] cs, body := treeOf? "body" cs }
  | .identifier => ofSlots { head .identifier with name := some (row.text source) } {}
  | .exit => ofSlots { head .plain with exits := true } { operands := trees (listed cs) }
  | .other => ofSlots (head .plain) { operands := trees (listed cs) }

end Tree

namespace ParseTree

mutual

def toChild (source : Bytes) : ParseTree → Child
  | .node row children =>
      let cs := toChildren source children
      { row, tree := Tree.assemble source row cs, inner := cs.map fun c => (c.row, c.tree) }

def toChildren (source : Bytes) : List ParseTree → List Child
  | [] => []
  | t :: ts => toChild source t :: toChildren source ts

end

/-- The syntax tree of a parse tree. -/
def normalize (source : Bytes) (t : ParseTree) : Tree := (t.toChild source).tree

end ParseTree

end Cyclomatic
