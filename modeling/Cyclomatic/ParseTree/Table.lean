import Cyclomatic.Parsed

/-! # Tables of parse trees

A grammar may be given as data: records, each with the answer for one source in
one dialect. A tree is listed by its rows in source order; a row is a list of a
node's type, its first and last byte, and the count of its children, and then,
if need be, its field and its flags.
-/

namespace Cyclomatic.Grammar

/-- A row: the flags say whether the node is anonymous and whether it is missing. -/
def row? : Value → Option (Row × Nat)
  | .list (.text type :: .num (.int start) :: .num (.int stop) :: .num (.int count) :: more) =>
      let flags := match more with
        | [_, .text flags] => flags.toList
        | _ => []
      let field := match more with
        | .text name :: _ => some name
        | _ => none
      some
        ({ type, start := start.toNat, stop := stop.toNat, field, named := !flags.contains 'a'
           missing := flags.contains 'm' }, count.toNat)
  | _ => none

def tree? : Value → Option ParseTree
  | .list rows => rows.mapM row? >>= ParseTree.ofRows?
  | _ => none

/-- Whether an entry is there and true. -/
def isSet (entries : Entries) (name : String) : Bool := (entries.field? name).any (·.truthy)

/-- The answer of one record. -/
def answerOf (record : Entries) : Answer :=
  match record.field? "fail" with
  | some (.text reason) => .refused reason
  | _ =>
      if isSet record "interrupt" then .interrupted
      else
        match (record.field? "nodes").bind tree? with
        | some t => .tree (isSet record "err") t
        | none => .unavailable

/-- Whether a record is for a source in a dialect. -/
def answers (dialect : Dialect) (source : String) (record : Entries) : Bool :=
  match record.field? "dialect", record.field? "source" with
  | some (.text d), some (.text s) => d == dialect.toText && s == source
  | _, _ => false

/-- The grammar that a table gives; of several records for a source the last one counts. -/
def ofTable (table : List Entries) : Grammar := fun dialect source =>
  match table.reverse.find? (answers dialect source) with
  | some record => answerOf record
  | none => .unavailable

end Cyclomatic.Grammar
