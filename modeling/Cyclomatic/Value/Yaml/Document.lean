import Cyclomatic.Value.Yaml.Lexer
import Cyclomatic.Value.Yaml.Node

/-! # Values of documents

A node stands for a value. A later entry of a mapping replaces an earlier one
with the same key; lists and mappings cannot be keys; an entry under `<<` gives
the entries of another mapping, of which the mapping's own replace those with
the same key.
-/

namespace Cyclomatic.Yaml

namespace Node

/-! ## Faults by level

Collections are filled level by level. So of several faults the one that is
furthest out counts, and of those on a level the first.
-/

/-- A value, or a fault and its level. -/
abbrev Outcome (α : Type) := Except (Nat × Fault) α

def both {α β : Type} : Outcome α → Outcome β → Outcome (α × β)
  | .ok a, .ok b => .ok (a, b)
  | .error (m, f), .error (n, g) => .error (if n < m then (n, g) else (m, f))
  | .error e, .ok _ | .ok _, .error e => .error e

def cons {α : Type} (a : Outcome α) (as : Outcome (List α)) : Outcome (List α) :=
  (fun (a, as) => a :: as) <$> both a as

def append {α : Type} (as bs : Outcome (List α)) : Outcome (List α) :=
  (fun (as, bs) => as ++ bs) <$> both as bs

/-- An outcome whose fault is on a level. -/
def onLevel {α : Type} (level : Nat) (r : Except Fault α) : Outcome α := r.mapError (level, ·)

/-! ## Nodes out of place -/

/-- Only some sorts of nodes can have a tag. -/
def notA {α : Type} (wanted : String) (n : Node) : Except Fault α :=
  .error (.problem none s!"expected a {wanted} node, but found {n.sort}" n.mark)

def unknownTag {α : Type} (n : Node) : Except Fault α :=
  .error (.problem none
    ("could not determine a constructor for the tag " ++ Quoted.encode n.tag.name) n.mark)

/-- Something is wrong with an entry of a mapping. -/
def badEntry {α : Type} (start : Mark) (problem : String) (n : Node) : Except Fault α :=
  .error (.problem (some ("while constructing a mapping", some start)) problem n.mark)

mutual

/-- The text of a node where a scalar must stand; a mapping has that of its `=` entry. -/
def scalarText : Node → Except Fault String
  | .scalar _ _ text => .ok text
  | .sequence m t items => notA "scalar" (.sequence m t items)
  | .mapping m _ entries => scalarTextIn m entries

def scalarTextIn (start : Mark) : List (Node × Node) → Except Fault String
  | [] => notA "scalar" (.mapping start .mapping [])
  | (key, value) :: rest => if key.tag = .value then scalarText value else scalarTextIn start rest

end

mutual

/-- Only mappings can be merged into a mapping, one or a list of them. -/
def checkMerges (start : Mark) : List (Node × Node) → Except Fault Unit
  | [] => .ok ()
  | (key, value) :: rest => do
      if key.tag = .merge then checkMerged start value
      checkMerges start rest

def checkMerged (start : Mark) : Node → Except Fault Unit
  | .mapping m _ entries => checkMerges m entries
  | .sequence _ _ items => checkItems start items
  | .scalar m t text =>
      badEntry start "expected a mapping or list of mappings for merging, but found scalar"
        (.scalar m t text)

def checkItems (start : Mark) : List Node → Except Fault Unit
  | [] => .ok ()
  | .mapping m _ entries :: rest => do
      checkMerges m entries
      checkItems start rest
  | n :: _ => badEntry start ("expected a mapping for merging, but found " ++ n.sort) n

end

/-! ## Construction -/

/-- The value of a node, on a level, that has no tag of a collection. -/
def scalarOutcome (level : Nat) (n : Node) : Outcome Value :=
  onLevel level <|
    match n.tag with
    | .merge | .value | .other _ => unknownTag n
    | tag => do scalarValue (← n.scalarText) tag

/-- The value of a key in a mapping; an equals sign counts as text there. -/
def keyOutcome (level : Nat) (start : Mark) (n : Node) : Outcome Value :=
  match n.tag with
  | .sequence | .mapping => onLevel level (badEntry start "found unhashable key" n)
  | .value => onLevel level (.text <$> n.scalarText)
  | _ => n.scalarOutcome level

mutual

def toValue (level : Nat) : Node → Outcome Value
  | .scalar m t text =>
      match t with
      | .sequence => onLevel (level + 1) (notA "sequence" (.scalar m t text))
      | .mapping => onLevel (level + 1) (notA "mapping" (.scalar m t text))
      | _ => scalarOutcome level (.scalar m t text)
  | .sequence m t items =>
      match t with
      | .sequence => .list <$> toValues (level + 1) items
      | .mapping => onLevel (level + 1) (notA "mapping" (.sequence m t items))
      | _ => scalarOutcome level (.sequence m t items)
  | .mapping m t entries =>
      match t with
      | .sequence => onLevel (level + 1) (notA "sequence" (.mapping m t entries))
      | .mapping => do
          onLevel (level + 1) (checkMerges m entries)
          let (given, own) := toEntries (level + 1) m entries
          return .map (Entries.ofList (← append given own))
      | _ => scalarOutcome level (.mapping m t entries)

def toValues (level : Nat) : List Node → Outcome (List Value)
  | [] => .ok []
  | n :: ns => cons (toValue level n) (toValues level ns)

/-- The entries that other mappings give, and a mapping's own. -/
def toEntries (level : Nat) (start : Mark) : List (Node × Node) → Outcome Entries × Outcome Entries
  | [] => (.ok [], .ok [])
  | (key, value) :: rest =>
      let (given, own) := toEntries level start rest
      if key.tag = .merge then (append (mergedEntries level start value) given, own)
      else (given, cons (both (key.keyOutcome level start) (toValue level value)) own)

/-- The entries that a merged node gives. -/
def mergedEntries (level : Nat) (start : Mark) : Node → Outcome Entries
  | .mapping _ _ entries =>
      let (given, own) := toEntries level start entries
      append given own
  | .sequence _ _ items => mergedItems level start items
  | .scalar .. => .ok []

/-- The entries of several merged mappings; the first has the last word. -/
def mergedItems (level : Nat) (start : Mark) : List Node → Outcome Entries
  | [] => .ok []
  | n :: ns => append (mergedItems level start ns) (mergedEntries level start n)

end

end Node

/-- The value that a text gives, in which collections stand so deep at most inside each other; a
text without a document gives null. -/
def read (depth : Nat) (s : String) : Except ReadError Value :=
  let cs := s.toList
  let value : Except Fault Value := do
    match ← (Node.document depth).run' { lexemes := tokens cs } with
    | some node => (node.toValue 0).mapError (·.2)
    | none => return .null
  value.mapError (⟨cs, ·⟩)

end Cyclomatic.Yaml
