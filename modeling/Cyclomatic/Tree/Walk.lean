import Cyclomatic.Tree.Basic
import Cyclomatic.Walk

/-! # Walking a syntax tree

Every node is visited before its children, the children in slot order. A visit
knows the slot through which its node was reached.
-/

namespace Cyclomatic

/-- A node, and the slot and parent it was reached through; the root has none. -/
structure Visit where
  node : Tree
  via : Option (Slot × Tree)

namespace Tree

theorem sizeOption_eq (o : Option Tree) : sizeOption o = total size o.toList := by
  cases o <;> simp [sizeOption]

theorem sizeList_eq (ts : List Tree) : sizeList ts = total size ts := by
  induction ts with
  | nil => rfl
  | cons t ts ih => simp [sizeList, ih]

/-- The structure of a node is smaller than the node. -/
theorem total_size_children_lt (t : Tree) : total size t.children < t.size := by
  obtain ⟨h, c, q, a, b, hd, f, v, ss, cs, os⟩ := t
  obtain ⟨k, ty, p, n, o, e⟩ := h
  cases k <;>
    simp [children, kind, head, Kind.slots, inSlot, condition, consequent, alternate, body, handler,
      finalizer, value, statements, cases, operands, size, sizeOption_eq, sizeList_eq] <;> omega

theorem map_snd_branches (t : Tree) : t.branches.map (·.2) = t.children := by
  simp [branches, children, List.map_flatMap, Function.comp_def]

end Tree

namespace Visit

def next (v : Visit) : List Visit :=
  v.node.branches.map fun (slot, child) => ⟨child, some (slot, v.node)⟩

theorem map_node_next (v : Visit) : v.next.map (·.node) = v.node.children := by
  simp [next, ← Tree.map_snd_branches, Function.comp_def]

def descent : Descent Visit where
  next := next
  size := fun v => v.node.size
  shrinks v := by
    rw [← total_map Tree.size, map_node_next]
    exact v.node.total_size_children_lt

end Visit

namespace Tree

/-- All visits from a node on, in source order. -/
def visits (t : Tree) : List Visit := Visit.descent.walk ⟨t, none⟩

def nodes (t : Tree) : List Tree := t.visits.map (·.node)

mutual

/-- A node, then the nodes below each child, child by child. -/
def preorder : Tree → List Tree
  | .node head c q a b h f v ss cs os =>
      .node head c q a b h f v ss cs os :: head.kind.slots.flatMap fun
        | .condition => preorderOption c
        | .consequent => preorderOption q
        | .alternate => preorderOption a
        | .body => preorderOption b
        | .handler => preorderOption h
        | .finalizer => preorderOption f
        | .value => preorderOption v
        | .statements => preorderList ss
        | .cases => preorderList cs
        | .operands => preorderList os

def preorderOption : Option Tree → List Tree
  | none => []
  | some t => preorder t

def preorderList : List Tree → List Tree
  | [] => []
  | t :: ts => preorder t ++ preorderList ts

end

/-- The decisions of a subtree, those of nested functions included. -/
def decisionPoints (t : Tree) : Nat := t.nodes.countP (·.kind.decides)

/-- The cyclomatic complexity: the straight path, and one more for each decision. -/
def complexity (t : Tree) : Nat := 1 + t.decisionPoints

end Tree

end Cyclomatic
