import Cyclomatic.Proofs.Lookup
import Cyclomatic.Proofs.Tree.Trails

/-! # Walks with a stack list a tree in pre-order

A walk takes the top off its stack, gives it out, and pushes what comes next in
reverse, so that the first of it comes to lie on top. From every stack this
comes to an end, and a tree is listed as its recursive definition lists it: a
node, then what is below each child. So every occurrence of a node is listed
once, a function together with the node above it, and the first fault that is
found in a parse tree is the first one in this order.
-/

namespace Cyclomatic

namespace Descent

variable {α : Type} (d : Descent α)

/-- A stack, its top at the end, is emptied: the top is taken off and given out, and what comes
next is pushed in reverse, until nothing is left. -/
inductive Drains : List α → List α → Prop
  | empty : Drains [] []
  | pop {stack given : List α} {a : α} (rest : Drains (stack ++ (d.next a).reverse) given) :
      Drains (stack ++ [a]) (a :: given)

/-- A stack of nodes, the first one on top, is drained in the order of the walk. -/
theorem drains_reverse (stack : List α) : d.Drains stack.reverse (d.walkFrom stack) := by
  fun_induction d.walkFrom stack with
  | case1 => exact .empty
  | case2 a stack ih =>
      rw [List.reverse_append] at ih
      rw [List.reverse_cons]
      exact ih.pop

/-- Every stack is emptied, and in one way: by what the walk gives out. -/
theorem drains_iff {stack given : List α} :
    d.Drains stack given ↔ given = d.walkFrom stack.reverse := by
  constructor
  · intro hdrains
    induction hdrains with
    | empty => rw [List.reverse_nil, walkFrom_nil]
    | @pop stack given a rest ih =>
        rw [ih, List.reverse_append, List.reverse_reverse, List.reverse_concat, walkFrom_cons]
  · rintro rfl
    have hdrains := d.drains_reverse stack.reverse
    rwa [List.reverse_reverse] at hdrains

end Descent

namespace Tree

/-! ## The recursive listing -/

theorem preorderOption_eq (o : Option Tree) : preorderOption o = o.toList.flatMap preorder := by
  cases o <;> simp [preorderOption]

theorem preorderList_eq (ts : List Tree) : preorderList ts = ts.flatMap preorder := by
  induction ts with
  | nil => rfl
  | cons t ts ih => rw [preorderList, ih, List.flatMap_cons]

theorem preorder_eq (t : Tree) : t.preorder = t :: t.children.flatMap preorder := by
  obtain ⟨head, c, q, a, b, h, f, v, ss, cs, os⟩ := t
  rw [preorder, children, List.flatMap_assoc]
  refine congrArg (_ :: ·) (List.flatMap_congr fun slot _ => ?_)
  cases slot
  case statements | cases | operands => exact preorderList_eq _
  all_goals exact preorderOption_eq _

/-- The nodes of a tree, as a stack gives them, are in preorder. -/
theorem nodes_eq_preorder (t : Tree) : t.nodes = t.preorder := by
  rw [nodes_eq_walk]
  induction t using descent.induct with
  | hnext t ih =>
      rw [descent.walk_eq, preorder_eq, List.flatMap_congr ih]
      rfl

/-! ## Occurrences by their addresses -/

/-- The node that has what is at an address as a child; the root is no child. -/
def parentAt? (t : Tree) (a : List Nat) : Option Tree :=
  if a = [] then none else t.at? a.dropLast

/-- Addresses tell the occurrences of nodes that walks give out, in order. -/
structure ListedAt (t : Tree) (as : List (List Nat)) : Prop where
  nodes : t.nodes.map some = as.map t.at?
  /-- Each occurrence once. -/
  distinct : as.Nodup
  complete : ∀ a, a ∈ as ↔ (t.at? a).isSome = true
  /-- The functions among them, each with the node it was reached from. -/
  functions : t.functions.map (fun v => (some v.node, v.via.map (·.2))) =
    (as.filter fun a => (t.at? a).any (·.kind = .function)).map fun a => (t.at? a, t.parentAt? a)

/-- The parent of a node is its holder, if it has one. -/
theorem parentAt?_eq {t n : Tree} {a : List Nat} (hn : t.at? a = some n) :
    t.parentAt? a = (t.holder? a).map (·.2) := by
  rcases List.eq_nil_or_concat a with rfl | ⟨b, i, rfl⟩
  · rfl
  · rw [List.concat_eq_append] at hn ⊢
    rw [at?_append] at hn
    obtain ⟨p, hp, hn⟩ := Option.bind_eq_some_iff.mp hn
    rw [at?_singleton] at hn
    obtain ⟨branch, hbranch, _⟩ := Option.map_eq_some_iff.mp hn
    rw [parentAt?, if_neg (by simp), List.dropLast_concat, hp, holder?_append_singleton hp, hbranch]
    rfl

end Tree

namespace Stop

variable {t : Tree}

/-- The addresses of a walk lead to the nodes of the tree, in the same order. -/
theorem map_at?_addresses (t : Tree) :
    ((stops t).map (·.address)).map t.at? = t.nodes.map some := by
  rw [Tree.nodes, ← map_visit_stops, List.map_map, List.map_map, List.map_map]
  exact List.map_congr_left fun x hx => (fits_of_mem_stops hx).node

/-- The addresses of functions are those that lead to functions. -/
theorem filter_addresses (t : Tree) :
    ((stops t).map (·.address)).filter (fun a => (t.at? a).any (·.kind = .function)) =
      (functionStops t).map (·.address) := by
  rw [List.filter_map, functionStops]
  refine congrArg _ (List.filter_congr fun x hx => ?_)
  simp [(fits_of_mem_stops hx).node]

theorem pair_of_mem {x : Stop} (hx : x ∈ stops t) :
    (some x.visit.node, x.visit.via.map (·.2)) = (t.at? x.address, t.parentAt? x.address) := by
  have hfits := fits_of_mem_stops hx
  rw [Tree.parentAt?_eq hfits.node, hfits.node, hfits.via]

/-- A walk lists the addresses of a tree in preorder, each of them once. -/
theorem listedAt_addresses (t : Tree) : t.ListedAt ((stops t).map (·.address)) where
  nodes := (map_at?_addresses t).symm
  distinct := nodup_addresses ⟨[], t, none⟩
  complete a := by
    have hmem := mem_addresses_iff (t := t) (a := a) (P := fun _ => True)
    simpa [Option.isSome_iff_exists] using hmem
  functions := by
    rw [filter_addresses, ← map_visit_functionStops, List.map_map, List.map_map]
    exact List.map_congr_left fun x hx => pair_of_mem (List.mem_of_mem_filter hx)

end Stop

namespace ParseTree

mutual

/-- A node, then the nodes below each child, named or not. -/
def preorder : ParseTree → List ParseTree
  | .node row cs => .node row cs :: preorderList cs

def preorderList : List ParseTree → List ParseTree
  | [] => []
  | t :: ts => preorder t ++ preorderList ts

end

theorem preorderList_eq (ts : List ParseTree) : preorderList ts = ts.flatMap preorder := by
  induction ts with
  | nil => rfl
  | cons t ts ih => rw [preorderList, ih, List.flatMap_cons]

theorem preorder_eq (t : ParseTree) : t.preorder = t :: t.children.flatMap preorder := by
  cases t with
  | node row cs => rw [preorder, preorderList_eq, children]

/-- The nodes of a parse tree, as a stack gives them, are in preorder. -/
theorem walk_eq_preorder (t : ParseTree) : descent.walk t = t.preorder := by
  induction t using descent.induct with
  | hnext t ih =>
      rw [descent.walk_eq, preorder_eq, List.flatMap_congr ih]
      rfl

variable {source : Bytes} {t : ParseTree}

/-- The line of a fault is the line of the first node in preorder that is faulty. -/
theorem firstFaultLine?_eq_some_iff {line : Nat} : t.firstFaultLine? source = some line ↔
    ∃ before n after, t.preorder = before ++ n :: after ∧
      (∀ m ∈ before, m.row.faulty = false) ∧ n.row.faulty = true ∧
      line = (source.position n.row.start).1 + 1 := by
  rw [firstFaultLine?, walk_eq_preorder, Option.map_eq_some_iff]
  simp only [List.find?_eq_some_iff_append, Bool.not_eq_true']
  constructor
  · rintro ⟨n, ⟨hfault, before, after, hlist, hbefore⟩, rfl⟩
    exact ⟨before, n, after, hlist, hbefore, hfault, rfl⟩
  · rintro ⟨before, n, after, hlist, hbefore, hfault, rfl⟩
    exact ⟨n, ⟨hfault, before, after, hlist, hbefore⟩, rfl⟩

/-- No line is given for a fault if no node is faulty. -/
theorem firstFaultLine?_eq_none_iff : t.firstFaultLine? source = none ↔
    ∀ n ∈ t.preorder, n.row.faulty = false := by
  rw [firstFaultLine?, walk_eq_preorder, Option.map_eq_none_iff, List.find?_eq_none]
  simp only [Bool.not_eq_true]

end ParseTree

/-- The stack of a walk through a syntax tree is emptied, of nodes alone or of nodes with those
above them, and the nodes that are given out are the recursive listing; its occurrences are told
by addresses, each once, and the functions among them come with the node above. The stack of a walk
through a parse tree is emptied too, and the line of its first fault is that of the first faulty
node in the recursive listing. -/
theorem walks_in_preorder :
    (∀ t : Tree, (∀ given, Tree.descent.Drains [t] given ↔ given = t.preorder) ∧
      (∀ given, Visit.descent.Drains [⟨t, none⟩] given ↔ given = t.visits) ∧
      t.nodes = t.preorder ∧ t.preorder = t :: t.children.flatMap Tree.preorder ∧
      ∃ as, t.ListedAt as) ∧
    ∀ (source : Bytes) (t : ParseTree),
      (∀ given, ParseTree.descent.Drains [t] given ↔ given = t.preorder) ∧
      t.preorder = t :: t.children.flatMap ParseTree.preorder ∧
      (∀ line, t.firstFaultLine? source = some line ↔
        ∃ before n after, t.preorder = before ++ n :: after ∧
          (∀ m ∈ before, m.row.faulty = false) ∧ n.row.faulty = true ∧
          line = (source.position n.row.start).1 + 1) ∧
      (t.firstFaultLine? source = none ↔ ∀ n ∈ t.preorder, n.row.faulty = false) := by
  constructor
  · intro t
    refine ⟨fun given => ?_, fun given => Visit.descent.drains_iff, t.nodes_eq_preorder,
      t.preorder_eq, _, Stop.listedAt_addresses t⟩
    rw [← t.nodes_eq_preorder, Tree.nodes_eq_walk]
    exact Tree.descent.drains_iff
  · intro source t
    refine ⟨fun given => ?_, t.preorder_eq, fun line => ?_, ParseTree.firstFaultLine?_eq_none_iff⟩
    · rw [← t.walk_eq_preorder]
      exact ParseTree.descent.drains_iff
    · exact ParseTree.firstFaultLine?_eq_some_iff

/-- A token is missing on the second line, before an error that starts on the first. -/
def faultBelow : ParseTree :=
  .node { type := "program", start := 0, stop := 3 }
    [.node { type := "arguments", start := 0, stop := 3 }
      [.node { type := ")", start := 2, stop := 2, named := false, missing := true } []],
    .node { type := "ERROR", start := 0, stop := 1 } []]

theorem faultBelow_and_sameTwice_in_preorder :
    faultBelow.firstFaultLine? [97, 10, 98] = some 2 ∧
    ∃ as, Analysis.sameTwice.ListedAt as ∧ as.length = Analysis.sameTwice.preorder.length := by
  obtain ⟨hwalks, hfaults⟩ := walks_in_preorder
  obtain ⟨_, _, hnodes, _, as, hlisted⟩ := hwalks Analysis.sameTwice
  obtain ⟨_, _, hline, _⟩ := hfaults [97, 10, 98] faultBelow
  refine ⟨(hline 2).mpr ⟨[_, _], _, [_], rfl, by decide, rfl, rfl⟩, as, hlisted, ?_⟩
  have hlength := congrArg List.length hlisted.nodes
  rwa [List.length_map, List.length_map, hnodes, eq_comm] at hlength

end Cyclomatic
