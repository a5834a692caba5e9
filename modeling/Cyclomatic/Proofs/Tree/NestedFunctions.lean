import Cyclomatic.Proofs.Lookup
import Cyclomatic.Proofs.Tree.Trails

/-! # Functions inside functions

A function counts the decisions of its own and, through the functions that
stand right below it, those of all functions inside it. The report lists what
is inside a function right behind it, as a report on that function alone would.
-/

namespace Cyclomatic

namespace Tree

/-! ## What a function is made up of -/

/-- An address below the root that lies inside a function: on the way to it stands one. -/
def Enclosed (g : Tree) (b : List Nat) : Prop :=
  ∃ c h, c <+: b ∧ c ≠ b ∧ c ≠ [] ∧ g.at? c = some h ∧ h.kind = .function

/-- The functions right below a function and the decisions that are not inside one of these, by
their addresses; together they make up the complexity of the function. -/
structure Composes (g : Tree) (own : List (List Nat)) (outer : List (List Nat × Tree)) :
    Prop where
  own_nodup : own.Nodup
  mem_own : ∀ b, b ∈ own ↔ ∃ n, g.at? b = some n ∧ n.kind.decides = true ∧ ¬ g.Enclosed b
  outer_nodup : (outer.map (·.1)).Nodup
  mem_outer : ∀ b h, (b, h) ∈ outer ↔
    b ≠ [] ∧ g.at? b = some h ∧ h.kind = .function ∧ ¬ g.Enclosed b
  complexity : g.complexity = 1 + own.length + total (fun x => x.2.complexity - 1) outer

/-- The functions inside the function at an address are listed in one piece behind it, as they
are when the function is a tree of its own. -/
structure ListsTogether (t : Tree) (a : List Nat) (g : Tree)
    (before : List (List Nat × FunctionSummary)) (d : FunctionSummary)
    (nested after : List (List Nat × FunctionSummary)) : Prop where
  listed : t.Registers (before ++ (a, d) :: (nested ++ after))
  inside : ∀ e ∈ nested, a <+: e.1 ∧ e.1 ≠ a
  outside : ∀ e ∈ before ++ after, ¬ a <+: e.1
  below : ∃ self, g.functionSummaries = self :: nested.map (·.2)

end Tree

namespace Stop

def isFunction (x : Stop) : Bool := x.visit.node.kind = .function

def decides (x : Stop) : Bool := x.visit.node.kind.decides

theorem isFunction_iff {x : Stop} : x.isFunction = true ↔ x.visit.node.kind = .function :=
  decide_eq_true_iff

theorem decides_of_isFunction {x : Stop} (hx : x.isFunction = true) : x.decides = false := by
  rw [decides, isFunction_iff.mp hx]
  rfl

/-- The decisions that a walk stops at are those of the node it starts from. -/
theorem countP_walk (x : Stop) : (descent.walk x).countP decides = x.visit.node.decisionPoints := by
  have hnodes : (descent.walk x).map (·.visit.node) = x.visit.node.nodes := by
    rw [Tree.nodes_eq_walk]
    refine descent.map_walk (e := Tree.descent) (f := fun x => x.visit.node) (fun y => ?_) x
    have hvisits := congrArg (List.map Visit.node) (map_visit_next y)
    rw [List.map_map, Visit.map_node_next] at hvisits
    exact hvisits
  rw [Tree.decisionPoints, ← hnodes, List.countP_map]
  rfl

/-- The decision points of a function are those below it, since it is none itself. -/
theorem countP_below {x : Stop} (hx : x.isFunction = true) :
    (x.next.flatMap descent.walk).countP decides = x.visit.node.decisionPoints := by
  rw [← countP_walk, descent.walk_eq, List.countP_cons_of_neg (by simp [decides_of_isFunction hx])]
  rfl

/-! ## The walk that stays outside functions -/

def outside : Descent Stop := descent.upTo isFunction

/-- Nothing on the way to an address, from the node itself on, is a function. -/
def Clear (n : Tree) (b : List Nat) : Prop :=
  ∀ c h, c <+: b → c ≠ b → n.at? c = some h → h.kind ≠ .function

theorem clear_nil (n : Tree) : Clear n [] := by
  intro c h hway hne
  exact absurd (List.prefix_nil.mp hway) hne

/-- An address is clear if neither the node is a function nor anything on the way from its child
on. -/
theorem clear_cons_iff {n child : Tree} {slot : Slot} {i : Nat} {b : List Nat}
    (hbranch : n.branches[i]? = some (slot, child)) :
    Clear n (i :: b) ↔ n.kind ≠ .function ∧ Clear child b := by
  have hat (c : List Nat) : n.at? (i :: c) = child.at? c := by rw [Tree.at?, hbranch]
  constructor
  · intro hclear
    refine ⟨hclear [] n (List.nil_prefix) (List.cons_ne_nil i b).symm rfl, ?_⟩
    intro c h hway hne hc
    refine hclear (i :: c) h ((List.prefix_cons_inj i).mpr hway) ?_ ((hat c).trans hc)
    exact fun heq => hne (List.cons.inj heq).2
  · rintro ⟨hkind, hclear⟩ c h hway hne hc
    rcases List.prefix_cons_iff.mp hway with rfl | ⟨c', rfl, hbelow⟩
    · obtain rfl := Option.some.inj hc
      exact hkind
    · rw [hat] at hc
      exact hclear c' h hbelow (fun heq => hne (heq ▸ rfl)) hc

theorem clear_append_singleton {n m : Tree} {b : List Nat} (hm : n.at? b = some m)
    (hkind : m.kind ≠ .function) (hclear : Clear n b) (i : Nat) : Clear n (b ++ [i]) := by
  intro c h hway hne hc
  rcases List.prefix_concat_iff.mp hway with rfl | hway
  · exact absurd rfl hne
  · by_cases hcb : c = b
    · obtain rfl : m = h := Option.some.inj (hm.symm.trans (hcb ▸ hc))
      exact hkind
    · exact hclear c h hway hcb hc

/-- Outside functions the walk goes on from all nodes but functions. -/
theorem mem_next_outside_iff {x y : Stop} :
    y ∈ outside.next x ↔ x.visit.node.kind ≠ .function ∧ y ∈ x.next := by
  rw [outside, Descent.next_upTo]
  by_cases hkind : x.visit.node.kind = .function
  · simp [isFunction, hkind]
  · simp only [isFunction, hkind, decide_false, Bool.false_eq_true, if_false, ne_eq,
      not_false_eq_true, true_and]
    rfl

/-- The walk that stays outside functions stops only where the way is clear. -/
theorem clear_of_mem_outside {x y : Stop} (hy : y ∈ outside.walk x) :
    ∃ b, y.address = x.address ++ b ∧ x.visit.node.at? b = some y.visit.node ∧
      Clear x.visit.node b := by
  refine outside.forall_mem_walk (P := fun y => ∃ b, y.address = x.address ++ b ∧
    x.visit.node.at? b = some y.visit.node ∧ Clear x.visit.node b)
    ⟨[], (List.append_nil _).symm, rfl, clear_nil _⟩ ?_ y hy
  rintro y _ ⟨b, haddress, hnode, hclear⟩ z hz
  obtain ⟨hkind, hz⟩ := mem_next_outside_iff.mp hz
  obtain ⟨i, slot, child, hbranch, rfl⟩ := mem_next_iff.mp hz
  refine ⟨b ++ [i], by rw [haddress, List.append_assoc], ?_,
    clear_append_singleton hnode hkind hclear i⟩
  rw [Tree.at?_append, hnode, Option.bind_some, Tree.at?_singleton, hbranch]
  rfl

/-- And it stops wherever the way is clear. -/
theorem exists_mem_outside {x : Stop} {n : Tree} {b : List Nat}
    (hn : x.visit.node.at? b = some n) (hclear : Clear x.visit.node b) :
    ∃ y ∈ outside.walk x, y.address = x.address ++ b ∧ y.visit.node = n := by
  induction b generalizing x with
  | nil =>
      cases hn
      exact ⟨x, outside.self_mem_walk x, (List.append_nil _).symm, rfl⟩
  | cons i b ih =>
      rw [Tree.at?] at hn
      split at hn
      next slot child hbranch =>
        obtain ⟨hkind, hclear⟩ := (clear_cons_iff hbranch).mp hclear
        have hbelow := mem_next_iff.mpr ⟨i, slot, child, hbranch, rfl⟩
        have hnext := mem_next_outside_iff.mpr ⟨hkind, hbelow⟩
        obtain ⟨y, hy, haddress, hnode⟩ := ih (x := ⟨_, child, some (slot, x.visit.node)⟩) hn hclear
        refine ⟨y, outside.mem_walk_of_mem_next hnext hy, ?_, hnode⟩
        rw [haddress, List.append_assoc]
        rfl
      next => cases hn

/-- The stops below a node that are not inside a function there. -/
def unenclosed (g : Tree) : List Stop := outside.walkFrom (next ⟨[], g, none⟩)

/-- An address below a child is enclosed if the way from the child on is not clear. -/
theorem enclosed_cons_iff {g child : Tree} {slot : Slot} {i : Nat} {b : List Nat}
    (hbranch : g.branches[i]? = some (slot, child)) : g.Enclosed (i :: b) ↔ ¬ Clear child b := by
  have hat (c : List Nat) : g.at? (i :: c) = child.at? c := by rw [Tree.at?, hbranch]
  rw [Clear]
  push Not
  constructor
  · rintro ⟨c, h, hway, hne, hnil, hc, hkind⟩
    rcases List.prefix_cons_iff.mp hway with rfl | ⟨c', rfl, hbelow⟩
    · exact absurd rfl hnil
    · exact ⟨c', h, hbelow, fun heq => hne (heq ▸ rfl), (hat c').symm.trans hc, hkind⟩
  · rintro ⟨c, h, hway, hne, hc, hkind⟩
    exact ⟨i :: c, h, (List.prefix_cons_inj i).mpr hway, fun heq => hne (List.cons.inj heq).2,
      List.cons_ne_nil i c, (hat c).trans hc, hkind⟩

/-- The walk outside functions meets all nodes below a node that are not inside a function there,
and no others. -/
theorem mem_unenclosed_iff {g n : Tree} {b : List Nat} :
    (∃ y ∈ unenclosed g, y.address = b ∧ y.visit.node = n) ↔
      b ≠ [] ∧ g.at? b = some n ∧ ¬ g.Enclosed b := by
  rw [unenclosed, outside.walkFrom_eq_flatMap]
  constructor
  · rintro ⟨y, hy, rfl, rfl⟩
    obtain ⟨x, hx, hy⟩ := List.mem_flatMap.mp hy
    obtain ⟨i, slot, child, hbranch, rfl⟩ := mem_next_iff.mp hx
    obtain ⟨b, haddress, hnode, hclear⟩ := clear_of_mem_outside hy
    rw [haddress]
    refine ⟨List.cons_ne_nil i b, ?_, ?_⟩
    · refine Eq.trans ?_ hnode
      exact (Tree.at?_append g [i] b).trans (by rw [Tree.at?_singleton, hbranch]; rfl)
    · exact fun henclosed => (enclosed_cons_iff hbranch).mp henclosed hclear
  · rintro ⟨hne, hn, henclosed⟩
    obtain ⟨i, b, rfl⟩ := List.exists_cons_of_ne_nil hne
    rw [Tree.at?] at hn
    split at hn
    next slot child hbranch =>
      have hclear : Clear child b := by
        by_contra hnot
        exact henclosed ((enclosed_cons_iff hbranch).mpr hnot)
      obtain ⟨y, hy, haddress, hnode⟩ :=
        exists_mem_outside (x := ⟨[] ++ [i], child, some (slot, g)⟩) hn hclear
      refine ⟨y, List.mem_flatMap.mpr ⟨_, ?_, hy⟩, haddress, hnode⟩
      exact mem_next_iff.mpr ⟨i, slot, child, hbranch, rfl⟩
    next => cases hn

/-- None of these is met twice. -/
theorem nodup_unenclosed (g : Tree) : ((unenclosed g).map (·.address)).Nodup := by
  have hbelow := nodup_addresses ⟨[], g, none⟩
  rw [descent.walk_eq, List.map_cons, List.nodup_cons] at hbelow
  have hperm := descent.flatMap_walk_perm_upTo isFunction (next ⟨[], g, none⟩)
  have hall := ((hperm.map (·.address)).nodup_iff).mp hbelow.2
  rw [List.map_append] at hall
  exact (List.nodup_append.mp hall).1

/-- The decisions below a node are those outside functions and those of the outermost
functions. -/
theorem countP_unenclosed (g : Tree) :
    ((next ⟨[], g, none⟩).flatMap descent.walk).countP decides =
      (unenclosed g).countP decides +
        total (fun x => x.visit.node.decisionPoints) ((unenclosed g).filter isFunction) := by
  rw [(descent.flatMap_walk_perm_upTo isFunction _).countP_eq, List.countP_append]
  refine congrArg _ ?_
  change ((unenclosed g).flatMap _).countP _ = _
  induction unenclosed g with
  | nil => rfl
  | cons x xs ih =>
      rw [List.flatMap_cons, List.countP_append, ih]
      cases hx : x.isFunction with
      | true =>
          rw [List.filter_cons_of_pos hx, total, if_pos rfl]
          exact congrArg (· + _) (countP_below hx)
      | false => simp [hx]

end Stop

namespace Tree

theorem complexity_sub_one (t : Tree) : t.complexity - 1 = t.decisionPoints := by
  rw [complexity, Nat.add_sub_cancel_left]

/-- A function is made up of its own decisions and the functions right below it. -/
theorem composes_unenclosed {g : Tree} (hkind : g.kind = .function) :
    g.Composes (((Stop.unenclosed g).filter Stop.decides).map (·.address))
      (((Stop.unenclosed g).filter Stop.isFunction).map fun x => (x.address, x.visit.node)) where
  own_nodup := (Stop.nodup_unenclosed g).sublist (List.filter_sublist.map _)
  mem_own b := by
    constructor
    · intro hb
      obtain ⟨x, hx, rfl⟩ := List.mem_map.mp hb
      obtain ⟨hx, hdecides⟩ := List.mem_filter.mp hx
      obtain ⟨_, hat, henclosed⟩ := Stop.mem_unenclosed_iff.mp ⟨x, hx, rfl, rfl⟩
      exact ⟨_, hat, hdecides, henclosed⟩
    · rintro ⟨n, hat, hdecides, henclosed⟩
      have hne : b ≠ [] := by
        rintro rfl
        obtain rfl := Option.some.inj hat
        rw [hkind] at hdecides
        cases hdecides
      obtain ⟨x, hx, rfl, rfl⟩ := Stop.mem_unenclosed_iff.mpr ⟨hne, hat, henclosed⟩
      exact List.mem_map_of_mem (List.mem_filter.mpr ⟨hx, hdecides⟩)
  outer_nodup := by
    rw [List.map_map]
    exact (Stop.nodup_unenclosed g).sublist (List.filter_sublist.map _)
  mem_outer b h := by
    constructor
    · intro hb
      obtain ⟨x, hx, heq⟩ := List.mem_map.mp hb
      cases heq
      obtain ⟨hx, hfunction⟩ := List.mem_filter.mp hx
      obtain ⟨hne, hat, henclosed⟩ := Stop.mem_unenclosed_iff.mp ⟨x, hx, rfl, rfl⟩
      exact ⟨hne, hat, Stop.isFunction_iff.mp hfunction, henclosed⟩
    · rintro ⟨hne, hat, hfunction, henclosed⟩
      obtain ⟨x, hx, rfl, rfl⟩ := Stop.mem_unenclosed_iff.mpr ⟨hne, hat, henclosed⟩
      refine List.mem_map.mpr ⟨x, ?_, rfl⟩
      exact List.mem_filter.mpr ⟨hx, Stop.isFunction_iff.mpr hfunction⟩
  complexity := by
    have hself : (⟨[], g, none⟩ : Stop).isFunction = true := Stop.isFunction_iff.mpr hkind
    rw [complexity, ← Stop.countP_below hself, Stop.countP_unenclosed, List.length_map,
      ← List.countP_eq_length_filter, total_map, Nat.add_assoc]
    simp only [complexity_sub_one]

/-- A node has at least the decision points of each node below it. -/
theorem decisionPoints_le {g h : Tree} {b : List Nat} (hb : g.at? b = some h) :
    h.decisionPoints ≤ g.decisionPoints := by
  obtain ⟨y, hy, _, rfl⟩ := Stop.exists_mem_walk (x := ⟨[], g, none⟩) hb
  have hsublist := (Stop.descent.walk_isInfix hy).sublist
  have hcount := hsublist.countP_le (p := Stop.decides)
  rwa [Stop.countP_walk, Stop.countP_walk] at hcount

end Tree

/-! ## Where nested functions are listed -/

namespace Stop

/-- What is below a stop is visited as it is when its node is a tree of its own. -/
theorem map_visit_below (x : Stop) :
    (x.next.flatMap descent.walk).map (·.visit) = x.visit.next.flatMap Visit.descent.walk := by
  have hvisits := descent.map_walk (e := Visit.descent) map_visit_next x
  rw [descent.walk_eq, Visit.descent.walk_eq, List.map_cons] at hvisits
  exact (List.cons.inj hvisits).2

/-- The functions inside the node of a stop. -/
def nested (x : Stop) : List Stop := (x.next.flatMap descent.walk).filter isFunction

/-- The functions from a function on are this function and those inside it. -/
theorem filter_walk {x : Stop} (hx : x.isFunction = true) :
    (descent.walk x).filter isFunction = x :: x.nested := by
  rw [descent.walk_eq, List.filter_cons_of_pos hx]
  rfl

/-- The summaries of a function start with its own, and those of the functions inside it follow. -/
theorem functionSummaries_eq {x : Stop} (hx : x.isFunction = true) :
    x.visit.node.functionSummaries =
      (⟨x.visit.node, none⟩ : Visit).summary :: (x.nested.map entry).map (·.2) := by
  have hnested : x.nested.map (·.visit) =
      (x.visit.next.flatMap Visit.descent.walk).filter fun v =>
        decide (v.node.kind = .function) := by
    rw [← map_visit_below, List.filter_map]
    rfl
  have hself : decide (x.visit.node.kind = .function) = true := hx
  rw [Tree.functionSummaries, Tree.functions, Tree.visits, Visit.descent.walk_eq]
  simp only [List.filter_cons, hself, if_true, List.map_cons, List.map_map]
  refine congrArg _ ?_
  have hsummaries := congrArg (List.map Visit.summary) hnested
  rw [List.map_map] at hsummaries
  exact hsummaries.symm

/-- The functions inside another have addresses strictly below it. -/
theorem address_of_mem_nested {x y : Stop} (hy : y ∈ x.nested) :
    x.address <+: y.address ∧ y.address ≠ x.address := by
  obtain ⟨z, hz, hy⟩ := List.mem_flatMap.mp (List.mem_of_mem_filter hy)
  have hlength := (address_isPrefix hy).length_le
  rw [length_address_of_mem_next hz] at hlength
  obtain ⟨i, _, _, _, rfl⟩ := mem_next_iff.mp hz
  refine ⟨(List.prefix_append _ _).trans (address_isPrefix hy), fun heq => ?_⟩
  rw [heq] at hlength
  omega

/-- Everything at an address below that of a stop is listed with the stop. -/
theorem mem_walk_of_isPrefix {t : Tree} {x y : Stop} (hx : x ∈ stops t) (hy : y ∈ stops t)
    (hway : x.address <+: y.address) : ∃ z ∈ descent.walk x, z.address = y.address := by
  obtain ⟨b, hb⟩ := hway
  have hat := (fits_of_mem_stops hy).node
  rw [← hb, Tree.at?_append, (fits_of_mem_stops hx).node, Option.bind_some] at hat
  obtain ⟨z, hz, haddress, _⟩ := exists_mem_walk hat
  exact ⟨z, hz, haddress.trans hb⟩

/-- The walk through a tree goes through a stop and what is below it in one piece, and to
nothing below it at any other time. -/
theorem exists_split {t : Tree} {x : Stop} (hx : x ∈ stops t) :
    ∃ before after, stops t = before ++ (descent.walk x ++ after) ∧
      ∀ y ∈ before ++ after, ¬ x.address <+: y.address := by
  obtain ⟨before, after, hsplit⟩ := descent.walk_isInfix hx
  have hstops : stops t = before ++ (descent.walk x ++ after) := by
    rw [← List.append_assoc]
    exact hsplit.symm
  refine ⟨before, after, hstops, fun y hy hway => ?_⟩
  have hmem : y ∈ stops t := by
    rw [hstops]
    rcases List.mem_append.mp hy with hy | hy <;> simp [hy]
  obtain ⟨z, hz, haddress⟩ := mem_walk_of_isPrefix hx hmem hway
  have hnodup := nodup_addresses ⟨[], t, none⟩
  change ((stops t).map _).Nodup at hnodup
  rw [hstops, List.map_append, List.map_append, List.nodup_append, List.nodup_append] at hnodup
  obtain ⟨_, ⟨_, _, hafter⟩, hbefore⟩ := hnodup
  rcases List.mem_append.mp hy with hy | hy
  · refine hbefore _ (List.mem_map_of_mem hy) _ ?_ haddress.symm
    exact List.mem_append_left _ (List.mem_map_of_mem hz)
  · exact hafter _ (List.mem_map_of_mem hz) _ (List.mem_map_of_mem hy) haddress

end Stop

namespace Tree

/-- Each function of a tree is listed with all functions inside it right behind it. -/
theorem exists_listsTogether {t g : Tree} {a : List Nat} (hg : t.at? a = some g)
    (hkind : g.kind = .function) :
    ∃ before d nested after, t.ListsTogether a g before d nested after := by
  obtain ⟨x, hx, rfl, rfl⟩ := Stop.exists_mem_walk (x := ⟨[], t, none⟩) hg
  obtain ⟨before, after, hstops, houtside⟩ := Stop.exists_split hx
  have hfunction : x.isFunction = true := Stop.isFunction_iff.mpr hkind
  have hregister : t.register = (before.filter Stop.isFunction).map Stop.entry ++
      (x.address, x.visit.summary) :: (x.nested.map Stop.entry ++
        (after.filter Stop.isFunction).map Stop.entry) := by
    rw [register, Stop.functionStops, hstops]
    change List.map _ (List.filter Stop.isFunction _) = _
    rw [List.filter_append, List.filter_append, Stop.filter_walk hfunction]
    simp [Stop.entry]
  refine ⟨_, _, _, _, ⟨hregister ▸ t.registers_register, ?_, ?_, ?_⟩⟩
  · intro e he
    obtain ⟨y, hy, rfl⟩ := List.mem_map.mp he
    exact Stop.address_of_mem_nested hy
  · intro e he
    rw [← List.map_append, ← List.filter_append] at he
    obtain ⟨y, hy, rfl⟩ := List.mem_map.mp he
    exact houtside y (List.mem_of_mem_filter hy)
  · exact ⟨_, Stop.functionSummaries_eq hfunction⟩

/-- The complexity of a function is that of its own decisions and, less one each, that of the
functions right below it; so it is at least that of every function inside it. The functions
inside it are listed in one piece right behind it, as in a report on that function alone. -/
theorem nested_functions_compose {t g : Tree} {a : List Nat} (hg : t.at? a = some g)
    (hkind : g.kind = .function) :
    (∃ own outer, g.Composes own outer) ∧
    (∀ b h, g.at? b = some h → h.kind = .function → h.complexity ≤ g.complexity) ∧
    ∃ before d nested after, t.ListsTogether a g before d nested after := by
  refine ⟨⟨_, _, composes_unenclosed hkind⟩, ?_, exists_listsTogether hg hkind⟩
  intro b h hb _
  exact Nat.add_le_add_left (decisionPoints_le hb) 1

/-- A function with functions in a parameter and in a condition, where another one is inside. -/
def closures : Tree :=
  .ofSlots { kind := .function, type := "function", name := some "outer" }
    { operands := [.ofSlots { kind := .binding, type := "parameter", name := some "given" }
        { value := some (Sketch.function [Sketch.branch [] []]) }]
      body := some (Sketch.block [.ofSlots { kind := .branch, type := "if" }
        { condition := some (Sketch.function [Sketch.loop [Sketch.statement],
            Sketch.function [Sketch.loop [], Sketch.leave]]) }]) }

theorem closures_compose :
    closures.complexity = 5 ∧ (∃ own outer, closures.Composes own outer) ∧
    (∃ b h, closures.at? b = some h ∧ h.kind = .function ∧ h.complexity = 3 ∧
      h.complexity ≤ closures.complexity) ∧
    ∃ before d nested after,
      (Sketch.block [Sketch.statement, closures]).ListsTogether [1] closures before d nested after ∧
      nested.map (·.2.name) = ["given", anonymousName, anonymousName] := by
  have hcompose := nested_functions_compose (t := Sketch.block [Sketch.statement, closures])
    (a := [1]) (g := closures) rfl rfl
  obtain ⟨hown, hle, before, d, nested, after, hlists⟩ := hcompose
  refine ⟨by decide +kernel, hown, ?_, before, d, nested, after, hlists, ?_⟩
  · exact ⟨[1, 0, 0], _, rfl, rfl, by decide +kernel, hle [1, 0, 0] _ rfl rfl⟩
  · obtain ⟨self, hbelow⟩ := hlists.below
    have hnames : closures.functionSummaries.map (·.name) =
        ["outer", "given", anonymousName, anonymousName] := by decide +kernel
    rw [hbelow, List.map_cons, List.map_map] at hnames
    exact (List.cons.inj hnames).2

end Tree

end Cyclomatic
