import Cyclomatic.Proofs.Scan.Collection
import Cyclomatic.Proofs.Tree.Sketch
import Cyclomatic.Proofs.Walk

/-! # Looking up a function that is listed

A function is listed once for each place in the tree where it occurs, under the
name it goes by at that place. The look-up by name and line finds the first of
the listed functions that fit, and so every function of a report has a diagram.
-/

namespace Cyclomatic

namespace Tree

/-- The node at an address, which tells the child to go to step by step. -/
def at? : Tree → List Nat → Option Tree
  | t, [] => some t
  | t, i :: rest =>
      match t.branches[i]? with
      | some (_, c) => c.at? rest
      | none => none

/-- The slot that holds what is at an address, and the node it is a slot of. -/
def holder? (t : Tree) (a : List Nat) : Option (Slot × Tree) := do
  let i ← a.getLast?
  let p ← t.at? a.dropLast
  let (slot, _) ← p.branches[i]?
  return (slot, p)

/-- The name of the function at an address: its own, or else that of the variable whose value
it is, or else the one that all other functions go by. An empty name is as good as none. -/
def nameAt (t : Tree) (a : List Nat) : String :=
  match (t.at? a).bind fun f => nonempty? f.head.name with
  | some own => own
  | none =>
      match t.holder? a with
      | some (.value, p) =>
          if p.kind = .binding then (nonempty? p.head.name).getD anonymousName else anonymousName
      | _ => anonymousName

/-- What a report says about the function at an address. -/
structure Describes (t : Tree) (a : List Nat) (f : Tree) (d : FunctionSummary) : Prop where
  node : t.at? a = some f
  name : d.name = t.nameAt a
  line : d.line = f.place.startLine
  endLine : d.endLine = f.place.endLine
  complexity : d.complexity = f.complexity

/-- A register of the functions of a tree by their addresses, in the order of the report. -/
structure Registers (t : Tree) (register : List (List Nat × FunctionSummary)) : Prop where
  summaries : register.map (·.2) = t.functionSummaries
  /-- One entry for each place where a function occurs. -/
  distinct : (register.map (·.1)).Nodup
  complete : ∀ a, (∃ d, (a, d) ∈ register) ↔ ∃ f, t.at? a = some f ∧ f.kind = .function
  describes : ∀ a d, (a, d) ∈ register → ∃ f, t.Describes a f d
  /-- The look-up gives the function of the first entry that fits. -/
  found : ∀ name line f, t.findFunction? name line = some f ↔
    ∃ before a d after, register = before ++ (a, d) :: after ∧ t.Describes a f d ∧
      d.name = name ∧ d.line = line ∧ ∀ e ∈ before, ¬ (e.2.name = name ∧ e.2.line = line)

/-- The node at an address below another is found from the node there. -/
theorem at?_append (t : Tree) (a b : List Nat) : t.at? (a ++ b) = (t.at? a).bind (·.at? b) := by
  induction a generalizing t with
  | nil => rfl
  | cons i a ih =>
      rw [List.cons_append, at?, at?]
      cases t.branches[i]? with
      | none => rfl
      | some branch => exact ih branch.2

theorem at?_singleton (t : Tree) (i : Nat) : t.at? [i] = (t.branches[i]?).map (·.2) := by
  rw [at?]
  cases t.branches[i]? <;> rfl

/-- The holder of a node is the node right above it, with the slot that it is in. -/
theorem holder?_append_singleton {t p : Tree} {a : List Nat} (hp : t.at? a = some p) (i : Nat) :
    t.holder? (a ++ [i]) = (p.branches[i]?).map fun branch => (branch.1, p) := by
  simp only [holder?, List.getLast?_concat, List.dropLast_concat, hp, Option.bind_eq_bind,
    Option.bind_some]
  cases p.branches[i]? <;> rfl

end Tree

/-! ## Visits with their addresses -/

/-- A visit, and the address of the node that is visited. -/
structure Stop where
  address : List Nat
  visit : Visit

namespace Stop

def next (x : Stop) : List Stop :=
  x.visit.node.branches.zipIdx.map fun ((slot, child), i) =>
    ⟨x.address ++ [i], child, some (slot, x.visit.node)⟩

/-- Addresses are kept beside what a walk visits and do not change it. -/
theorem map_visit_next (x : Stop) : x.next.map (·.visit) = x.visit.next := by
  rw [Visit.next, ← List.zipIdx_map_fst 0 x.visit.node.branches, next, List.map_map, List.map_map]
  rfl

def descent : Descent Stop where
  next := next
  size x := x.visit.node.size
  shrinks x := by
    rw [← total_map (fun v : Visit => v.node.size), map_visit_next]
    exact Visit.descent.shrinks x.visit

/-- All stops of a walk through a tree. -/
def stops (t : Tree) : List Stop := descent.walk ⟨[], t, none⟩

/-- The stops of a walk are its visits, with addresses. -/
theorem map_visit_stops (t : Tree) : (stops t).map (·.visit) = t.visits :=
  descent.map_walk map_visit_next ⟨[], t, none⟩

/-- The stops right below one are its children, by their numbers. -/
theorem mem_next_iff {x y : Stop} : y ∈ x.next ↔
    ∃ i slot child, x.visit.node.branches[i]? = some (slot, child) ∧
      y = ⟨x.address ++ [i], child, some (slot, x.visit.node)⟩ := by
  rw [next, List.mem_map]
  constructor
  · rintro ⟨⟨⟨slot, child⟩, i⟩, hmem, rfl⟩
    exact ⟨i, slot, child, List.mem_zipIdx_iff_getElem?.mp hmem, rfl⟩
  · rintro ⟨i, slot, child, hbranch, rfl⟩
    exact ⟨((slot, child), i), List.mem_zipIdx_iff_getElem?.mpr hbranch, rfl⟩

/-- A stop is at the node it visits, and the node is held as the visit tells. -/
structure Fits (t : Tree) (x : Stop) : Prop where
  node : t.at? x.address = some x.visit.node
  via : t.holder? x.address = x.visit.via

/-- At every stop of a walk, the address leads to the node and to its holder. -/
theorem fits_of_mem_stops {t : Tree} {x : Stop} (hx : x ∈ stops t) : x.Fits t := by
  refine descent.forall_mem_walk (P := Fits t) ⟨rfl, rfl⟩ ?_ x hx
  intro x _ hfits y hy
  obtain ⟨i, slot, child, hbranch, rfl⟩ := mem_next_iff.mp hy
  constructor
  · rw [Tree.at?_append, hfits.node, Option.bind_some, Tree.at?_singleton, hbranch]
    rfl
  · rw [Tree.holder?_append_singleton hfits.node, hbranch]
    rfl

/-- Every address of a node is stopped at. -/
theorem exists_mem_walk {x : Stop} {f : Tree} {a : List Nat} (hf : x.visit.node.at? a = some f) :
    ∃ y ∈ descent.walk x, y.address = x.address ++ a ∧ y.visit.node = f := by
  induction a generalizing x with
  | nil =>
      cases hf
      exact ⟨x, descent.self_mem_walk x, (List.append_nil _).symm, rfl⟩
  | cons i a ih =>
      rw [Tree.at?] at hf
      split at hf
      next slot child hbranch =>
        have hnext := mem_next_iff.mpr ⟨i, slot, child, hbranch, rfl⟩
        obtain ⟨y, hy, haddress, hnode⟩ := ih (x := ⟨_, child, some (slot, x.visit.node)⟩) hf
        refine ⟨y, descent.mem_walk_of_mem_next hnext hy, ?_, hnode⟩
        rw [haddress, List.append_assoc]
        rfl
      next => cases hf

/-- A walk stops at every address, and there it meets the node that the address leads to. -/
theorem mem_addresses_iff {t : Tree} {a : List Nat} {P : Tree → Prop} :
    (∃ x ∈ stops t, P x.visit.node ∧ x.address = a) ↔ ∃ f, t.at? a = some f ∧ P f := by
  constructor
  · rintro ⟨x, hx, hP, rfl⟩
    exact ⟨_, (fits_of_mem_stops hx).node, hP⟩
  · rintro ⟨f, hf, hP⟩
    obtain ⟨x, hx, haddress, rfl⟩ := exists_mem_walk (x := ⟨[], t, none⟩) hf
    exact ⟨x, hx, hP, haddress⟩

/-! ## No address twice -/

/-- The address of a stop starts with those of all stops above it. -/
theorem address_isPrefix {x y : Stop} (hy : y ∈ descent.walk x) : x.address <+: y.address := by
  refine descent.forall_mem_walk (P := fun y => x.address <+: y.address)
    (List.prefix_refl _) ?_ y hy
  intro y _ hprefix z hz
  obtain ⟨i, _, _, _, rfl⟩ := mem_next_iff.mp hz
  exact hprefix.trans (List.prefix_append _ _)

/-- The stops right below one have different addresses. -/
theorem pairwise_next (x : Stop) : x.next.Pairwise fun y z => y.address ≠ z.address := by
  have hplaces : (x.visit.node.branches.zipIdx.map Prod.snd).Pairwise (· ≠ ·) := by
    rw [List.zipIdx_map_snd]
    exact List.nodup_range'
  rw [List.pairwise_map] at hplaces
  rw [next, List.pairwise_map]
  refine hplaces.imp ?_
  intro p q hne heq
  exact hne (List.singleton_inj.mp (List.append_cancel_left heq))

theorem length_address_of_mem_next {x y : Stop} (hy : y ∈ x.next) :
    y.address.length = x.address.length + 1 := by
  obtain ⟨i, _, _, _, rfl⟩ := mem_next_iff.mp hy
  exact List.length_append

/-- No walk stops at one address twice, because the subtrees of different children have addresses
that differ at once. -/
theorem nodup_addresses (x : Stop) : ((descent.walk x).map (·.address)).Nodup := by
  induction x using descent.induct with
  | hnext x ih =>
      rw [descent.walk_eq, List.map_cons, List.map_flatMap, List.nodup_cons]
      constructor
      · intro hmem
        obtain ⟨y, hy, hmem⟩ := List.mem_flatMap.mp hmem
        obtain ⟨z, hz, heq⟩ := List.mem_map.mp hmem
        have hlength := (address_isPrefix hz).length_le
        rw [heq, length_address_of_mem_next hy] at hlength
        omega
      · apply List.pairwise_flatMap.mpr
        refine ⟨ih, (pairwise_next x).imp_of_mem ?_⟩
        -- Addresses below different children differ where the ways part.
        intro y z hy hz hne a ha b hb heq
        obtain ⟨y', hy', rfl⟩ := List.mem_map.mp ha
        obtain ⟨z', hz', rfl⟩ := List.mem_map.mp hb
        have hprefix := address_isPrefix hz'
        rw [← heq] at hprefix
        have hlength : y.address.length = z.address.length := by
          rw [length_address_of_mem_next hy, length_address_of_mem_next hz]
        have hle := List.prefix_of_prefix_length_le (address_isPrefix hy') hprefix
          (Nat.le_of_eq hlength)
        exact hne (hle.eq_of_length hlength)

/-! ## The functions of a tree, by address -/

def functionStops (t : Tree) : List Stop := (stops t).filter (·.visit.node.kind = .function)

theorem map_visit_functionStops (t : Tree) : (functionStops t).map (·.visit) = t.functions := by
  rw [Tree.functions, ← map_visit_stops, List.filter_map]
  rfl

/-- The name of a function is told by its address. -/
theorem functionName_of_fits {t : Tree} {x : Stop} (hfits : x.Fits t) :
    x.visit.functionName = t.nameAt x.address := by
  rw [Tree.nameAt, hfits.node, hfits.via, Option.bind_some, Visit.functionName]
  cases nonempty? x.visit.node.head.name with
  | some own => rfl
  | none =>
      rw [Option.none_or, Visit.boundName?]
      cases x.visit.via with
      | none => rfl
      | some via =>
          obtain ⟨slot, p⟩ := via
          cases slot with
          | value =>
              dsimp only
              split <;> rfl
          | _ => rfl

/-- What the register says about a stop. -/
def entry (x : Stop) : List Nat × FunctionSummary := (x.address, x.visit.summary)

/-- The summary of a function describes what stands at its address. -/
theorem describes_of_mem {t : Tree} {x : Stop} (hx : x ∈ functionStops t) :
    t.Describes x.address x.visit.node x.visit.summary where
  node := (fits_of_mem_stops (List.mem_of_mem_filter hx)).node
  name := functionName_of_fits (fits_of_mem_stops (List.mem_of_mem_filter hx))
  line := rfl
  endLine := rfl
  complexity := rfl

end Stop

namespace Tree

variable {t f : Tree} {name : String} {line : Int}

/-- What the look-up tests is what the report says. -/
theorem fits_iff {v : Visit} :
    (v.node.place.startLine = line && v.functionName = name : Bool) = true ↔
      v.summary.name = name ∧ v.summary.line = line := by
  simp only [Bool.and_eq_true, decide_eq_true_eq, Visit.summary]
  exact And.comm

/-- A search gives the first function with the name and line that are asked for. -/
theorem findFunction?_eq_some_iff : t.findFunction? name line = some f ↔
    ∃ (before : List Stop) (x : Stop) (after : List Stop),
      Stop.functionStops t = before ++ x :: after ∧ x.visit.node = f ∧
      (x.visit.summary.name = name ∧ x.visit.summary.line = line) ∧
      ∀ y ∈ before, ¬ (y.visit.summary.name = name ∧ y.visit.summary.line = line) := by
  rw [findFunction?, ← Stop.map_visit_functionStops, List.find?_map, Option.map_map,
    Option.map_eq_some_iff]
  simp only [List.find?_eq_some_iff_append, Function.comp_apply, fits_iff, Bool.not_eq_true',
    ← Bool.not_eq_true]
  constructor
  · rintro ⟨x, ⟨hfits, before, after, hlist, hbefore⟩, rfl⟩
    exact ⟨before, x, after, hlist, rfl, hfits, hbefore⟩
  · rintro ⟨before, x, after, hlist, rfl, hfits, hbefore⟩
    exact ⟨x, ⟨hfits, before, after, hlist, hbefore⟩, rfl⟩

/-- A function is found exactly if a summary has its name and line. -/
theorem isSome_findFunction?_iff : (t.findFunction? name line).isSome = true ↔
    ∃ d ∈ t.functionSummaries, d.name = name ∧ d.line = line := by
  rw [findFunction?, Option.isSome_map, List.find?_isSome, functionSummaries]
  simp only [fits_iff]
  constructor
  · rintro ⟨v, hv, hfits⟩
    exact ⟨v.summary, List.mem_map_of_mem hv, hfits⟩
  · rintro ⟨d, hd, hfits⟩
    obtain ⟨v, hv, rfl⟩ := List.mem_map.mp hd
    exact ⟨v, hv, hfits⟩

/-! ## The register of the functions -/

def register (t : Tree) : List (List Nat × FunctionSummary) :=
  (Stop.functionStops t).map Stop.entry

theorem mem_register_iff {a : List Nat} {d : FunctionSummary} : (a, d) ∈ t.register ↔
    ∃ x ∈ Stop.functionStops t, x.address = a ∧ x.visit.summary = d := by
  simp [register, Stop.entry]

/-- The summaries of a tree are those of its register, in order. -/
theorem map_snd_register (t : Tree) : t.register.map (·.2) = t.functionSummaries := by
  rw [register, functionSummaries, ← Stop.map_visit_functionStops, List.map_map, List.map_map]
  rfl

/-- No address is registered twice. -/
theorem nodup_register (t : Tree) : (t.register.map (·.1)).Nodup := by
  have haddresses := Stop.nodup_addresses ⟨[], t, none⟩
  rw [register, List.map_map]
  exact haddresses.sublist (List.filter_sublist.map _)

/-- An address is registered exactly if a function stands there. -/
theorem mem_register_fst_iff (t : Tree) (a : List Nat) :
    (∃ d, (a, d) ∈ t.register) ↔ ∃ f, t.at? a = some f ∧ f.kind = .function := by
  rw [← Stop.mem_addresses_iff]
  constructor
  · rintro ⟨d, hmem⟩
    obtain ⟨x, hx, haddress, _⟩ := mem_register_iff.mp hmem
    obtain ⟨hstop, hkind⟩ := List.mem_filter.mp hx
    exact ⟨x, hstop, of_decide_eq_true hkind, haddress⟩
  · rintro ⟨x, hstop, hkind, haddress⟩
    refine ⟨x.visit.summary, mem_register_iff.mpr ⟨x, ?_, haddress, rfl⟩⟩
    exact List.mem_filter.mpr ⟨hstop, decide_eq_true hkind⟩

/-- The function that is found is the one of the first entry that fits. -/
theorem findFunction?_register (t : Tree) (name : String) (line : Int) (f : Tree) :
    t.findFunction? name line = some f ↔
      ∃ before a d after, t.register = before ++ (a, d) :: after ∧ t.Describes a f d ∧
        d.name = name ∧ d.line = line ∧ ∀ e ∈ before, ¬ (e.2.name = name ∧ e.2.line = line) := by
  rw [findFunction?_eq_some_iff]
  constructor
  · rintro ⟨before, x, after, hlist, rfl, ⟨hname, hline⟩, hbefore⟩
    have hx : x ∈ Stop.functionStops t := by simp [hlist]
    refine ⟨before.map Stop.entry, x.address, x.visit.summary, after.map Stop.entry, ?_,
      Stop.describes_of_mem hx, hname, hline, List.forall_mem_map.mpr hbefore⟩
    rw [register, hlist, List.map_append, List.map_cons]
    rfl
  · rintro ⟨before, a, d, after, hlist, hdescribes, hname, hline, hbefore⟩
    obtain ⟨before', rest, hstops, rfl, hrest⟩ := List.map_eq_append_iff.mp hlist
    obtain ⟨x, after', rfl, hx, _⟩ := List.map_eq_cons_iff.mp hrest
    cases hx
    have hx : x ∈ Stop.functionStops t := by simp [hstops]
    have hnode := (Stop.describes_of_mem hx).node
    refine ⟨before', x, after', hstops, ?_, ⟨hname, hline⟩, ?_⟩
    · exact Option.some.inj (hnode.symm.trans hdescribes.node)
    · intro y hy
      exact hbefore y.entry (List.mem_map_of_mem hy)

/-- The register of a tree lists each of its functions once, under its address and as it is. -/
theorem registers_register (t : Tree) : t.Registers t.register where
  summaries := map_snd_register t
  distinct := nodup_register t
  complete := mem_register_fst_iff t
  describes a d hmem := by
    obtain ⟨x, hx, rfl, rfl⟩ := mem_register_iff.mp hmem
    exact ⟨_, Stop.describes_of_mem hx⟩
  found := findFunction?_register t

end Tree

namespace Analysis

variable {grammar : Grammar} {content path : String} {language : Option String}

/-- Which language is asked for does not matter, as long as there is a parser for it. -/
theorem parse_none_of_parse {p : Parsed}
    (hp : (parse grammar content path language).result = .ok p) :
    (parse grammar content path none).result = .ok p := by
  unfold parse at hp
  dsimp only at hp
  split at hp
  next => rwa [Scan.parse_none]
  next => cases hp

/-- A report with functions is one of a source that parses. -/
theorem exists_parsed_of_analyze {r : FileReport} {d : FunctionSummary}
    (hr : (analyze grammar content path language).result = .ok r) (hd : d ∈ r.functions) :
    ∃ p, (parse grammar content path none).result = .ok p ∧ d ∈ p.tree.functionSummaries := by
  unfold analyze at hr
  dsimp only at hr
  split at hr
  next p hp =>
    cases hr
    exact ⟨p, parse_none_of_parse hp, hd⟩
  next =>
    cases hr
    cases hd
  next => cases hr

theorem result_bind_of_ok {α β : Type} {x : Traced α} {f : α → Traced β} {a : α}
    (hx : x.result = .ok a) : (x >>= f).result = (f a).result := by
  obtain ⟨events, result⟩ := x
  cases hx
  rfl

/-- A function that is found has a diagram, unless its graph cannot be laid down. -/
theorem findDiagram_of_found {name : String} {line : Int} {p : Parsed} {f : Tree}
    (hp : (parse grammar content path none).result = .ok p)
    (hf : p.tree.findFunction? name line = some f) :
    (findDiagram grammar content name line path).result =
      (diagram p.source f name path).result.map some := by
  unfold findDiagram
  rw [result_bind_of_ok hp, hf]
  dsimp only
  cases hresult : (diagram p.source f name path).result with
  | ok d => exact Traced.bind_result_eq_ok_iff.mpr ⟨d, hresult, rfl⟩
  | error e => exact Traced.bind_result_eq_error_iff.mpr (.inl hresult)

/-- Each place in a tree where a function occurs has one entry in the report, under the name
that the function goes by there; the look-up finds the first entry that fits, and only if there
is one; and so every function of a report on a source has a diagram under the same path, unless
its graph cannot be laid down. -/
theorem lookup_agrees_with_report :
    (∀ t : Tree, ∃ register, t.Registers register) ∧
    (∀ (t : Tree) (name : String) (line : Int), (t.findFunction? name line).isSome = true ↔
      ∃ d ∈ t.functionSummaries, d.name = name ∧ d.line = line) ∧
    ∀ (grammar : Grammar) (content path : String) (language : Option String) (r : FileReport),
      (analyze grammar content path language).result = .ok r → ∀ d ∈ r.functions,
        ∃ p f, (parse grammar content path none).result = .ok p ∧
          p.tree.findFunction? d.name d.line = some f ∧
          (findDiagram grammar content d.name d.line path).result =
            (diagram p.source f d.name path).result.map some := by
  refine ⟨fun t => ⟨t.register, t.registers_register⟩, ?_, ?_⟩
  · intro t name line
    exact Tree.isSome_findFunction?_iff
  · intro grammar content path language r hr d hd
    obtain ⟨p, hp, hlisted⟩ := exists_parsed_of_analyze hr hd
    have hsome := Tree.isSome_findFunction?_iff.mpr ⟨d, hlisted, rfl, rfl⟩
    obtain ⟨f, hf⟩ := Option.isSome_iff_exists.mp hsome
    exact ⟨p, f, hp, hf, findDiagram_of_found hp hf⟩

/-- A variable that is bound to a function by a pattern in which the same function occurs. -/
def sameTwice : Tree :=
  .ofSlots { kind := .binding, type := "declarator", name := some "f" }
    { operands := [.ofSlots { kind := .plain, type := "pattern" }
        { operands := [Sketch.function []] }]
      value := some (Sketch.function []) }

/-- A grammar for which every source is one function. -/
def loneArrow : Grammar := fun _ _ =>
  .tree false (.node { type := "arrow_function", start := 0, stop := 5 } [])

theorem sameTwice_and_loneArrow_found :
    (∃ register, sameTwice.Registers register ∧
      register.map (·.2.name) = ["Anonymous Function", "f"]) ∧
    (sameTwice.findFunction? "f" 0).isSome = true ∧
    (∃ p f, (parse loneArrow "()=>a" "a.js" none).result = .ok p ∧
      p.tree.findFunction? "Anonymous Function" 1 = some f) ∧
    (findDiagram loneArrow "()=>a" "Anonymous Function" 1 "a.js").result.toOption.map
      Option.isSome = some true := by
  obtain ⟨hregister, hfound, hdiagram⟩ := lookup_agrees_with_report
  refine ⟨?_, (hfound sameTwice "f" 0).mpr (by decide +kernel), ?_, by decide +kernel⟩
  · obtain ⟨register, hregisters⟩ := hregister sameTwice
    refine ⟨register, hregisters, ?_⟩
    have hnames := congrArg (List.map FunctionSummary.name) hregisters.summaries
    rw [List.map_map] at hnames
    exact hnames.trans (by decide +kernel)
  · have hreport : (analyze loneArrow "()=>a" "a.js" none).result.toOption.map (·.functions) =
        some [⟨"Anonymous Function", 1, 1, 1⟩] := by decide +kernel
    cases hresult : (analyze loneArrow "()=>a" "a.js" none).result with
    | error e =>
        rw [hresult] at hreport
        cases hreport
    | ok r =>
        rw [hresult] at hreport
        have hfunctions : r.functions = [⟨"Anonymous Function", 1, 1, 1⟩] := Option.some.inj hreport
        obtain ⟨p, f, hp, hf, _⟩ := hdiagram loneArrow "()=>a" "a.js" none r hresult _
          (hfunctions ▸ List.mem_singleton_self _)
        exact ⟨p, f, hp, hf⟩

end Analysis

end Cyclomatic
