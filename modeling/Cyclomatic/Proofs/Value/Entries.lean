import Cyclomatic.Value.Basic

/-! # Looking up the entries of a map

A map as files give it has no key twice. Then what a name is looked up as is
told by which entries there are, and taking over the entries of another map
replaces what has the same name and leaves all else.
-/

namespace Cyclomatic

namespace Value

/-- A value as files give it: in each map, keys differ. -/
inductive Proper : Value → Prop
  | null : Proper .null
  | bool (b : Bool) : Proper (.bool b)
  | num (n : Num) : Proper (.num n)
  | text (s : String) : Proper (.text s)
  | list {items : List Value} (hitems : ∀ v ∈ items, Proper v) : Proper (.list items)
  | map {entries : List (Value × Value)}
      (hkeys : entries.Pairwise fun e f => e.1.same f.1 = false)
      (hvalues : ∀ e ∈ entries, Proper e.2) : Proper (.map entries)

theorem same_text (s t : String) : (text s).same (.text t) = (s == t) := by
  rw [same]

/-- Only a text is the same as a text, and only the very same one. -/
theorem same_text_iff {k : Value} {name : String} :
    k.same (.text name) = true ↔ k = .text name := by
  cases k with
  | text s => simp [same_text]
  | _ => simp [same, same.sameNumber, number?]

theorem text_same_iff {k : Value} {name : String} :
    (Value.text name).same k = true ↔ k = .text name := by
  cases k with
  | text s =>
      rw [same_text, beq_iff_eq, text.injEq]
      exact eq_comm
  | _ => simp [same]

end Value

namespace Entries

/-- No key is there twice. -/
def Distinct (es : Entries) : Prop := es.Pairwise fun e f => e.1.same f.1 = false

variable {es other : Entries} {key k v w : Value} {name : String}

/-- No key of a proper map is there twice. -/
theorem distinct_of_proper (hes : (Value.map es).Proper) : es.Distinct := by
  cases hes with
  | map hkeys _ => exact hkeys

theorem proper_of_mem (hes : (Value.map es).Proper) (hmem : (k, v) ∈ es) : v.Proper := by
  cases hes with
  | map _ hvalues => exact hvalues (k, v) hmem

theorem field?_nil : field? [] name = none := rfl

theorem field?_cons_self : field? ((.text name, v) :: es) name = some v := by
  have hsame : (Value.text name).same (.text name) = true := Value.same_text_iff.mpr rfl
  simp [field?, get?, hsame]

theorem field?_cons_of_ne (hk : k ≠ .text name) : field? ((k, v) :: es) name = field? es name := by
  have hsame : k.same (.text name) = false := by
    rw [← Bool.not_eq_true, Value.same_text_iff]
    exact hk
  simp [field?, get?, hsame]

theorem field?_cons_congr {e : Value × Value} (hrest : field? es name = field? other name) :
    field? (e :: es) name = field? (e :: other) name := by
  obtain ⟨k, w⟩ := e
  by_cases hk : k = .text name
  · subst hk
    rw [field?_cons_self, field?_cons_self]
  · rw [field?_cons_of_ne hk, field?_cons_of_ne hk, hrest]

/-- A record is looked up field by field. -/
theorem field?_record (fields : List (String × Value)) (name : String) :
    field? (fields.map fun (k, v) => (.text k, v)) name = fields.lookup name := by
  induction fields with
  | nil => rfl
  | cons field fields ih =>
      obtain ⟨k, v⟩ := field
      by_cases hk : name = k
      · subst hk
        rw [List.map_cons, field?_cons_self, List.lookup_cons_self]
      · rw [List.map_cons, field?_cons_of_ne fun heq => hk (Value.text.inj heq).symm, ih,
          List.lookup_cons, beq_false_of_ne hk]

theorem field?_of_record {fields : List (String × Value)} (hes : Value.record fields = .map es)
    (name : String) : es.field? name = fields.lookup name := by
  cases hes
  exact field?_record fields name

/-- What is looked up is there. -/
theorem mem_of_field? (hfield : es.field? name = some v) : (.text name, v) ∈ es := by
  induction es with
  | nil => cases hfield
  | cons e es ih =>
      obtain ⟨k, w⟩ := e
      by_cases hk : k = .text name
      · subst hk
        rw [field?_cons_self] at hfield
        cases hfield
        exact List.mem_cons_self
      · rw [field?_cons_of_ne hk] at hfield
        exact List.mem_cons_of_mem _ (ih hfield)

/-- Where keys differ, what a name is looked up as is what the map holds under it. -/
theorem field?_eq_some_iff (hes : es.Distinct) :
    es.field? name = some v ↔ (.text name, v) ∈ es := by
  refine ⟨mem_of_field?, fun hmem => ?_⟩
  induction es with
  | nil => cases hmem
  | cons e es ih =>
      obtain ⟨k, w⟩ := e
      obtain ⟨hfirst, hrest⟩ := List.pairwise_cons.mp hes
      rcases List.mem_cons.mp hmem with heq | hlater
      · cases heq
        exact field?_cons_self
      · have hk : k ≠ .text name := by
          rintro rfl
          have hdiffer := hfirst _ hlater
          rw [Value.same_text_iff.mpr rfl] at hdiffer
          cases hdiffer
        rw [field?_cons_of_ne hk]
        exact ih hrest hlater

/-- Nothing is looked up if no entry has the key. -/
theorem field?_eq_none_iff : es.field? name = none ↔ ∀ v, (.text name, v) ∉ es := by
  constructor
  · intro hnone
    induction es with
    | nil => exact fun v => List.not_mem_nil
    | cons e es ih =>
        obtain ⟨k, w⟩ := e
        by_cases hk : k = .text name
        · subst hk
          rw [field?_cons_self] at hnone
          cases hnone
        · rw [field?_cons_of_ne hk] at hnone
          intro v hmem
          rcases List.mem_cons.mp hmem with heq | hmem
          · cases heq
            exact hk rfl
          · exact ih hnone v hmem
  · intro hnone
    cases hfield : es.field? name with
    | none => rfl
    | some v => exact absurd (mem_of_field? hfield) (hnone v)

/-- What is inserted is looked up. -/
theorem field?_insert_self : (es.insert (.text name) v).field? name = some v := by
  induction es with
  | nil => exact field?_cons_self
  | cons e es ih =>
      obtain ⟨k, w⟩ := e
      rw [insert]
      split
      next hsame =>
        obtain rfl := Value.same_text_iff.mp hsame
        exact field?_cons_self
      next hsame =>
        rw [field?_cons_of_ne fun hk => hsame (Value.same_text_iff.mpr hk), ih]

/-- To insert under one key leaves the others as they are. -/
theorem field?_insert_of_ne (hkey : key ≠ .text name) :
    (es.insert key v).field? name = es.field? name := by
  induction es with
  | nil => exact field?_cons_of_ne hkey
  | cons e es ih =>
      obtain ⟨k, w⟩ := e
      rw [insert]
      split
      next hsame =>
        have hk : k ≠ .text name := by
          rintro rfl
          exact hkey (Value.text_same_iff.mp hsame)
        rw [field?_cons_of_ne hk, field?_cons_of_ne hk]
      next => exact field?_cons_congr ih

/-- What is taken over goes before what was there. -/
theorem field?_update (hother : other.Distinct) :
    (es.update other).field? name = (other.field? name).or (es.field? name) := by
  induction other generalizing es with
  | nil => rfl
  | cons e other ih =>
      obtain ⟨k, w⟩ := e
      obtain ⟨hfirst, hrest⟩ := List.pairwise_cons.mp hother
      change (update (es.insert k w) other).field? name = _
      rw [ih hrest]
      by_cases hk : k = .text name
      · subst hk
        -- The name is not there again, so the entry is not replaced.
        have hnone : field? other name = none := by
          refine field?_eq_none_iff.mpr fun v hmem => ?_
          have hdiffer := hfirst _ hmem
          rw [Value.same_text_iff.mpr rfl] at hdiffer
          cases hdiffer
        rw [field?_insert_self, field?_cons_self, hnone]
        rfl
      · rw [field?_insert_of_ne hk, field?_cons_of_ne hk]

theorem erase_cons (e : Value × Value) (es : Entries) :
    erase (e :: es) key = if e.1.same key then es.erase key else e :: es.erase key := by
  rw [erase, List.filter_cons]
  cases hsame : e.1.same key <;> simp [hsame] <;> rfl

/-- To erase one key leaves the others as they are. -/
theorem field?_erase_of_ne {erased : String} (hne : erased ≠ name) :
    (es.erase (.text erased)).field? name = es.field? name := by
  induction es with
  | nil => rfl
  | cons e es ih =>
      obtain ⟨k, w⟩ := e
      rw [erase_cons]
      split
      next hsame =>
        obtain rfl := Value.same_text_iff.mp hsame
        rw [field?_cons_of_ne fun heq => hne (Value.text.inj heq), ih]
      next => exact field?_cons_congr ih

end Entries

end Cyclomatic
