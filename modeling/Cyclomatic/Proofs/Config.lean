import Cyclomatic.Config.Basic
import Cyclomatic.Proofs.Value.Entries

/-! # The normal form of a configuration

Whatever mix of sections, flat names and short names a mapping uses, each
setting is what the most preferred of its spellings gives. The configuration
that is read is written with flat names only, and reads back as it is.
-/

namespace Cyclomatic

namespace OutputSettings

/-- The settings of the output section. -/
def fields : List (String × (OutputSettings → Value)) :=
  [("format", format), ("output_file", outputFile), ("verbose", verbose), ("color", colour)]

/-- Output settings are the same if all their fields are. -/
theorem eq_of_get {s s' : OutputSettings} (hget : ∀ f ∈ fields, f.2 s = f.2 s') : s = s' := by
  simp only [fields, List.forall_mem_cons] at hget
  obtain ⟨hformat, hfile, hverbose, hcolour, -⟩ := hget
  cases s
  cases s'
  simp_all

/-- Nothing but the settings may be given; what is not given is as usual. -/
theorem ofEntries_eq_ok_iff {es : Entries} {s : OutputSettings} :
    ofEntries es = .ok s ↔ (∀ e ∈ es, ∃ name ∈ names, e.1 = .text name) ∧
      ∀ f ∈ fields, f.2 s = (es.field? f.1).getD (f.2 {}) := by
  unfold ofEntries
  split
  next hall =>
    refine ⟨fun hs => (by cases hs), fun ⟨hnames, _⟩ => ?_⟩
    rw [Bool.not_eq_true', ← Bool.not_eq_true, List.all_eq_true] at hall
    refine absurd (fun e he => ?_) hall
    obtain ⟨name, -, hname⟩ := hnames e he
    rw [hname]
    rfl
  next hall =>
    rw [Bool.not_eq_true', Bool.not_eq_false, List.all_eq_true] at hall
    split
    next k v hfound =>
      refine ⟨fun hs => (by cases hs), fun ⟨hnames, _⟩ => ?_⟩
      have hmem := List.mem_of_find?_eq_some hfound
      have hunknown := List.find?_some hfound
      obtain ⟨name, hname, hk⟩ := hnames _ hmem
      obtain rfl : k = .text name := hk
      exact absurd hname (of_decide_eq_true hunknown)
    next hfound =>
      rw [List.find?_eq_none] at hfound
      have hnames : ∀ e ∈ es, ∃ name ∈ names, e.1 = .text name := by
        intro e he
        obtain ⟨k, v⟩ := e
        have htext := hall _ he
        have hknown : k.display ∈ names := by simpa using hfound _ he
        cases k with
        | text name => exact ⟨name, hknown, rfl⟩
        | _ => cases htext
      constructor
      · intro hs
        cases hs
        exact ⟨hnames, by simp [fields]⟩
      · rintro ⟨-, hget⟩
        refine congrArg _ (eq_of_get fun f hf => ?_)
        rw [hget f hf]
        revert f
        simp [fields]

/-- The order of the entries does not matter if no key is there twice. -/
theorem ofEntries_perm {es es' : Entries} (hes : es.Distinct) (hes' : es'.Distinct)
    (hperm : es.Perm es') {s : OutputSettings} (hs : ofEntries es = .ok s) :
    ofEntries es' = .ok s := by
  obtain ⟨hnames, hget⟩ := ofEntries_eq_ok_iff.mp hs
  have hnames' := fun e (he : e ∈ es') => hnames e (hperm.mem_iff.mpr he)
  refine ofEntries_eq_ok_iff.mpr ⟨hnames', fun f hf => ?_⟩
  have hfield : es'.field? f.1 = es.field? f.1 := by
    refine Option.ext fun v => ?_
    rw [Entries.field?_eq_some_iff hes', Entries.field?_eq_some_iff hes, hperm.mem_iff]
  rw [hget f hf, hfield]

/-- Output settings are read back from the record they are written as. -/
theorem ofEntries_record (s : OutputSettings) :
    ∃ es, s.toValue = .map es ∧ ofEntries es = .ok s := by
  refine ⟨_, rfl, ?_⟩
  unfold ofEntries
  simp only [Entries.field?_record]
  rfl

end OutputSettings

namespace Config

/-! ## What a mapping gives -/

/-- What a mapping gives for a key: the entry of its analysis section, or else its own entry. -/
inductive Gives (d : Entries) (key : String) (v : Value) : Prop
  | inAnalysis {inner : Entries} (hsection : (.text "analysis", .map inner) ∈ d)
      (hkey : (.text key, v) ∈ inner)
  | beside (hkey : (.text key, v) ∈ d)
      (hfree : ∀ inner, (.text "analysis", .map inner) ∈ d → ∀ w, (.text key, w) ∉ inner)

/-- How a setting may be given besides its flat name. -/
inductive Spelling where
  | flatOnly
  | inSection (name key : String)
  | short (name : String)

/-- A setting, with the names it goes by. -/
structure Setting where
  flat : String
  other : Spelling := .flatOnly
  get : Config → Value

def settings : List Setting :=
  [{ flat := "target", get := target },
   { flat := "exclude_patterns", other := .short "exclude", get := exclusions },
   { flat := "include_patterns", other := .short "include", get := inclusions },
   { flat := "max_file_size", get := maxFileSize },
   { flat := "max_workers", get := maxWorkers },
   { flat := "high_complexity_threshold", other := .inSection "thresholds" "high", get := high },
   { flat := "very_high_complexity_threshold", other := .inSection "thresholds" "very_high"
     get := veryHigh },
   { flat := "export_threshold", other := .inSection "export" "threshold"
     get := exportThreshold },
   { flat := "export_directory", other := .inSection "export" "directory"
     get := exportDirectory }]

/-- What the spelling that goes before the flat name gives. -/
def Spelling.Gives (d : Entries) (v : Value) : Spelling → Prop
  | .flatOnly => False
  | .inSection name key => ∃ es, Config.Gives d name (.map es) ∧ (.text key, v) ∈ es
  | .short name => Config.Gives d name v

/-- The value of a setting: what the other spelling gives, or else the flat name, or else the
standard one. -/
def Setting.Resolves (d : Entries) (s : Setting) (v : Value) : Prop :=
  s.other.Gives d v ∨ (∀ w, ¬ s.other.Gives d w) ∧
    (Gives d s.flat v ∨ (∀ w, ¬ Gives d s.flat w) ∧ v = s.get {})

/-- What the output section comes to: a mapping gives settings, any other value is kept. -/
inductive OutputResolves (d : Entries) : Output → Prop
  | settings {es : Entries} {s : OutputSettings} (hgives : Gives d "output" (.map es))
      (hfields : ∀ f ∈ OutputSettings.fields, (.text f.1, f.2 s) ∈ es ∨
        (∀ w, (.text f.1, w) ∉ es) ∧ f.2 s = f.2 {}) : OutputResolves d (.settings s)
  | other {v : Value} (hgives : Gives d "output" v) (hother : ∀ es, v ≠ .map es) :
      OutputResolves d (.other v)
  | standard (hnone : ∀ v, ¬ Gives d "output" v) : OutputResolves d (.settings {})

def Spelling.names : Spelling → List String
  | .flatOnly => []
  | .inSection name _ => [name]
  | .short name => [name]

def Setting.names (s : Setting) : List String := s.flat :: s.other.names

/-- The same value, but for the order of the entries of a mapping. -/
inductive Reordered : Value → Value → Prop
  | refl (v : Value) : Reordered v v
  | map {es es' : Entries} (hperm : es.Perm es') : Reordered (.map es) (.map es')

/-- Two mappings that give the same for each spelling of each setting, whatever else they hold and
in whatever order. -/
structure Agree (d d' : Entries) : Prop where
  flat : ∀ s ∈ settings, ∀ v, Gives d s.flat v ↔ Gives d' s.flat v
  other : ∀ s ∈ settings, ∀ v, s.other.Gives d v ↔ s.other.Gives d' v
  output : ∀ v, Gives d "output" v → ∃ w, Gives d' "output" w ∧ Reordered v w
  noOutput : (∀ v, ¬ Gives d "output" v) → ∀ w, ¬ Gives d' "output" w

/-! ## Looking up what a mapping gives -/

variable {d : Entries} {c : Config} {key : String} {v : Value}

/-- What a file gives for a key is itself a value as files give it. -/
theorem Gives.proper (hd : (Value.map d).Proper) (hgives : Gives d key v) : v.Proper := by
  cases hgives with
  | inAnalysis hsection hkey =>
      exact Entries.proper_of_mem (Entries.proper_of_mem hd hsection) hkey
  | beside hkey _ => exact Entries.proper_of_mem hd hkey

/-- What a name is looked up as once the analysis section is taken over. -/
theorem field?_merge_iff (hd : (Value.map d).Proper) (hkey : key ≠ "analysis") :
    (merge d).field? key = some v ↔ Gives d key v := by
  have hdistinct := Entries.distinct_of_proper hd
  unfold merge
  split
  next inner hanalysis =>
    have hsection := (Entries.field?_eq_some_iff hdistinct).mp hanalysis
    have hinner := Entries.distinct_of_proper (Entries.proper_of_mem hd hsection)
    have honly : ∀ other, (.text "analysis", .map other) ∈ d → other = inner := by
      intro other hother
      have hsame := (Entries.field?_eq_some_iff hdistinct).mpr hother
      rw [hanalysis] at hsame
      cases hsame
      rfl
    rw [Entries.field?_update hinner, Entries.field?_erase_of_ne hkey.symm, Option.or_eq_some_iff]
    constructor
    · rintro (hfound | ⟨hnone, hfound⟩)
      · exact .inAnalysis hsection (Entries.mem_of_field? hfound)
      · refine .beside (Entries.mem_of_field? hfound) fun other hother => ?_
        rw [honly other hother]
        exact Entries.field?_eq_none_iff.mp hnone
    · intro hgives
      cases hgives with
      | @inAnalysis other hother hmem =>
          rw [honly other hother] at hmem
          exact .inl ((Entries.field?_eq_some_iff hinner).mpr hmem)
      | beside hmem hfree =>
          exact .inr ⟨Entries.field?_eq_none_iff.mpr (hfree inner hsection),
            (Entries.field?_eq_some_iff hdistinct).mpr hmem⟩
  next hanalysis =>
    have hnone : ∀ inner, (.text "analysis", .map inner) ∉ d := fun inner hmem =>
      hanalysis inner ((Entries.field?_eq_some_iff hdistinct).mpr hmem)
    rw [Entries.field?_eq_some_iff hdistinct]
    constructor
    · exact fun hmem => .beside hmem fun inner hmem => absurd hmem (hnone inner)
    · intro hgives
      cases hgives with
      | inAnalysis hsection _ => exact absurd hsection (hnone _)
      | beside hmem _ => exact hmem

/-- A section gives a value if the file gives a map for the section and the map holds the value.
What is no map gives nothing. -/
theorem field?_sectionEntries_iff (hd : (Value.map d).Proper) {name : String}
    (hname : name ≠ "analysis") : (sectionEntries (merge d) name).field? key = some v ↔
      ∃ es, Gives d name (.map es) ∧ (.text key, v) ∈ es := by
  unfold sectionEntries
  split
  next entries hfield =>
    have hgives := (field?_merge_iff hd hname).mp hfield
    rw [Entries.field?_eq_some_iff (Entries.distinct_of_proper (hgives.proper hd))]
    refine ⟨fun hmem => ⟨entries, hgives, hmem⟩, ?_⟩
    rintro ⟨es, hes, hmem⟩
    have hsame := (field?_merge_iff hd hname).mpr hes
    rw [hfield] at hsame
    cases hsame
    exact hmem
  next hfield =>
    constructor
    · intro hnil
      rw [Entries.field?_nil] at hnil
      cases hnil
    · rintro ⟨es, hes, _⟩
      exact absurd ((field?_merge_iff hd hname).mpr hes) (hfield es)

/-! ## Settings -/

/-- What the other spelling of a setting is looked up as. -/
def Spelling.field? (data : Entries) : Spelling → Option Value
  | .flatOnly => none
  | .inSection name key => (sectionEntries data name).field? key
  | .short name => data.field? name

def Setting.value (data : Entries) (s : Setting) : Value :=
  ((s.other.field? data).or (data.field? s.flat)).getD (s.get {})

/-- What is looked up, or else a standard value. -/
theorem eq_getD_iff {o : Option Value} {P : Value → Prop} (ho : ∀ w, o = some w ↔ P w)
    (standard : Value) : v = o.getD standard ↔ P v ∨ (∀ w, ¬ P w) ∧ v = standard := by
  cases o with
  | some w =>
      have hw : P w := (ho w).mp rfl
      constructor
      · rintro rfl
        exact .inl hw
      · rintro (hv | ⟨hnone, _⟩)
        · exact Option.some.inj ((ho v).mpr hv).symm
        · exact absurd hw (hnone w)
  | none =>
      have hnone : ∀ w, ¬ P w := fun w hw => by cases (ho w).mpr hw
      rw [or_iff_right (hnone v), and_iff_right hnone]
      rfl

/-- What a spelling is looked up as, after the merge, is what the file gives for it. -/
theorem Spelling.field?_iff (hd : (Value.map d).Proper) {spelling : Spelling}
    (hnames : "analysis" ∉ spelling.names) (w : Value) :
    spelling.field? (merge d) = some w ↔ spelling.Gives d w := by
  cases spelling with
  | flatOnly => exact ⟨fun hnone => (nomatch hnone), False.elim⟩
  | inSection name key =>
      refine field?_sectionEntries_iff hd fun heq => hnames ?_
      exact heq ▸ List.mem_singleton_self _
  | short name =>
      refine field?_merge_iff hd fun heq => hnames ?_
      exact heq ▸ List.mem_singleton_self _

/-- A setting resolves to what the first of its spellings gives, or else to its default. -/
theorem Setting.resolves_iff (hd : (Value.map d).Proper) {s : Setting}
    (hnames : "analysis" ∉ s.names) : s.Resolves d v ↔ v = s.value (merge d) := by
  obtain ⟨hflat, hother⟩ := not_or.mp fun h => hnames (List.mem_cons.mpr h)
  have hvalue : s.value (merge d) =
      (s.other.field? (merge d)).getD (((merge d).field? s.flat).getD (s.get {})) := Option.getD_or
  rw [hvalue, eq_getD_iff (Spelling.field?_iff hd hother),
    eq_getD_iff fun w => field?_merge_iff hd (Ne.symm hflat)]
  rfl

theorem analysis_not_mem_names : ∀ s ∈ settings, "analysis" ∉ s.names := by
  decide

/-! ## The steps to a flat mapping

A step sets flat names and takes out the names they are set from. What it sets goes before what
stood there, and all other names are left as they are. -/

section Steps

variable {inner data data' : Entries} {keys : List (String × String)}
  {name flat short long : String}

/-- What a section holds goes before what stood under the flat name. -/
theorem field?_assign_self : (assign inner data (key, flat)).field? flat =
    (inner.field? key).or (data.field? flat) := by
  unfold assign
  dsimp only
  cases inner.field? key with
  | none => rfl
  | some v => exact Entries.field?_insert_self

/-- To assign one key leaves the others as they are. -/
theorem field?_assign_of_ne {k : String × String} (hne : k.2 ≠ flat) :
    (assign inner data k).field? flat = data.field? flat := by
  unfold assign
  cases inner.field? k.1 with
  | none => rfl
  | some v => exact Entries.field?_insert_of_ne fun heq => hne (Value.text.inj heq)

theorem field?_foldl_assign_of_not_mem (hflat : flat ∉ keys.map (·.2)) :
    Entries.field? (keys.foldl (assign inner) data) flat = data.field? flat := by
  induction keys generalizing data with
  | nil => rfl
  | cons k keys ih =>
      obtain ⟨hfirst, hlater⟩ := not_or.mp fun h => hflat (List.mem_cons.mpr h)
      rw [List.foldl_cons, ih hlater, field?_assign_of_ne (Ne.symm hfirst)]

/-- Each flat name is set once, so that what is set later does not replace it. -/
theorem field?_foldl_assign (hkeys : (keys.map (·.2)).Nodup) (hmem : (key, flat) ∈ keys) :
    Entries.field? (keys.foldl (assign inner) data) flat =
      (inner.field? key).or (data.field? flat) := by
  induction keys generalizing data with
  | nil => cases hmem
  | cons k keys ih =>
      obtain ⟨hfirst, hrest⟩ := List.nodup_cons.mp hkeys
      rw [List.foldl_cons]
      rcases List.mem_cons.mp hmem with rfl | hlater
      · rw [field?_foldl_assign_of_not_mem hfirst, field?_assign_self]
      · have hne : k.2 ≠ flat := fun heq => hfirst (List.mem_map.mpr ⟨_, hlater, heq.symm⟩)
        rw [ih hrest hlater, field?_assign_of_ne hne]

/-- To flatten a section leaves all names but its own and those it assigns. -/
theorem field?_flatten_of_not_mem (hname : name ≠ flat) (hflat : flat ∉ keys.map (·.2)) :
    (flatten name keys data).field? flat = data.field? flat := by
  rw [flatten, field?_foldl_assign_of_not_mem hflat, Entries.field?_erase_of_ne hname]

/-- A section's entry goes before the flat name. -/
theorem field?_flatten (hname : name ≠ flat) (hkeys : (keys.map (·.2)).Nodup)
    (hmem : (key, flat) ∈ keys) : (flatten name keys data).field? flat =
      ((sectionEntries data name).field? key).or (data.field? flat) := by
  rw [flatten, field?_foldl_assign hkeys hmem, Entries.field?_erase_of_ne hname]

/-- A short name goes before the long one. -/
theorem field?_rename_self :
    (rename short long data).field? long = (data.field? short).or (data.field? long) := by
  unfold rename
  cases data.field? short with
  | none => rfl
  | some v => exact Entries.field?_insert_self

/-- To rename a key leaves all names but the two. -/
theorem field?_rename_of_ne (hshort : short ≠ flat) (hlong : long ≠ flat) :
    (rename short long data).field? flat = data.field? flat := by
  unfold rename
  cases data.field? short with
  | none => rfl
  | some v =>
      dsimp only
      rw [Entries.field?_insert_of_ne fun heq => hlong (Value.text.inj heq),
        Entries.field?_erase_of_ne hshort]

/-- What a section holds depends on the entry under its name alone. -/
theorem sectionEntries_congr (hfield : data.field? name = data'.field? name) :
    sectionEntries data name = sectionEntries data' name := by
  rw [sectionEntries, sectionEntries, hfield]

/-- Sections that are made flat have no say in names that they do not set. -/
theorem field?_flattened (hnames : flat ∉ ["thresholds", "export"])
    (hkeys : flat ∉ (thresholdKeys ++ exportKeys).map (·.2)) :
    (flattened d).field? flat = (merge d).field? flat := by
  rw [List.map_append, List.mem_append, not_or] at hkeys
  simp only [List.mem_cons, List.not_mem_nil, or_false, not_or] at hnames
  rw [flattened, field?_flatten_of_not_mem (Ne.symm hnames.2) hkeys.2,
    field?_flatten_of_not_mem (Ne.symm hnames.1) hkeys.1]

/-- Short names are replaced, and nothing else is touched. -/
theorem field?_unabbreviated
    (hnames : flat ∉ ["exclude", "exclude_patterns", "include", "include_patterns"]) :
    (unabbreviated data).field? flat = data.field? flat := by
  simp only [List.mem_cons, List.not_mem_nil, or_false, not_or] at hnames
  obtain ⟨hexclude, hexclusions, hinclude, hinclusions⟩ := hnames
  rw [unabbreviated, field?_rename_of_ne (Ne.symm hinclude) (Ne.symm hinclusions),
    field?_rename_of_ne (Ne.symm hexclude) (Ne.symm hexclusions)]

/-- A threshold in its section goes before the same threshold under its flat name. -/
theorem field?_threshold (hmem : (key, flat) ∈ thresholdKeys) :
    (flattened d).field? flat =
      ((sectionEntries (merge d) "thresholds").field? key).or ((merge d).field? flat) := by
  have hapart : ∀ k ∈ thresholdKeys, "export" ≠ k.2 ∧ k.2 ∉ exportKeys.map (·.2) ∧
      "thresholds" ≠ k.2 := by decide
  obtain ⟨hexport, hkeys, hname⟩ := hapart _ hmem
  rw [flattened, field?_flatten_of_not_mem hexport hkeys, field?_flatten hname (by decide) hmem]

/-- The export section is still there when the thresholds have been made flat. -/
theorem field?_export (hmem : (key, flat) ∈ exportKeys) :
    (flattened d).field? flat =
      ((sectionEntries (merge d) "export").field? key).or ((merge d).field? flat) := by
  have hapart : ∀ k ∈ exportKeys, "thresholds" ≠ k.2 ∧ k.2 ∉ thresholdKeys.map (·.2) ∧
      "export" ≠ k.2 := by decide
  obtain ⟨hthresholds, hkeys, hname⟩ := hapart _ hmem
  have hsection : sectionEntries (flatten "thresholds" thresholdKeys (merge d)) "export" =
      sectionEntries (merge d) "export" :=
    sectionEntries_congr (field?_flatten_of_not_mem (by decide) (by decide))
  rw [flattened, field?_flatten hname (by decide) hmem, hsection,
    field?_flatten_of_not_mem hthresholds hkeys]

/-- What a setting is looked up as in the end: its other spelling goes before its flat name. -/
theorem field?_flat : ∀ s ∈ settings, (unabbreviated (flattened d)).field? s.flat =
    (s.other.field? (merge d)).or ((merge d).field? s.flat) := by
  have hplain {flat : String} (hnames : flat ∉ ["thresholds", "export"])
      (hkeys : flat ∉ (thresholdKeys ++ exportKeys).map (·.2))
      (hlong : flat ∉ ["exclude", "exclude_patterns", "include", "include_patterns"]) :
      (unabbreviated (flattened d)).field? flat = (merge d).field? flat := by
    rw [field?_unabbreviated hlong, field?_flattened hnames hkeys]
  have hexclude : (unabbreviated (flattened d)).field? "exclude_patterns" =
      ((merge d).field? "exclude").or ((merge d).field? "exclude_patterns") := by
    rw [unabbreviated, field?_rename_of_ne (by decide) (by decide), field?_rename_self,
      field?_flattened (by decide) (by decide), field?_flattened (by decide) (by decide)]
  have hinclude : (unabbreviated (flattened d)).field? "include_patterns" =
      ((merge d).field? "include").or ((merge d).field? "include_patterns") := by
    rw [unabbreviated, field?_rename_self, field?_rename_of_ne (by decide) (by decide),
      field?_rename_of_ne (by decide) (by decide), field?_flattened (by decide) (by decide),
      field?_flattened (by decide) (by decide)]
  have hlong : ∀ k ∈ thresholdKeys ++ exportKeys,
      k.2 ∉ ["exclude", "exclude_patterns", "include", "include_patterns"] := by decide
  have hthreshold {key flat : String} (hmem : (key, flat) ∈ thresholdKeys) :
      (unabbreviated (flattened d)).field? flat =
        ((sectionEntries (merge d) "thresholds").field? key).or ((merge d).field? flat) := by
    rw [field?_unabbreviated (hlong _ (List.mem_append_left _ hmem)), field?_threshold hmem]
  have hexport {key flat : String} (hmem : (key, flat) ∈ exportKeys) :
      (unabbreviated (flattened d)).field? flat =
        ((sectionEntries (merge d) "export").field? key).or ((merge d).field? flat) := by
    rw [field?_unabbreviated (hlong _ (List.mem_append_right _ hmem)), field?_export hmem]
  simp only [settings, List.forall_mem_cons]
  exact ⟨hplain (by decide) (by decide) (by decide), hexclude, hinclude,
    hplain (by decide) (by decide) (by decide), hplain (by decide) (by decide) (by decide),
    hthreshold (by decide), hthreshold (by decide), hexport (by decide), hexport (by decide),
    nofun⟩

end Steps

/-! ## What a configuration is read as -/

/-- The thresholds are in order and there is a worker. -/
structure Sound (c : Config) : Prop where
  thresholds : c.high.compare .greater c.veryHigh = .ok false
  workers : c.maxWorkers.compare .less (.int 1) = .ok false

/-- Each setting is read under its flat name. -/
theorem get_reading (data : Entries) (output : Output) :
    ∀ s ∈ settings, s.get (reading data output) = (data.field? s.flat).getD (s.get {}) := by
  simp only [settings, List.forall_mem_cons]
  exact ⟨rfl, rfl, rfl, rfl, rfl, rfl, rfl, rfl, rfl, by simp⟩

/-- The steps give each setting what the precedence of its spellings says. -/
theorem get_reading_flattened (output : Output) : ∀ s ∈ settings,
    s.get (reading (unabbreviated (flattened d)) output) = s.value (merge d) := by
  intro s hs
  rw [get_reading _ _ s hs, field?_flat s hs, Setting.value]

theorem outputOf_congr {data data' : Entries}
    (hfield : data.field? "output" = data'.field? "output") : outputOf data = outputOf data' := by
  rw [outputOf, outputOf, hfield]

/-- Configurations are the same if all their settings and their output settings are. -/
theorem eq_of_get {c' : Config} (hget : ∀ s ∈ settings, s.get c = s.get c')
    (houtput : c.output = c'.output) : c = c' := by
  simp only [settings, List.forall_mem_cons] at hget
  cases c
  cases c'
  simp_all

/-- A configuration that passes its check is sound, and it is not changed by the check. -/
theorem check_eq_ok_iff {c' : Config} : check c = .ok c' ↔ c = c' ∧ c.Sound := by
  constructor
  · intro hcheck
    unfold check at hcheck
    cases hhigh : c.high.compare .greater c.veryHigh with
    | error e => simp [hhigh, orFail, bind, Except.bind] at hcheck
    | ok above =>
        cases hworkers : c.maxWorkers.compare .less (.int 1) with
        | error e =>
            cases above <;> simp [hhigh, hworkers, orFail, bind, Except.bind, throw, throwThe,
              MonadExceptOf.throw] at hcheck
        | ok few =>
            cases above <;> cases few <;> simp [hhigh, hworkers, orFail, bind, Except.bind, throw,
              throwThe, MonadExceptOf.throw, pure, Except.pure] at hcheck
            exact ⟨hcheck, hhigh, hworkers⟩
  · rintro ⟨rfl, hhigh, hworkers⟩
    unfold check
    rw [hhigh, hworkers]
    rfl

theorem ofEntries_eq_ok_iff : ofEntries d = .ok c ↔ ∃ o, outputOf (merge d) = .ok o ∧
    reading (unabbreviated (flattened d)) o = c ∧ c.Sound := by
  have hbind : ofEntries d = outputOf (flattened d) >>= fun o =>
    check (reading (unabbreviated (flattened d)) o) := rfl
  rw [hbind, outputOf_congr (field?_flattened (by decide) (by decide))]
  constructor
  · intro hok
    cases houtput : outputOf (merge d) with
    | error e =>
        rw [houtput] at hok
        cases hok
    | ok o =>
        rw [houtput] at hok
        obtain ⟨hread, hsound⟩ := check_eq_ok_iff.mp hok
        exact ⟨o, rfl, hread, hread ▸ hsound⟩
  · rintro ⟨o, houtput, hread, hsound⟩
    rw [houtput]
    exact check_eq_ok_iff.mpr ⟨hread, hread.symm ▸ hsound⟩

/-! ## The output section -/

/-- What the output section comes to is what it is read as. -/
theorem outputResolves_iff (hd : (Value.map d).Proper) {o o' : Output}
    (houtput : outputOf (merge d) = .ok o') : OutputResolves d o ↔ o = o' := by
  have hgives : ∀ v, (merge d).field? "output" = some v ↔ Gives d "output" v := fun v =>
    field?_merge_iff hd (by decide)
  have honly : ∀ {v w}, (merge d).field? "output" = some v → Gives d "output" w → w = v :=
    fun hv hw => Option.some.inj (((hgives _).mpr hw).symm.trans hv)
  unfold outputOf at houtput
  split at houtput
  next es hfield =>
    have hes := Entries.distinct_of_proper (((hgives _).mp hfield).proper hd)
    cases hs : OutputSettings.ofEntries es with
    | error e => simp [hs, bind, Except.bind] at houtput
    | ok s =>
        rw [hs] at houtput
        cases houtput
        have hget := (OutputSettings.ofEntries_eq_ok_iff.mp hs).2
        constructor
        · intro hresolves
          cases hresolves with
          | settings hother hfields =>
              cases honly hfield hother
              refine congrArg _ (OutputSettings.eq_of_get fun f hf => ?_)
              rw [hget f hf, eq_getD_iff fun w => Entries.field?_eq_some_iff hes]
              exact hfields f hf
          | other hother hmap => exact absurd (honly hfield hother) (hmap es)
          | standard hnone => exact absurd ((hgives _).mp hfield) (hnone _)
        · rintro rfl
          refine .settings ((hgives _).mp hfield) fun f hf => ?_
          rw [← eq_getD_iff fun w => Entries.field?_eq_some_iff hes]
          exact hget f hf
  next v hmap hfield =>
    cases houtput
    constructor
    · intro hresolves
      cases hresolves with
      | settings hother _ => exact absurd (honly hfield hother).symm (hmap _)
      | other hother _ => rw [honly hfield hother]
      | standard hnone => exact absurd ((hgives _).mp hfield) (hnone _)
    · rintro rfl
      exact .other ((hgives _).mp hfield) hmap
  next hfield =>
    cases houtput
    have hnone : ∀ v, ¬ Gives d "output" v := fun v hv => by
      rw [← hgives, hfield] at hv
      cases hv
    constructor
    · intro hresolves
      cases hresolves with
      | settings hother _ => exact absurd hother (hnone _)
      | other hother _ => exact absurd hother (hnone _)
      | standard _ => rfl
    · rintro rfl
      exact .standard hnone

/-! ## Writing and reading back -/

/-- Output settings that are kept as they are given are no map. -/
theorem outputOf_eq_other {given : Entries} (houtput : outputOf given = .ok (.other v)) :
    ∀ es, v ≠ .map es := by
  unfold outputOf at houtput
  split at houtput
  next es _ =>
    cases hs : OutputSettings.ofEntries es <;>
      simp [hs, bind, Except.bind, pure, Except.pure] at houtput
  next hmap _ =>
    cases houtput
    exact hmap
  next => cases houtput

/-- What the output section was read as is written so that it reads as the same. -/
theorem outputOf_toValue {given es : Entries} {o : Output} (houtput : outputOf given = .ok o)
    (hfield : es.field? "output" = some o.toValue) : outputOf es = .ok o := by
  unfold outputOf
  cases o with
  | settings s =>
      obtain ⟨fields, hwritten, hread⟩ := OutputSettings.ofEntries_record s
      have hmap : es.field? "output" = some (.map fields) := hfield.trans (congrArg some hwritten)
      simp only [hmap, hread]
      rfl
  | other v =>
      have hmap := outputOf_eq_other houtput
      have hkept : es.field? "output" = some v := hfield
      rw [hkept]
      split
      next fields heq => exact absurd (Option.some.inj heq) (hmap fields)
      next heq => rw [Option.some.inj heq]
      next heq => cases heq

/-- A configuration that was read is written so that it reads as the same. -/
theorem ofEntries_toValue (hc : ofEntries d = .ok c) :
    ∃ es, c.toValue = .map es ∧ ofEntries es = .ok c := by
  obtain ⟨o, houtput, hread, hsound⟩ := ofEntries_eq_ok_iff.mp hc
  have ho : c.output = o := by rw [← hread, reading]
  obtain ⟨es, hes⟩ : ∃ es : Entries, c.toValue = .map es := ⟨_, rfl⟩
  have hlookup : ∀ name, es.field? name = c.toEntries.lookup name := Entries.field?_of_record hes
  refine ⟨es, hes, ?_⟩
  -- No section is written, so each flat name is what counts.
  have hmerge : merge es = es := by
    rw [merge, hlookup]
    rfl
  have hflat : ∀ s ∈ settings, s.value es = s.get c := by
    simp only [settings, List.forall_mem_cons, Setting.value, Spelling.field?, sectionEntries,
      hlookup]
    exact ⟨rfl, rfl, rfl, rfl, rfl, rfl, rfl, rfl, rfl, nofun⟩
  rw [ofEntries_eq_ok_iff, hmerge]
  refine ⟨o, outputOf_toValue houtput ?_, eq_of_get (fun s hs => ?_) ho.symm, hsound⟩
  · rw [hlookup, ← ho]
    rfl
  · rw [get_reading_flattened o s hs, hmerge, hflat s hs]

/-! ## Mappings that agree -/

/-- Files that give the same for every key have the same output settings. -/
theorem Agree.outputOf {d' : Entries} (hagree : Agree d d') (hd : (Value.map d).Proper)
    (hd' : (Value.map d').Proper) {o : Output} (houtput : outputOf (merge d) = .ok o) :
    Config.outputOf (merge d') = .ok o := by
  have hne : "output" ≠ "analysis" := by decide
  cases hfield : (merge d).field? "output" with
  | none =>
      have hnone : (merge d').field? "output" = none := by
        refine Option.eq_none_iff_forall_ne_some.mpr fun w hw => ?_
        refine hagree.noOutput (fun v hv => ?_) w ((field?_merge_iff hd' hne).mp hw)
        rw [← field?_merge_iff hd hne, hfield] at hv
        cases hv
      unfold Config.outputOf at houtput ⊢
      rw [hfield] at houtput
      rw [hnone]
      exact houtput
  | some v =>
      have hv := (field?_merge_iff hd hne).mp hfield
      obtain ⟨w, hw, hsame⟩ := hagree.output v hv
      have hfield' := (field?_merge_iff hd' hne).mpr hw
      unfold Config.outputOf at houtput ⊢
      rw [hfield] at houtput
      rw [hfield']
      cases hsame with
      | refl => exact houtput
      | @map es es' hperm =>
          cases hs : OutputSettings.ofEntries es with
          | error e => simp [hs, bind, Except.bind] at houtput
          | ok s =>
              have hs' := OutputSettings.ofEntries_perm (Entries.distinct_of_proper (hv.proper hd))
                (Entries.distinct_of_proper (hw.proper hd')) hperm hs
              simp only [hs] at houtput
              simp only [hs']
              exact houtput

/-- Mappings that agree are read as the same configuration. -/
theorem Agree.ofEntries {d' : Entries} (hagree : Agree d d') (hd : (Value.map d).Proper)
    (hd' : (Value.map d').Proper) (hc : ofEntries d = .ok c) : Config.ofEntries d' = .ok c := by
  obtain ⟨o, houtput, rfl, hsound⟩ := ofEntries_eq_ok_iff.mp hc
  refine ofEntries_eq_ok_iff.mpr ⟨o, hagree.outputOf hd hd' houtput, eq_of_get ?_ rfl, hsound⟩
  intro s hs
  have hnames := analysis_not_mem_names s hs
  rw [get_reading_flattened o s hs, get_reading_flattened o s hs, eq_comm,
    ← Setting.resolves_iff hd' hnames]
  have hresolves := (Setting.resolves_iff hd hnames).mpr (rfl : s.value (merge d) = _)
  simpa only [Setting.Resolves, hagree.flat s hs, hagree.other s hs] using hresolves

/-- Whatever a mapping mixes, the configuration read from it is in order, is written so that it
reads back as it is, and has for each setting what the precedence of its spellings says; nothing
else that the mapping holds counts. -/
theorem config_normal_form (hd : (Value.map d).Proper) (hc : ofEntries d = .ok c) :
    (∃ es, c.toValue = .map es ∧ ofEntries es = .ok c) ∧ c.Sound ∧
    (∀ s ∈ settings, ∀ v, s.Resolves d v ↔ v = s.get c) ∧
    (∀ o, OutputResolves d o ↔ o = c.output) ∧
    ∀ d', (Value.map d').Proper → Agree d d' → ofEntries d' = .ok c := by
  obtain ⟨o, houtput, rfl, hsound⟩ := ofEntries_eq_ok_iff.mp hc
  refine ⟨ofEntries_toValue hc, hsound, fun s hs v => ?_, fun o' => ?_, fun d' hd' hagree => ?_⟩
  · rw [get_reading_flattened o s hs]
    exact Setting.resolves_iff hd (analysis_not_mem_names s hs)
  · exact outputResolves_iff hd houtput
  · exact hagree.ofEntries hd hd' hc

/-- A mapping that gives settings under several spellings, with names that mean nothing. -/
def mixed : Entries :=
  [(.text "note", .bool true),
   (.text "max_workers", .int 7),
   (.text "analysis", .map
     [(.text "exclude", .texts ["*.tmp"]), (.text "max_workers", .int 2),
      (.text "thresholds", .map [(.text "low", .int 1), (.text "high", .int 5)])]),
   (.text "thresholds", .map [(.text "high", .int 90)]),
   (.text "exclude_patterns", .texts ["*.js"]),
   (.text "export", .text "none"),
   (.text "export_threshold", .int 3),
   (.text "output", .map [(.text "verbose", .bool true), (.text "format", .text "json")])]

/-- The same mapping with its analysis section taken over. -/
def mixedMerged : Entries :=
  [(.text "note", .bool true),
   (.text "max_workers", .int 2),
   (.text "thresholds", .map [(.text "low", .int 1), (.text "high", .int 5)]),
   (.text "exclude_patterns", .texts ["*.js"]),
   (.text "export", .text "none"),
   (.text "export_threshold", .int 3),
   (.text "output", .map [(.text "verbose", .bool true), (.text "format", .text "json")]),
   (.text "exclude", .texts ["*.tmp"])]

/-- What it is read as. -/
def mixedConfig : Config :=
  { exclusions := .texts ["*.tmp"], maxWorkers := .int 2, high := .int 5, exportThreshold := .int 3
    output := .settings { format := .text "json", verbose := .bool true } }

theorem merge_mixed : merge mixed = mixedMerged := by
  simp [merge, mixed, mixedMerged, Entries.field?, Entries.get?, Entries.erase, Entries.update,
    Entries.insert, Value.same_text]

theorem outputOf_mixedMerged : outputOf mixedMerged = .ok mixedConfig.output := by
  simp [outputOf, OutputSettings.ofEntries, OutputSettings.isText, OutputSettings.names,
    Value.display, mixedMerged, mixedConfig, Entries.field?, Entries.get?, Value.same_text, bind,
    Except.bind, pure, Except.pure]

theorem ofEntries_mixed : ofEntries mixed = .ok mixedConfig := by
  rw [ofEntries_eq_ok_iff, merge_mixed]
  refine ⟨mixedConfig.output, outputOf_mixedMerged, eq_of_get (fun s hs => ?_) rfl, rfl, rfl⟩
  rw [get_reading_flattened _ s hs, merge_mixed]
  revert s
  simp only [settings, List.forall_mem_cons, Setting.value, Spelling.field?, sectionEntries,
    mixedMerged, Entries.field?_cons_self, ne_eq, Value.text.injEq, String.reduceEq,
    not_false_eq_true, Entries.field?_cons_of_ne, Entries.field?_nil]
  exact ⟨rfl, rfl, rfl, rfl, rfl, rfl, rfl, rfl, rfl, nofun⟩

theorem proper_mixed : (Value.map mixed).Proper := by
  have htexts : ∀ text, (Value.texts [text]).Proper := fun text =>
    .list (List.forall_mem_singleton.mpr (.text text))
  refine .map (by simp [mixed, Value.same_text]) ?_
  simp only [mixed, List.forall_mem_cons]
  refine ⟨.bool _, .num _, .map (by simp [Value.same_text]) ?_, .map (by simp) ?_, htexts _,
    .text _, .num _, .map (by simp [Value.same_text]) ?_, by simp⟩
  · simp only [List.forall_mem_cons]
    refine ⟨htexts _, .num _, .map (by simp [Value.same_text]) ?_, by simp⟩
    simp only [List.forall_mem_cons]
    exact ⟨.num _, .num _, by simp⟩
  · exact List.forall_mem_singleton.mpr (.num _)
  · simp only [List.forall_mem_cons]
    exact ⟨.bool _, .text _, by simp⟩

theorem mixed_normal_form :
    (Value.map mixed).Proper ∧ ofEntries mixed = .ok mixedConfig ∧
    (∃ es, mixedConfig.toValue = .map es ∧ ofEntries es = .ok mixedConfig) ∧ mixedConfig.Sound ∧
    (∀ s ∈ settings, ∀ v, s.Resolves mixed v ↔ v = s.get mixedConfig) ∧
    ∀ o, OutputResolves mixed o ↔ o = mixedConfig.output := by
  obtain ⟨hback, hsound, hsettings, houtput, -⟩ := config_normal_form proper_mixed ofEntries_mixed
  exact ⟨proper_mixed, ofEntries_mixed, hback, hsound, hsettings, houtput⟩

end Config

end Cyclomatic
