import Cyclomatic.Proofs.Path.Relative
import Cyclomatic.Proofs.Scan.Discovery

/-! # A walk through a tree without links

If nothing fails, a walk finds the files that it accepts, below the
subdirectories that it goes into. The files of a directory come before those of
its subdirectories, and both by their names.
-/

namespace Cyclomatic

/-! ## Trees without links -/

/-- An entry as disks have it, with no link in it. -/
inductive Entry.Plain : Entry → Prop
  | file (content : Bytes) : Plain (.file content)
  | directory {es : List (String × Entry)} (hnodup : (es.map (·.1)).Nodup)
      (hnames : ∀ x ∈ es, Path.LeadsDown x.1) (hbelow : ∀ x ∈ es, Plain x.2) :
      Plain (.directory es)

theorem Entry.Plain.proper {e : Entry} (he : e.Plain) : e.Proper := by
  induction he with
  | file content => exact .file content
  | directory hnodup hnames _ ih => exact .directory hnodup (fun x hx => (hnames x hx).toIsName) ih

/-- Where no name is there twice, an entry is looked up if it is there. -/
theorem Entry.lookup_eq_some_iff {es : List (String × Entry)} (hnodup : (es.map (·.1)).Nodup)
    {name : String} {e : Entry} : es.lookup name = some e ↔ (name, e) ∈ es := by
  induction es with
  | nil => simp
  | cons x es ih =>
      obtain ⟨first, inner⟩ := x
      obtain ⟨hfirst, hrest⟩ := List.nodup_cons.mp hnodup
      rw [Entry.lookup_cons_eq_ite, List.mem_cons, Prod.mk.injEq]
      by_cases hname : name = first
      · subst hname
        have hlater : (name, e) ∉ es := fun hmem => hfirst (List.mem_map.mpr ⟨_, hmem, rfl⟩)
        simp [hlater, eq_comm]
      · simp [hname, ih hrest]

/-- On a plain disk no part of a place leads up. -/
theorem Entry.Plain.leadsDown {e inner : Entry} {place : List String} (he : e.Plain)
    (hplace : e.at? place = some inner) : ∀ part ∈ place, Path.LeadsDown part := by
  induction place generalizing e with
  | nil => simp
  | cons name place ih =>
      rw [Entry.at?_cons] at hplace
      obtain ⟨below, hlookup, hbelow⟩ := Option.bind_eq_some_iff.mp hplace
      cases he with
      | file content => cases hlookup
      | directory hnodup hnames hplain =>
          have hmem := (Entry.lookup_eq_some_iff hnodup).mp hlookup
          exact List.forall_mem_cons.mpr ⟨hnames _ hmem, ih (hplain _ hmem) hbelow⟩

/-! ## Names in order -/

/-- Entries that are sorted by name are in order, if no name is there twice. -/
theorem pairwise_sortNames {α : Type} {xs : List (String × α)} (hnodup : (xs.map (·.1)).Nodup) :
    (sortNames xs).Pairwise fun x y => x.1 < y.1 := by
  have hperm := List.mergeSort_perm xs fun a b => !(b.1 < a.1)
  have hsorted : (sortNames xs).Pairwise fun x y => (!decide (y.1 < x.1)) = true := by
    refine List.pairwise_mergeSort ?_ ?_ xs
    · intro a b c hab hbc
      simp only [Bool.not_eq_true', decide_eq_false_iff_not, String.not_lt] at hab hbc ⊢
      exact String.le_trans hab hbc
    · intro a b
      simp only [Bool.or_eq_true, Bool.not_eq_true', decide_eq_false_iff_not, String.not_lt]
      exact String.le_total a.1 b.1
  have hdiffer : (sortNames xs).Pairwise fun x y => x.1 ≠ y.1 :=
    List.pairwise_map.mp ((hperm.map _).nodup_iff.mpr hnodup)
  refine hsorted.imp₂ (fun x y hle hne => ?_) hdiffer
  simp only [Bool.not_eq_true', decide_eq_false_iff_not, String.not_lt] at hle
  exact String.not_le.mp fun hge => hne (String.le_antisymm hle hge)

theorem sortNames_map {α β : Type} (f : String × α → β) (xs : List (String × α)) :
    sortNames (xs.map fun x => (x.1, f x)) = (sortNames xs).map fun x => (x.1, f x) := by
  unfold sortNames
  rw [List.map_mergeSort]
  exact fun _ _ _ _ => rfl

/-! ## Places in order -/

namespace Scan

/-- Which of two places below a directory comes first: files before subdirectories, and both by
their names. -/
inductive Earlier : List String → List String → Prop
  | files {name other : String} (hlt : name < other) : Earlier [name] [other]
  | fileFirst {name other next : String} {rest : List String} :
      Earlier [name] (other :: next :: rest)
  | directories {name other next next' : String} {rest rest' : List String}
      (hlt : name < other) : Earlier (name :: next :: rest) (other :: next' :: rest')
  | within {place other : List String} (name : String) (hearlier : Earlier place other) :
      Earlier (name :: place) (name :: other)

/-- The entries of a directory that are not gone into. -/
def filesIn (es : List (String × Entry)) : List (String × Entry) := es.filter (!·.2.isDirectory)

/-- The subdirectories of a directory that pass a test. -/
def directoriesIn (goes : String × Entry → Bool) (es : List (String × Entry)) :
    List (String × Entry) :=
  (es.filter (·.2.isDirectory)).filter goes

/-- The places found in a directory, with those below each of its subdirectories given. -/
def placesIn (accepts goes : String × Entry → Bool) (deeper : String × Entry → List (List String))
    (es : List (String × Entry)) : List (List String) :=
  ((sortNames (filesIn es)).filter accepts).map ([·.1]) ++
    (sortNames (directoriesIn goes es)).flatMap fun x => (deeper x).map (x.1 :: ·)

section Places

variable {accepts goes : String × Entry → Bool} {deeper : String × Entry → List (List String)}
  {es : List (String × Entry)} {place : List String} {x : String × Entry}

theorem mem_filesIn : x ∈ sortNames (filesIn es) ↔ x ∈ es ∧ x.2.isDirectory = false := by
  rw [(Tour.perm_sortNames _).mem_iff, filesIn, List.mem_filter, Bool.not_eq_true']

theorem mem_directoriesIn : x ∈ sortNames (directoriesIn goes es) ↔
    x ∈ es ∧ x.2.isDirectory = true ∧ goes x = true := by
  rw [(Tour.perm_sortNames _).mem_iff, directoriesIn, List.mem_filter, List.mem_filter, and_assoc]

theorem pairwise_filesIn (hnodup : (es.map (·.1)).Nodup) :
    (sortNames (filesIn es)).Pairwise fun x y => x.1 < y.1 :=
  pairwise_sortNames ((List.filter_sublist.map _).nodup hnodup)

theorem pairwise_directoriesIn (hnodup : (es.map (·.1)).Nodup) :
    (sortNames (directoriesIn goes es)).Pairwise fun x y => x.1 < y.1 :=
  pairwise_sortNames (((List.filter_sublist.trans List.filter_sublist).map _).nodup hnodup)

/-- A place in a directory is that of a file that is accepted, or one below a subdirectory that is
gone into. -/
theorem mem_placesIn : place ∈ placesIn accepts goes deeper es ↔
    (∃ x ∈ es, x.2.isDirectory = false ∧ accepts x = true ∧ [x.1] = place) ∨
      ∃ x ∈ es, x.2.isDirectory = true ∧ goes x = true ∧ ∃ p ∈ deeper x, x.1 :: p = place := by
  simp only [placesIn, List.mem_append, List.mem_map, List.mem_flatMap, List.mem_filter,
    mem_filesIn, mem_directoriesIn, and_assoc]

/-- Places are in order if files come first, then one subdirectory after the other, and each of
these is in order. -/
theorem pairwise_placesIn (hnodup : (es.map (·.1)).Nodup)
    (hdeeper : ∀ x ∈ es, x.2.isDirectory = true → (deeper x).Pairwise Earlier ∧ [] ∉ deeper x) :
    (placesIn accepts goes deeper es).Pairwise Earlier := by
  have hbelow : ∀ x ∈ sortNames (directoriesIn goes es),
      (deeper x).Pairwise Earlier ∧ [] ∉ deeper x := by
    intro x hx
    obtain ⟨hxes, hdirectory, _⟩ := mem_directoriesIn.mp hx
    exact hdeeper x hxes hdirectory
  refine List.pairwise_append.mpr ⟨?_, List.pairwise_flatMap.mpr ⟨?_, ?_⟩, ?_⟩
  · exact List.pairwise_map.mpr (((pairwise_filesIn hnodup).filter _).imp .files)
  · intro x hx
    exact List.pairwise_map.mpr ((hbelow x hx).1.imp (.within x.1))
  · refine (pairwise_directoriesIn hnodup).imp_of_mem
      fun {x y} hx hy hlt place hplace other hother => ?_
    obtain ⟨p, hp, rfl⟩ := List.mem_map.mp hplace
    obtain ⟨q, hq, rfl⟩ := List.mem_map.mp hother
    cases p with
    | nil => exact absurd hp (hbelow x hx).2
    | cons next rest =>
        cases q with
        | nil => exact absurd hq (hbelow y hy).2
        | cons next' rest' => exact .directories hlt
  · intro place hplace other hother
    obtain ⟨x, _, rfl⟩ := List.mem_map.mp hplace
    obtain ⟨y, hy, hother⟩ := List.mem_flatMap.mp hother
    obtain ⟨q, hq, rfl⟩ := List.mem_map.mp hother
    cases q with
    | nil => exact absurd hq (hbelow y hy).2
    | cons next rest => exact .fileFirst

end Places

/-! ## The steps of a walk in which nothing fails -/

namespace Tour

/-- A walk that can tell of every path whether it is ignored and of every file whether it is
small enough. -/
structure Decides (t : Tour) (skips : String → Bool) (small : Bytes → Bool) : Prop where
  ignores : ∀ {path}, path ≠ "" → (t.ignores path).result = .ok (skips path)
  measured : ∀ path content, (t.measured path (.file content)).result = .ok (small content)

variable {t : Tour} {skips : String → Bool} {small : Bytes → Bool} {top : String}

/-- Whether an entry is a source file that is found. -/
def accepts (skips : String → Bool) (small : Bytes → Bool) (top : String) :
    String × Entry → Bool
  | (name, .file content) =>
      !(Language.detect? (Path.join top name)).isNone && !skips (Path.join top name) &&
        small content
  | _ => false

/-- Whether a name is gone into, if it leads to a directory. -/
def goes {α : Type} (skips : String → Bool) (top : String) (x : String × α) : Bool :=
  !skips (Path.join top x.1)

/-- What is kept are the names that are not skipped. -/
theorem Decides.keep (ht : t.Decides skips small) {α : Type} {xs : List (String × α)}
    (hpaths : ∀ x ∈ xs, Path.join top x.1 ≠ "") :
    (t.keep top xs).result = .ok (xs.filter (goes skips top)) := by
  induction xs with
  | nil => rfl
  | cons x xs ih =>
      obtain ⟨hx, hrest⟩ := List.forall_mem_cons.mp hpaths
      rw [keep_cons]
      refine Traced.bind_result_eq_ok_iff.mpr ⟨_, ht.ignores hx, ?_⟩
      refine Traced.bind_result_eq_ok_iff.mpr ⟨_, ih hrest, ?_⟩
      cases hskips : skips (Path.join top x.1) <;> simp [goes, hskips, pure]

/-- What one file adds to those after it. -/
theorem result_of_file {ignored measured : Traced Bool} {rest : Traced (List String)}
    {skip small : Bool} {found : List String} (hignored : ignored.result = .ok skip)
    (hmeasured : measured.result = .ok small) (hrest : rest.result = .ok found) (foreign : Bool)
    (path : String) :
    (if foreign then rest else do
      if ← ignored then rest
      else if ← measured then return path :: (← rest)
      else rest : Traced (List String)).result =
      .ok (if !foreign && !skip && small then path :: found else found) := by
  cases foreign with
  | true => exact hrest
  | false =>
      refine Traced.bind_result_eq_ok_iff.mpr ⟨_, hignored, ?_⟩
      cases skip with
      | true => exact hrest
      | false =>
          refine Traced.bind_result_eq_ok_iff.mpr ⟨_, hmeasured, ?_⟩
          cases small with
          | true => exact Traced.bind_result_eq_ok_iff.mpr ⟨_, hrest, rfl⟩
          | false => exact hrest

/-- The sources in a directory are the files that are accepted. -/
theorem Decides.sources (ht : t.Decides skips small) {es : List (String × Entry)}
    (hpaths : ∀ x ∈ es, Path.join top x.1 ≠ "") (hfiles : ∀ x ∈ es, x.2.isFile = true) :
    (t.sources top es).result =
      .ok ((es.filter (accepts skips small top)).map fun x => Path.join top x.1) := by
  induction es with
  | nil => rfl
  | cons x es ih =>
      obtain ⟨hx, hrest⟩ := List.forall_mem_cons.mp hpaths
      obtain ⟨hfile, hrestFiles⟩ := List.forall_mem_cons.mp hfiles
      obtain ⟨name, e⟩ := x
      cases e with
      | link _ => cases hfile
      | directory _ => cases hfile
      | file content =>
          rw [sources_cons, List.filter_cons, apply_ite (List.map _), List.map_cons]
          exact result_of_file (ht.ignores hx) (ht.measured _ content) (ih hrest hrestFiles) _ _

/-- One list after the other, if none of them fails. -/
theorem chain_eq {α : Type} {xs : List α} {lists : α → Traced (List String)}
    {found : α → List String} (hfound : ∀ x ∈ xs, (lists x).result = .ok (found x)) :
    (chain (xs.map lists)).result = .ok (xs.flatMap found) := by
  induction xs with
  | nil => rfl
  | cons x xs ih =>
      obtain ⟨hx, hrest⟩ := List.forall_mem_cons.mp hfound
      rw [List.map_cons, chain]
      refine Traced.bind_result_eq_ok_iff.mpr ⟨_, hx, ?_⟩
      exact Traced.bind_result_eq_ok_iff.mpr ⟨_, ih hrest, rfl⟩

/-- Without links only directories lead to directories. -/
theorem leadsToDirectory_of_plain {e : Entry} (he : e.Plain) (path : String) :
    t.leadsToDirectory path e = e.isDirectory := by
  cases he <;> rfl

theorem isFile_of_plain {e : Entry} (he : e.Plain) (hfile : e.isDirectory = false) :
    e.isFile = true := by
  cases he with
  | file content => rfl
  | directory _ _ _ => cases hfile

variable {es : List (String × Entry)}

theorem filter_leadsToDirectory (hplain : ∀ x ∈ es, x.2.Plain) :
    es.filter (fun x => t.leadsToDirectory (Path.join top x.1) x.2) =
      es.filter (·.2.isDirectory) :=
  List.filter_congr fun x hx => leadsToDirectory_of_plain (hplain x hx) _

theorem filter_not_leadsToDirectory (hplain : ∀ x ∈ es, x.2.Plain) :
    es.filter (fun (name, e) => !t.leadsToDirectory (Path.join top name) e) = filesIn es :=
  List.filter_congr fun x hx => congrArg (!·) (leadsToDirectory_of_plain (hplain x hx) _)

/-- The subdirectories that are gone into, each with what is found below it. -/
theorem Decides.keep_underAll (ht : t.Decides skips small) (hplain : ∀ x ∈ es, x.2.Plain)
    (hpaths : ∀ x ∈ es, Path.join top x.1 ≠ "") :
    (t.keep top (t.underAll top es)).result = .ok ((directoriesIn (goes skips top) es).map
      fun x => (x.1, t.under (Path.join top x.1) x.2)) := by
  rw [underAll_eq, filter_leadsToDirectory hplain, ht.keep, List.filter_map]
  · rfl
  · intro x hx
    obtain ⟨y, hy, rfl⟩ := List.mem_map.mp hx
    exact hpaths y (List.mem_of_mem_filter hy)

/-- What is found in a directory, if it is known what is found below its subdirectories. -/
theorem Decides.under (ht : t.Decides skips small) (htop : top ≠ "")
    (hes : (Entry.directory es).Plain) {deeper : String × Entry → List (List String)}
    (hdeeper : ∀ x ∈ es, x.2.isDirectory = true → (t.under (Path.join top x.1) x.2).result =
      .ok ((deeper x).map (Path.below (Path.join top x.1)))) :
    (t.under top (.directory es)).result =
      .ok ((placesIn (accepts skips small top) (goes skips top) deeper es).map
        (Path.below top)) := by
  cases hes with
  | directory hnodup hnames hplain =>
      have hpaths : ∀ x ∈ es, Path.join top x.1 ≠ "" := fun x hx =>
        Path.join_ne_empty htop (hnames x hx).toIsPart
      have hhere : (t.sources top (sortNames (filesIn es))).result =
          .ok (((sortNames (filesIn es)).filter (accepts skips small top)).map
            fun x => Path.join top x.1) := by
        refine ht.sources (fun x hx => ?_) (fun x hx => ?_)
        · exact hpaths x (mem_filesIn.mp hx).1
        · obtain ⟨hxes, hfile⟩ := mem_filesIn.mp hx
          exact isFile_of_plain (hplain x hxes) hfile
      have hbelow : (chain ((sortNames ((directoriesIn (goes skips top) es).map fun x =>
          (x.1, t.under (Path.join top x.1) x.2))).map (·.2))).result =
          .ok ((sortNames (directoriesIn (goes skips top) es)).flatMap fun x =>
            (deeper x).map (Path.below (Path.join top x.1))) := by
        rw [sortNames_map, List.map_map]
        refine chain_eq fun x hx => ?_
        obtain ⟨hxes, hdirectory, _⟩ := mem_directoriesIn.mp hx
        exact hdeeper x hxes hdirectory
      rw [Tour.under, gather, filter_not_leadsToDirectory hplain]
      refine Traced.bind_result_eq_ok_iff.mpr ⟨_, ht.keep_underAll hplain hpaths, ?_⟩
      refine Traced.bind_result_eq_ok_iff.mpr ⟨_, hhere, ?_⟩
      refine Traced.bind_result_eq_ok_iff.mpr ⟨_, hbelow, ?_⟩
      rw [placesIn, List.map_append, List.map_map, List.map_flatMap]
      simp only [List.map_map]
      rfl

/-! ## What a walk is to find -/

/-- A place and each directory on the way to it are taken. -/
def Taken (takes : String → Prop) (top : String) (place : List String) : Prop :=
  ∀ way, way ≠ [] → way <+: place → takes (Path.below top way)

/-- The place of a file that a walk from a top is to find: a small source file that is taken, as
is each directory on the way to it. -/
structure Finds (takes : String → Prop) (small : Bytes → Prop) (top : String) (e : Entry)
    (place : List String) : Prop where
  file : ∃ content, e.at? place = some (.file content) ∧ small content
  source : (Language.detect? (Path.below top place)).isSome = true
  taken : Taken takes top place

variable {e : Entry} {name : String} {place : List String}

theorem Finds.ne_nil {takes : String → Prop} {small : Bytes → Prop} (he : e.isDirectory = true)
    (hfinds : Finds takes small top e place) : place ≠ [] := by
  rintro rfl
  obtain ⟨content, hfile, _⟩ := hfinds.file
  cases hfile
  cases he

theorem taken_nil (takes : String → Prop) (top : String) : Taken takes top [] :=
  fun _ hne hway => absurd (List.prefix_nil.mp hway) hne

/-- A place is taken if its first name is, and the rest is taken from there on. -/
theorem taken_cons_iff {takes : String → Prop} : Taken takes top (name :: place) ↔
    takes (Path.join top name) ∧ Taken takes (Path.join top name) place := by
  constructor
  · intro htaken
    refine ⟨htaken [name] (by simp) (by simp), fun way _ hway => ?_⟩
    exact htaken (name :: way) (by simp) (List.cons_prefix_cons.mpr ⟨rfl, hway⟩)
  · rintro ⟨hname, hdeeper⟩ way hne hway
    rcases List.prefix_cons_iff.mp hway with hnil | ⟨rest, rfl, hrest⟩
    · exact absurd hnil hne
    · by_cases hnil : rest = []
      · subst hnil
        exact hname
      · exact hdeeper rest hnil hrest

/-- A file is accepted if its name tells a language, it is not skipped, and it is small. -/
theorem accepts_file_iff {content : Bytes} :
    accepts skips small top (name, .file content) = true ↔
      (Language.detect? (Path.join top name)).isSome = true ∧
        skips (Path.join top name) = false ∧ small content = true := by
  rw [accepts, Bool.and_eq_true, Bool.and_eq_true, Bool.not_eq_true', Bool.not_eq_true', and_assoc,
    Option.isNone_eq_false_iff]

/-- What is to be found in a directory is one of its files, or below one of its subdirectories. -/
theorem finds_directory_iff (hnodup : (es.map (·.1)).Nodup) :
    Finds (skips · = false) (small · = true) top (.directory es) place ↔
      (∃ x ∈ es, x.2.isDirectory = false ∧ accepts skips small top x = true ∧ [x.1] = place) ∨
        ∃ x ∈ es, x.2.isDirectory = true ∧ goes skips top x = true ∧
          ∃ p, Finds (skips · = false) (small · = true) (Path.join top x.1) x.2 p ∧
            x.1 :: p = place := by
  have hat : ∀ {name e}, (name, e) ∈ es → ∀ p, (Entry.directory es).at? (name :: p) = e.at? p := by
    intro name e hmem p
    rw [Entry.at?_cons, Entry.entries, (Entry.lookup_eq_some_iff hnodup).mpr hmem]
    rfl
  constructor
  · intro hfinds
    obtain ⟨name, p, rfl⟩ := List.exists_cons_of_ne_nil (hfinds.ne_nil rfl)
    obtain ⟨⟨content, hfile, hsmall⟩, hsource, htaken⟩ := hfinds
    obtain ⟨hname, hdeeper⟩ := taken_cons_iff.mp htaken
    obtain ⟨e, hlookup, he⟩ := Option.bind_eq_some_iff.mp hfile
    have hmem := (Entry.lookup_eq_some_iff hnodup).mp hlookup
    cases e with
    | link _ => cases p <;> cases he
    | file _ =>
        cases p with
        | cons _ _ => cases he
        | nil =>
            cases he
            exact .inl ⟨_, hmem, rfl, accepts_file_iff.mpr ⟨hsource, hname, hsmall⟩, rfl⟩
    | directory _ =>
        refine .inr ⟨_, hmem, rfl, (Bool.not_eq_true' _).mpr hname, p, ?_, rfl⟩
        exact ⟨⟨content, he, hsmall⟩, hsource, hdeeper⟩
  · rintro (⟨⟨name, e⟩, hmem, -, haccepts, rfl⟩ | ⟨x, hmem, -, hname, p, hfinds, rfl⟩)
    · cases e with
      | link _ => cases haccepts
      | directory _ => cases haccepts
      | file content =>
          obtain ⟨hsource, hskips, hsmall⟩ := accepts_file_iff.mp haccepts
          exact ⟨⟨content, hat hmem [], hsmall⟩, hsource,
            taken_cons_iff.mpr ⟨hskips, taken_nil _ _⟩⟩
    · obtain ⟨⟨content, hfile, hsmall⟩, hsource, hdeeper⟩ := hfinds
      have htaken := taken_cons_iff.mpr ⟨(Bool.not_eq_true' _).mp hname, hdeeper⟩
      exact ⟨⟨content, (hat hmem p).trans hfile, hsmall⟩, hsource, htaken⟩

/-- Only whether paths that are not empty are taken has a say in what is to be found. -/
theorem finds_congr {takes takes' : String → Prop} {small : Bytes → Prop} (he : e.Plain)
    (htop : top ≠ "") (htakes : ∀ path, path ≠ "" → (takes path ↔ takes' path)) :
    Finds takes small top e place ↔ Finds takes' small top e place := by
  have htaken : ∀ {inner}, e.at? place = some inner →
      (Taken takes top place ↔ Taken takes' top place) := by
    intro inner hplace
    refine forall_congr' fun way => forall_congr' fun _ => forall_congr' fun hway => ?_
    refine htakes _ (Path.below_ne_empty htop fun part hpart => ?_)
    exact (he.leadsDown hplace part (hway.subset hpart)).toIsPart
  constructor
  · rintro ⟨⟨content, hfile, hsmall⟩, hsource, hway⟩
    exact ⟨⟨content, hfile, hsmall⟩, hsource, (htaken hfile).mp hway⟩
  · rintro ⟨⟨content, hfile, hsmall⟩, hsource, hway⟩
    exact ⟨⟨content, hfile, hsmall⟩, hsource, (htaken hfile).mpr hway⟩

/-- A walk through a tree without links finds what it is to find, in order. -/
theorem Decides.exists_places (ht : t.Decides skips small) (he : e.Plain)
    (hdirectory : e.isDirectory = true) (htop : top ≠ "") :
    ∃ places : List (List String), (t.under top e).result = .ok (places.map (Path.below top)) ∧
      places.Pairwise Earlier ∧
      ∀ place, place ∈ places ↔ Finds (skips · = false) (small · = true) top e place := by
  induction he generalizing top with
  | file content => cases hdirectory
  | @directory es hnodup hnames hplain ih =>
      have hdeeper : ∀ x : String × Entry, ∃ places : List (List String), x ∈ es →
          x.2.isDirectory = true →
          (t.under (Path.join top x.1) x.2).result =
            .ok (places.map (Path.below (Path.join top x.1))) ∧
          places.Pairwise Earlier ∧
          ∀ place, place ∈ places ↔
            Finds (skips · = false) (small · = true) (Path.join top x.1) x.2 place := by
        -- Places are chosen for every entry at once; what is not gone into has none.
        intro x
        by_cases hx : x ∈ es ∧ x.2.isDirectory = true
        · obtain ⟨places, hplaces⟩ :=
            ih x hx.1 hx.2 (Path.join_ne_empty htop (hnames x hx.1).toIsPart)
          exact ⟨places, fun _ _ => hplaces⟩
        · exact ⟨[], fun hmem hdirectory => absurd ⟨hmem, hdirectory⟩ hx⟩
      choose deeper hdeeper using hdeeper
      refine ⟨_, ht.under htop (.directory hnodup hnames hplain) fun x hx hdirectory =>
        (hdeeper x hx hdirectory).1, ?_, fun place => ?_⟩
      · refine pairwise_placesIn hnodup fun x hx hdirectory => ?_
        obtain ⟨-, hordered, hfinds⟩ := hdeeper x hx hdirectory
        exact ⟨hordered, fun hnil => ((hfinds []).mp hnil).ne_nil hdirectory rfl⟩
      · rw [mem_placesIn, finds_directory_iff hnodup]
        refine or_congr_right (exists_congr fun x => and_congr_right fun hx =>
          and_congr_right fun hdirectory => and_congr_right fun _ => exists_congr fun p => ?_)
        rw [(hdeeper x hx hdirectory).2.2 p]

end Tour

end Scan

end Cyclomatic
