import Mathlib.Data.List.Nodup
import Cyclomatic.Proofs.Files.Places
import Cyclomatic.Proofs.Path
import Cyclomatic.Proofs.Scan.Collection

/-! # What a walk through a disk finds

The entries of a directory have names that differ and that hold no slash. So
every path below a directory tells through which entry it goes, and no path is
found twice.
-/

namespace Cyclomatic

/-! ## Directories as disks have them -/

/-- An entry as disks have it: in each directory, names differ. -/
inductive Entry.Proper : Entry → Prop
  | file (content : Bytes) : Proper (.file content)
  | link (target : String) : Proper (.link target)
  | directory {es : List (String × Entry)} (hnodup : (es.map (·.1)).Nodup)
      (hnames : ∀ x ∈ es, IsName x.1) (hbelow : ∀ x ∈ es, Proper x.2) : Proper (.directory es)

/-- What stands somewhere on a proper disk is proper. -/
theorem Entry.Proper.at? {e inner : Entry} {place : List String} (he : e.Proper)
    (hplace : e.at? place = some inner) : inner.Proper := by
  induction place generalizing e with
  | nil =>
      obtain rfl := Option.some.inj hplace
      exact he
  | cons name place ih =>
      rw [Entry.at?] at hplace
      obtain ⟨below, hlookup, hbelow⟩ := Option.bind_eq_some_iff.mp hplace
      cases he with
      | file content => cases hlookup
      | link target => cases hlookup
      | directory _ _ hproper =>
          obtain ⟨before, after, rfl, _⟩ := List.lookup_eq_some_iff.mp hlookup
          exact ih (hproper (name, below) (by simp)) hbelow

namespace Path

/-- What the paths of a directory's entries start with. -/
def lead (top : String) : String :=
  if top.isEmpty || top.toList.getLast? == some '/' then top else top ++ "/"

/-- A name is joined to a directory behind what paths below the directory start with. -/
theorem join_eq_lead {top name : String} (hname : IsName name) :
    join top name = lead top ++ name := by
  rw [join, lead, isAbsolute_of_isName hname]
  by_cases hempty : top.isEmpty = true
  · have htop : top = "" := String.isEmpty_iff.mp hempty
    simp [htop]
  · by_cases hslash : (top.toList.getLast? == some '/') = true <;> simp [hempty, hslash]

theorem lead_append {top name : String} (hname : IsName name) :
    lead (top ++ name) = top ++ name ++ "/" := by
  have hchars : name.toList ≠ [] := by
    rw [ne_eq, String.toList_eq_nil_iff]
    exact hname.nonempty
  have hempty : (top ++ name).isEmpty = false := by
    rw [← Bool.not_eq_true, String.isEmpty_iff, ← String.toList_inj]
    simp [hname.nonempty]
  have hlast : ((top ++ name).toList.getLast? == some '/') = false := by
    rw [beq_eq_false_iff_ne, String.toList_append, List.getLast?_append_of_ne_nil _ hchars]
    intro hslash
    exact hname.noSlash (List.mem_of_getLast? hslash)
  rw [lead, hempty, hlast]
  rfl

/-- A path that goes through a name, behind what it starts with. -/
def Through (start name path : String) : Prop :=
  ∃ tail : List Char, path.toList = start.toList ++ (name.toList ++ tail) ∧
    ∀ c ∈ tail.head?, c = '/'

theorem through_self (start name : String) : Through start name (start ++ name) :=
  ⟨[], by simp, nofun⟩

/-- What goes through a name below a directory goes through the directory. -/
theorem Through.below {start name below path : String}
    (hpath : Through (start ++ name ++ "/") below path) : Through start name path := by
  obtain ⟨tail, htail, _⟩ := hpath
  refine ⟨'/' :: (below.toList ++ tail), by simpa using htail, ?_⟩
  intro c hc
  exact (Option.some.inj hc).symm

theorem takeWhile_of_head {chars tail : List Char} (hchars : '/' ∉ chars)
    (htail : ∀ c ∈ tail.head?, c = '/') :
    (chars ++ tail).takeWhile (· ≠ '/') = chars := by
  rw [List.takeWhile_append_of_pos (by
    intro c hc
    simpa using fun heq : c = '/' => hchars (heq ▸ hc))]
  cases tail with
  | nil => simp
  | cons c rest =>
      obtain rfl := htail c rfl
      simp

/-- A path goes through one name only. -/
theorem Through.unique {start name other path : String} (hname : IsName name)
    (hother : IsName other) (hpath : Through start name path)
    (hpath' : Through start other path) : name = other := by
  obtain ⟨tail, htail, hhead⟩ := hpath
  obtain ⟨tail', htail', hhead'⟩ := hpath'
  have hrest : name.toList ++ tail = other.toList ++ tail' :=
    List.append_cancel_left (htail.symm.trans htail')
  rw [← String.toList_inj, ← takeWhile_of_head hname.noSlash hhead, hrest,
    takeWhile_of_head hother.noSlash hhead']

end Path

namespace Scan.Tour

variable {t : Tour} {top : String}

/-! ## The steps of the walk -/

theorem keep_cons {α : Type} (x : String × α) (xs : List (String × α)) :
    t.keep top (x :: xs) = (do
      let ignored ← t.ignores (Path.join top x.1)
      let kept ← t.keep top xs
      return if ignored then kept else x :: kept) :=
  (rfl)

/-- What is kept of some names is in the order of the names. -/
theorem keep_sublist {α : Type} {xs kept : List (String × α)}
    (hkept : (t.keep top xs).result = .ok kept) : kept.Sublist xs := by
  induction xs generalizing kept with
  | nil =>
      obtain rfl := Except.ok.inj hkept
      exact .refl _
  | cons x xs ih =>
      rw [keep_cons, Traced.bind_result_eq_ok_iff] at hkept
      obtain ⟨ignored, _, hkept⟩ := hkept
      obtain ⟨rest, hrest, hkept⟩ := Traced.bind_result_eq_ok_iff.mp hkept
      obtain rfl := Except.ok.inj hkept
      cases ignored with
      | true => exact (ih hrest).cons x
      | false => exact (ih hrest).cons_cons x

theorem sources_cons (x : String × Entry) (es : List (String × Entry)) :
    t.sources top (x :: es) = (do
      let path := Path.join top x.1
      if (Language.detect? path).isNone then t.sources top es
      else if ← t.ignores path then t.sources top es
      else if ← t.measured path x.2 then return path :: (← t.sources top es)
      else t.sources top es) :=
  (rfl)

/-- The sources in a directory are in the order of its entries. -/
theorem sources_sublist {es : List (String × Entry)} {paths : List String}
    (hpaths : (t.sources top es).result = .ok paths) :
    paths.Sublist (es.map fun x => Path.join top x.1) := by
  induction es generalizing paths with
  | nil =>
      obtain rfl := Except.ok.inj hpaths
      exact .refl _
  | cons x es ih =>
      rw [sources_cons] at hpaths
      dsimp only at hpaths
      split at hpaths
      · exact (ih hpaths).cons _
      · obtain ⟨ignored, _, hpaths⟩ := Traced.bind_result_eq_ok_iff.mp hpaths
        split at hpaths
        · exact (ih hpaths).cons _
        · obtain ⟨measured, _, hpaths⟩ := Traced.bind_result_eq_ok_iff.mp hpaths
          split at hpaths
          · obtain ⟨rest, hrest, hpaths⟩ := Traced.bind_result_eq_ok_iff.mp hpaths
            obtain rfl := Except.ok.inj hpaths
            exact (ih hrest).cons_cons _
          · exact (ih hpaths).cons _

/-- The entries that are gone into, each with what is found below it. -/
theorem underAll_eq (es : List (String × Entry)) :
    t.underAll top es =
      (es.filter fun x => t.leadsToDirectory (Path.join top x.1) x.2).map fun x =>
        (x.1, t.under (Path.join top x.1) x.2) := by
  induction es with
  | nil => rw [underAll]; rfl
  | cons x es ih =>
      obtain ⟨name, e⟩ := x
      rw [underAll, ih]
      cases hleads : t.leadsToDirectory (Path.join top name) e with
      | true => simp [hleads]
      | false => simp [hleads]

/-! ## No path twice -/

/-- Paths that differ, each through one of the names. -/
structure Spread (start : String) (names paths : List String) : Prop where
  nodup : paths.Nodup
  through : ∀ path ∈ paths, ∃ name ∈ names, Path.Through start name path

variable {start : String} {names paths : List String}

theorem Spread.mono {more : List String} (hpaths : Spread start names paths)
    (hsubset : names ⊆ more) : Spread start more paths where
  nodup := hpaths.nodup
  through path hpath := by
    obtain ⟨name, hname, hthrough⟩ := hpaths.through path hpath
    exact ⟨name, hsubset hname, hthrough⟩

/-- Paths through some names and paths through other names are spread over all of them, and none is
there twice. -/
theorem Spread.append {more paths' : List String} (hnames : ∀ name ∈ names ++ more, IsName name)
    (hdisjoint : ∀ name ∈ names, name ∉ more) (hpaths : Spread start names paths)
    (hpaths' : Spread start more paths') : Spread start (names ++ more) (paths ++ paths') where
  nodup := by
    refine List.nodup_append.mpr ⟨hpaths.nodup, hpaths'.nodup, ?_⟩
    rintro path hpath _ hpath' rfl
    obtain ⟨name, hname, hthrough⟩ := hpaths.through path hpath
    obtain ⟨other, hother, hthrough'⟩ := hpaths'.through path hpath'
    obtain rfl := hthrough.unique (hnames name (List.mem_append_left _ hname))
      (hnames other (List.mem_append_right _ hother)) hthrough'
    exact hdisjoint name hname hother
  through path hpath := by
    rcases List.mem_append.mp hpath with hpath | hpath
    · obtain ⟨name, hname, hthrough⟩ := hpaths.through path hpath
      exact ⟨name, List.mem_append_left _ hname, hthrough⟩
    · obtain ⟨name, hname, hthrough⟩ := hpaths'.through path hpath
      exact ⟨name, List.mem_append_right _ hname, hthrough⟩

/-- To sort entries by name takes none away. -/
theorem perm_sortNames {α : Type} (xs : List (String × α)) : (sortNames xs).Perm xs :=
  List.mergeSort_perm _ _

/-- The files of one directory, in the order of their names. -/
theorem spread_sources {es : List (String × Entry)} (hnodup : (es.map (·.1)).Nodup)
    (hnames : ∀ x ∈ es, IsName x.1) (hpaths : (t.sources top (sortNames es)).result = .ok paths) :
    Spread (Path.lead top) (es.map (·.1)) paths := by
  have hperm := perm_sortNames es
  have hjoin : ((sortNames es).map fun x => Path.join top x.1) =
      ((sortNames es).map (·.1)).map (Path.lead top ++ ·) := by
    rw [List.map_map]
    exact List.map_congr_left fun x hx => Path.join_eq_lead (hnames x (hperm.mem_iff.mp hx))
  have hsublist := sources_sublist hpaths
  rw [hjoin] at hsublist
  refine ⟨hsublist.nodup (List.Nodup.map (fun a b hab => ?_)
    ((hperm.map _).nodup_iff.mpr hnodup)), fun path hpath => ?_⟩
  · have hchars := congrArg String.toList hab
    rw [String.toList_append, String.toList_append] at hchars
    exact String.toList_inj.mp (List.append_cancel_left hchars)
  · obtain ⟨name, hname, rfl⟩ := List.mem_map.mp (hsublist.subset hpath)
    exact ⟨name, (hperm.map _).mem_iff.mp hname, Path.through_self _ _⟩

/-- One subdirectory after the other. -/
theorem spread_chain {ds : List (String × Traced (List String))} (hnodup : (ds.map (·.1)).Nodup)
    (hnames : ∀ x ∈ ds, IsName x.1)
    (hparts : ∀ x ∈ ds, ∀ part, x.2.result = .ok part → Spread start [x.1] part)
    (hpaths : (chain (ds.map (·.2))).result = .ok paths) :
    Spread start (ds.map (·.1)) paths := by
  induction ds generalizing paths with
  | nil =>
      obtain rfl := Except.ok.inj hpaths
      exact ⟨List.nodup_nil, nofun⟩
  | cons x ds ih =>
      rw [List.map_cons, chain, Traced.bind_result_eq_ok_iff] at hpaths
      obtain ⟨first, hfirst, hpaths⟩ := hpaths
      obtain ⟨rest, hrest, hpaths⟩ := Traced.bind_result_eq_ok_iff.mp hpaths
      obtain rfl := Except.ok.inj hpaths
      rw [List.map_cons, List.nodup_cons] at hnodup
      have hrestSpread := ih hnodup.2 (fun y hy => hnames y (List.mem_cons_of_mem _ hy))
        (fun y hy => hparts y (List.mem_cons_of_mem _ hy)) hrest
      refine Spread.append ?_ ?_ (hparts x List.mem_cons_self first hfirst) hrestSpread
      · intro name hname
        rw [List.singleton_append, ← List.map_cons] at hname
        obtain ⟨y, hy, rfl⟩ := List.mem_map.mp hname
        exact hnames y hy
      · intro name hname
        rw [List.mem_singleton.mp hname]
        exact hnodup.1

/-- Everything below a subdirectory goes through the name of the subdirectory. -/
theorem Spread.below {name : String} (hname : IsName name)
    (hpaths : Spread (Path.lead (Path.join top name)) names paths) :
    Spread (Path.lead top) [name] paths where
  nodup := hpaths.nodup
  through path hpath := by
    obtain ⟨below, _, hthrough⟩ := hpaths.through path hpath
    rw [Path.join_eq_lead hname, Path.lead_append hname] at hthrough
    exact ⟨name, List.mem_singleton_self name, hthrough.below⟩

/-- Nothing is found twice below an entry, and all of it through the names of its entries. -/
theorem spread_under {e : Entry} (he : e.Proper) (hpaths : (t.under top e).result = .ok paths) :
    Spread (Path.lead top) (e.entries.map (·.1)) paths := by
  induction he generalizing top paths with
  | file content =>
      rw [under] at hpaths
      obtain rfl := Except.ok.inj hpaths
      exact ⟨List.nodup_nil, nofun⟩
  | link target =>
      rw [under] at hpaths
      obtain rfl := Except.ok.inj hpaths
      exact ⟨List.nodup_nil, nofun⟩
  | @directory es hnodup hnames hbelow ih =>
      let leads (x : String × Entry) : Bool := t.leadsToDirectory (Path.join top x.1) x.2
      rw [under, gather, underAll_eq, Traced.bind_result_eq_ok_iff] at hpaths
      obtain ⟨kept, hkept, hpaths⟩ := hpaths
      obtain ⟨here, hhere, hpaths⟩ := Traced.bind_result_eq_ok_iff.mp hpaths
      obtain ⟨deeper, hdeeper, hpaths⟩ := Traced.bind_result_eq_ok_iff.mp hpaths
      obtain rfl := Except.ok.inj hpaths
      have hspreadHere : Spread (Path.lead top) ((es.filter (!leads ·)).map (·.1)) here :=
        spread_sources ((List.filter_sublist.map _).nodup hnodup)
          (fun x hx => hnames x (List.mem_of_mem_filter hx)) hhere
      have hsublist : (kept.map (·.1)).Sublist ((es.filter leads).map (·.1)) := by
        have hnames := (keep_sublist hkept).map Prod.fst
        rwa [List.map_map] at hnames
      have hmem : ∀ x ∈ sortNames kept, ∃ y ∈ es, x = (y.1, t.under (Path.join top y.1) y.2) := by
        intro x hx
        have hin := (keep_sublist hkept).subset ((perm_sortNames _).mem_iff.mp hx)
        obtain ⟨y, hy, rfl⟩ := List.mem_map.mp hin
        exact ⟨y, List.mem_of_mem_filter hy, rfl⟩
      have hperm := (perm_sortNames kept).map Prod.fst
      have hspreadDeeper : Spread (Path.lead top) ((es.filter leads).map (·.1)) deeper := by
        refine (spread_chain ?_ (fun x hx => ?_) (fun x hx part hpart => ?_) hdeeper).mono
          fun _ hname => hsublist.subset (hperm.subset hname)
        · exact hperm.nodup_iff.mpr (hsublist.nodup ((List.filter_sublist.map _).nodup hnodup))
        · obtain ⟨y, hy, rfl⟩ := hmem x hx
          exact hnames y hy
        · obtain ⟨y, hy, rfl⟩ := hmem x hx
          exact (ih y hy hpart).below (hnames y hy)
      have hsubset : (es.filter (!leads ·)).map (·.1) ++ (es.filter leads).map (·.1) ⊆
          es.map (·.1) :=
        List.append_subset.mpr
          ⟨(List.filter_sublist.map _).subset, (List.filter_sublist.map _).subset⟩
      refine (Spread.append (fun name hname => ?_) (fun name hname hname' => ?_) hspreadHere
        hspreadDeeper).mono hsubset
      · obtain ⟨x, hx, rfl⟩ := List.mem_map.mp (hsubset hname)
        exact hnames x hx
      · -- A name leads to a directory or it does not.
        obtain ⟨x, hx, rfl⟩ := List.mem_map.mp hname
        obtain ⟨y, hy, hxy⟩ := List.mem_map.mp hname'
        obtain ⟨hxes, hxleads⟩ := List.mem_filter.mp hx
        obtain ⟨hyes, hyleads⟩ := List.mem_filter.mp hy
        obtain rfl : y = x := List.inj_on_of_nodup_map hnodup hyes hxes hxy
        simp [hyleads] at hxleads

/-! ## What the walk goes by -/

theorem keep_congr {u : Tour} (hignores : t.ignores = u.ignores) {α : Type}
    (xs : List (String × α)) : t.keep top xs = u.keep top xs := by
  induction xs with
  | nil => rfl
  | cons x xs ih => rw [keep_cons, keep_cons, hignores, ih]

theorem sources_congr {u : Tour} (hignores : t.ignores = u.ignores)
    (hmeasured : t.measured = u.measured) (es : List (String × Entry)) :
    t.sources top es = u.sources top es := by
  induction es with
  | nil => rfl
  | cons x es ih => rw [sources_cons, sources_cons, hignores, hmeasured, ih]

/-- Tours that ignore, measure and follow links alike gather the same in a directory. -/
theorem gather_congr {u : Tour} (hignores : t.ignores = u.ignores)
    (hmeasured : t.measured = u.measured) (hleads : t.leadsToDirectory = u.leadsToDirectory)
    (es : List (String × Entry)) (below : List (String × Traced (List String))) :
    t.gather top es below = u.gather top es below := by
  simp only [gather, keep_congr hignores, sources_congr hignores hmeasured, hleads]

mutual

/-- Walks find the same if they ignore, measure and go into the same. -/
theorem under_congr {u : Tour} (hignores : t.ignores = u.ignores)
    (hmeasured : t.measured = u.measured) (hleads : t.leadsToDirectory = u.leadsToDirectory) :
    ∀ (top : String) (e : Entry), t.under top e = u.under top e
  | _, .file _ => by rw [under, under]
  | _, .link _ => by rw [under, under]
  | top, .directory es => by
      rw [under, under, underAll_congr hignores hmeasured hleads top es,
        gather_congr hignores hmeasured hleads]

theorem underAll_congr {u : Tour} (hignores : t.ignores = u.ignores)
    (hmeasured : t.measured = u.measured) (hleads : t.leadsToDirectory = u.leadsToDirectory) :
    ∀ (top : String) (es : List (String × Entry)), t.underAll top es = u.underAll top es
  | _, [] => by rw [underAll, underAll]
  | top, (name, e) :: rest => by
      rw [underAll, underAll, hleads, under_congr hignores hmeasured hleads _ e,
        underAll_congr hignores hmeasured hleads top rest]

end

end Scan.Tour

namespace Scan

/-- The number of workers has no say in what is found. -/
theorem discover_maxWorkers (settings : ScanSettings) (workers : Value) (d : Disk)
    (target : String) :
    discover { settings with maxWorkers := workers } d target = discover settings d target := by
  unfold discover
  have hunder : ∀ top e, Tour.under ⟨{ settings with maxWorkers := workers }, d, target⟩ top e =
      Tour.under ⟨settings, d, target⟩ top e :=
    Tour.under_congr rfl rfl rfl
  simp only [hunder]

/-- What a probe finds is the entry there. -/
theorem entry_of_probe {d : Disk} {path : String} {e : Entry}
    (hprobe : d.probe path = .ok (some e)) : d.entry path = .ok e := by
  rw [Disk.probe] at hprobe
  split at hprobe
  next e' hentry =>
    obtain rfl := Option.some.inj (Except.ok.inj hprobe)
    exact hentry
  next =>
    split at hprobe
    · cases hprobe
    · cases hprobe
  next => cases hprobe

/-- No file is found twice. -/
theorem nodup_discover {settings : ScanSettings} {d : Disk} {target : String}
    {files : List String} (hd : d.root.Proper)
    (hfiles : (discover settings d target).result = .ok files) : files.Nodup := by
  unfold discover at hfiles
  generalize Path.tidy target = path at hfiles
  obtain ⟨probed, hprobed, hfiles⟩ := Traced.bind_result_eq_ok_iff.mp hfiles
  cases probed with
  | none =>
      obtain rfl := Except.ok.inj hfiles
      exact List.nodup_nil
  | some e =>
      obtain ⟨place, hplace⟩ := Disk.exists_at?_of_entry (entry_of_probe hprobed)
      have hproper := hd.at? hplace
      cases e with
      | file content =>
          obtain rfl := Except.ok.inj hfiles
          exact List.nodup_singleton _
      | link target => exact (Tour.spread_under hproper hfiles).nodup
      | directory es => exact (Tour.spread_under hproper hfiles).nodup

end Scan

end Cyclomatic
