import Cyclomatic.Files.Basic

/-! # Places on a disk

What a path leads to depends only on what is seen at places: a file, a link and
its target, or a directory. A disk on which everything that was seen before is
still there leads every path to where it led before.
-/

namespace Cyclomatic

/-- What an entry is, without the entries of a directory. -/
inductive Sight where
  | file (content : Bytes)
  | link (target : String)
  | directory

namespace Entry

/-! ## What is seen at a place -/

def sight : Entry → Sight
  | .file content => .file content
  | .link target => .link target
  | .directory _ => .directory

def sight? (root : Entry) (place : List String) : Option Sight := (root.at? place).map sight

theorem at?_cons (e : Entry) (name : String) (names : List String) :
    e.at? (name :: names) = (e.entries.lookup name).bind (·.at? names) :=
  rfl

/-- What stands below a place is looked up from what stands at the place. -/
theorem at?_append (root : Entry) (above below : List String) :
    root.at? (above ++ below) = (root.at? above).bind (·.at? below) := by
  induction above generalizing root with
  | nil => rfl
  | cons name above ih =>
      rw [List.cons_append, at?_cons, at?_cons, Option.bind_assoc]
      exact congrArg _ (funext fun e => ih e)

/-- What stands in a directory is looked up by its name. -/
theorem at?_append_singleton {root : Entry} {place : List String} {es : List (String × Entry)}
    (hplace : root.at? place = some (.directory es)) (name : String) :
    root.at? (place ++ [name]) = es.lookup name := by
  rw [at?_append, hplace, Option.bind_some, at?_cons, entries]
  cases es.lookup name <;> rfl

theorem at?_of_entries_eq_nil {e : Entry} (he : e.entries = []) (name : String)
    (names : List String) : e.at? (name :: names) = none := by
  rw [at?_cons, he]
  rfl

theorem lookup_cons_eq_ite {α : Type} (name other : String) (a : α) (xs : List (String × α)) :
    ((name, a) :: xs).lookup other = if other = name then some a else xs.lookup other := by
  by_cases hother : other = name
  · simp [hother]
  · rw [List.lookup_cons, beq_false_of_ne hother, if_neg hother]

/-- An entry that is assigned is found under its name, and all others are found as before. -/
theorem lookup_assign (name other : String) (e : Entry) (es : List (String × Entry)) :
    (assign name e es).lookup other = if other = name then some e else es.lookup other := by
  induction es with
  | nil => rw [assign, lookup_cons_eq_ite]
  | cons x es ih =>
      obtain ⟨first, old⟩ := x
      rw [assign]
      by_cases hfirst : first = name
      · rw [if_pos hfirst, lookup_cons_eq_ite, lookup_cons_eq_ite, hfirst]
        split <;> rfl
      · rw [if_neg hfirst, lookup_cons_eq_ite, lookup_cons_eq_ite, ih]
        by_cases hother : other = first
        · simp [hother, hfirst]
        · simp [hother]

/-! ## Putting an entry at a place -/

/-- A place at which an entry can be put without losing another: there is an entry with nothing
in it, or there is none in a directory that is there. -/
inductive Room : Entry → List String → Prop
  | here {e : Entry} (he : e.entries = []) : Room e []
  | vacant {es : List (String × Entry)} {name : String} (hname : es.lookup name = none) :
      Room (.directory es) [name]
  | inside {es : List (String × Entry)} {name : String} {e : Entry} {names : List String}
      (hname : es.lookup name = some e) (hroom : Room e names) :
      Room (.directory es) (name :: names)

/-- There is room at a place if there is room below something on the way to it. -/
theorem room_append {root e : Entry} {above below : List String} (habove : root.at? above = some e)
    (hroom : Room e below) : Room root (above ++ below) := by
  induction above generalizing root with
  | nil =>
      obtain rfl := Option.some.inj habove
      exact hroom
  | cons name above ih =>
      rw [at?_cons] at habove
      obtain ⟨inner, hinner, hinnerAt⟩ := Option.bind_eq_some_iff.mp habove
      cases root with
      | file content => cases hinner
      | link target => cases hinner
      | directory es => exact .inside hinner (ih hinnerAt)

/-- A file may be put where something without entries stands. -/
theorem room_of_at? {root e : Entry} {place : List String} (hplace : root.at? place = some e)
    (he : e.entries = []) : Room root place := by
  have hroom := room_append hplace (.here he)
  rwa [List.append_nil] at hroom

/-- A file may be put under a name that a directory does not have. -/
theorem room_of_vacant {root : Entry} {place : List String} {es : List (String × Entry)}
    {name : String} (hplace : root.at? place = some (.directory es))
    (hname : es.lookup name = none) : Room root (place ++ [name]) :=
  room_append hplace (.vacant hname)

theorem sight?_nil (root : Entry) : root.sight? [] = some root.sight := rfl

/-- What is seen below a directory is seen from the entry under the first name. -/
theorem sight?_cons (es : List (String × Entry)) (name : String) (names : List String) :
    (directory es).sight? (name :: names) = (es.lookup name).bind (·.sight? names) := by
  rw [sight?, at?_cons, entries]
  cases es.lookup name <;> rfl

theorem sight?_of_entries_eq_nil {e : Entry} (he : e.entries = []) {place : List String}
    (hplace : place ≠ []) : e.sight? place = none := by
  obtain ⟨name, names, rfl⟩ := List.exists_cons_of_ne_nil hplace
  rw [sight?, at?_of_entries_eq_nil he]
  rfl

/-- Where there is room, an entry is put at its place and all other places stay as they are. -/
theorem sight?_put {root new : Entry} {place : List String} (hroom : Room root place)
    (hnew : new.entries = []) (other : List String) :
    (root.put place new).sight? other =
      if other = place then some new.sight else root.sight? other := by
  induction hroom generalizing other with
  | here he =>
      rw [put]
      by_cases hother : other = []
      · rw [if_pos hother, hother, sight?_nil]
      · rw [if_neg hother, sight?_of_entries_eq_nil hnew hother,
          sight?_of_entries_eq_nil he hother]
  | @vacant es name hname =>
      cases other with
      | nil => rfl
      | cons first names =>
          rw [put, put, sight?_cons, sight?_cons, lookup_assign]
          by_cases hfirst : first = name
          · rw [if_pos hfirst, Option.bind_some, hfirst, hname]
            by_cases hnames : names = []
            · simp [hnames, sight?_nil]
            · simp [hnames, sight?_of_entries_eq_nil hnew hnames]
          · simp [hfirst]
  | @inside es name e names hname _ ih =>
      cases other with
      | nil => rfl
      | cons first rest =>
          rw [put, sight?_cons, sight?_cons, lookup_assign, hname, Option.getD_some]
          by_cases hfirst : first = name
          · rw [if_pos hfirst, Option.bind_some, ih, hfirst, hname, Option.bind_some]
            simp
          · simp [hfirst]

/-! ## Disks that keep what there is -/

/-- Everything that is seen in an entry is seen in another, up to the content of files. -/
structure Keeps (root later : Entry) : Prop where
  file : ∀ {place content}, root.sight? place = some (.file content) →
    ∃ content, later.sight? place = some (.file content)
  link : ∀ {place target}, root.sight? place = some (.link target) →
    later.sight? place = some (.link target)
  directory : ∀ {place}, root.sight? place = some .directory →
    later.sight? place = some .directory

variable {root later : Entry} {place : List String}

theorem Keeps.refl (root : Entry) : Keeps root root :=
  ⟨fun hfile => ⟨_, hfile⟩, id, id⟩

/-- What is kept through one change and through the next is kept through both. -/
theorem Keeps.trans {last : Entry} (hroot : Keeps root later) (hlater : Keeps later last) :
    Keeps root last where
  file hfile := by
    obtain ⟨content, hcontent⟩ := hroot.file hfile
    exact hlater.file hcontent
  link hlink := hlater.link (hroot.link hlink)
  directory hdirectory := hlater.directory (hroot.directory hdirectory)

/-- Putting an entry where there was none. -/
theorem keeps_put_of_none {new : Entry} (hroom : Room root place) (hnew : new.entries = [])
    (hnone : root.sight? place = none) : Keeps root (root.put place new) := by
  have hsight : ∀ {other s}, root.sight? other = some s →
      (root.put place new).sight? other = some s := by
    intro other s hs
    have hother : other ≠ place := by
      rintro rfl
      rw [hnone] at hs
      cases hs
    rw [sight?_put hroom hnew, if_neg hother, hs]
  exact ⟨fun hfile => ⟨_, hsight hfile⟩, hsight, hsight⟩

/-- Putting a file in the place of a file. -/
theorem keeps_put_of_file {content old : Bytes} (hroom : Room root place)
    (hold : root.sight? place = some (.file old)) :
    Keeps root (root.put place (.file content)) where
  file {other _} hfile := by
    rw [sight?_put hroom rfl]
    by_cases hother : other = place
    · exact ⟨content, if_pos hother⟩
    · exact ⟨_, (if_neg hother).trans hfile⟩
  link {other target} hlink := by
    have hother : other ≠ place := by
      rintro rfl
      rw [hold] at hlink
      cases hlink
    rw [sight?_put hroom rfl, if_neg hother, hlink]
  directory {other} hdirectory := by
    have hother : other ≠ place := by
      rintro rfl
      rw [hold] at hdirectory
      cases hdirectory
    rw [sight?_put hroom rfl, if_neg hother, hdirectory]

end Entry

/-! ## Following paths -/

/-- What a spot says about what is there. -/
def Spot.IsOn (root : Entry) : Spot → Prop
  | .found place e => root.at? place = some e
  | .vacant directory name =>
      ∃ es, root.at? directory = some (.directory es) ∧ es.lookup name = none

/-- The place that a spot is about. -/
def Spot.place : Spot → List String
  | .found place _ => place
  | .vacant directory name => directory ++ [name]

namespace Disk

open Entry

/-- A name to look up in a directory, with the names after it. -/
structure Plain (aim : Aim) (name : String) (rest : List String) : Prop where
  notHere : (name.isEmpty || name = ".") = false
  notUp : name ≠ ".."
  notWritten : (aim = .writing && rest = [""]) = false
  short : byteLength name ≤ nameLimit

/-- Where names lead to from a place: one rule for each kind of step. -/
inductive Leads (root : Entry) (aim : Aim) : Nat → List String → List String → Spot → Prop
  | arrived {links place e} (hplace : root.at? place = some e) :
      Leads root aim links place [] (.found place e)
  | here {links place es name rest spot} (hplace : root.at? place = some (.directory es))
      (hname : (name.isEmpty || name = ".") = true) (hrest : Leads root aim links place rest spot) :
      Leads root aim links place (name :: rest) spot
  | up {links place es rest spot} (hplace : root.at? place = some (.directory es))
      (hrest : Leads root aim links place.dropLast rest spot) :
      Leads root aim links place (".." :: rest) spot
  | vacant {links place es name rest} (hplace : root.at? place = some (.directory es))
      (hplain : Plain aim name rest) (hname : es.lookup name = none)
      (hrest : rest.all (·.isEmpty) = true) :
      Leads root aim links place (name :: rest) (.vacant place name)
  | named {links place es name target} (hplace : root.at? place = some (.directory es))
      (hplain : Plain aim name []) (hname : es.lookup name = some (.link target))
      (haim : aim = .name) :
      Leads root aim links place [name] (.found (place ++ [name]) (.link target))
  | through {links place es name target rest spot}
      (hplace : root.at? place = some (.directory es)) (hplain : Plain aim name rest)
      (hname : es.lookup name = some (.link target))
      (haim : (rest.isEmpty && aim = .name) = false)
      (hrest : Leads root aim links (if Path.isAbsolute target then [] else place)
        (steps target ++ rest) spot) :
      Leads root aim (links + 1) place (name :: rest) spot
  | into {links place es name e rest spot} (hplace : root.at? place = some (.directory es))
      (hplain : Plain aim name rest) (hname : es.lookup name = some e)
      (he : ∀ target, e ≠ .link target)
      (hrest : Leads root aim links (place ++ [name]) rest spot) :
      Leads root aim links place (name :: rest) spot

variable {root later : Entry} {aim : Aim} {links : Nat} {place names : List String} {spot : Spot}

/-- What a look-up gives is where the path leads, by the rules. -/
theorem leads_of_follow (hfollow : follow root aim links place names = .ok spot) :
    Leads root aim links place names spot := by
  have plain : ∀ {name rest}, ¬(name.isEmpty || name = ".") = true → ¬name = ".." →
      ¬(aim = .writing && rest = [""]) = true → ¬nameLimit < byteLength name →
        Plain aim name rest := fun hhere hup hwritten hlong =>
    ⟨eq_false_of_ne_true hhere, hup, eq_false_of_ne_true hwritten,
      Nat.le_of_not_lt hlong⟩
  fun_induction follow root aim links place names with
  | case1 links place e hplace =>
      obtain rfl := Except.ok.inj hfollow
      exact .arrived hplace
  | case3 links place name rest es hplace hhere ih => exact .here hplace hhere (ih hfollow)
  | case4 links place rest es hplace hhere ih => exact .up hplace (ih hfollow)
  | case7 links place name rest es hplace hhere hup hwritten hlong hname hrest =>
      obtain rfl := Except.ok.inj hfollow
      exact .vacant hplace (plain hhere hup hwritten hlong) hname hrest
  | case9 links place name rest es hplace hhere hup hwritten hlong target hname haim =>
      obtain rfl := Except.ok.inj hfollow
      obtain ⟨hrest, haim⟩ := Bool.and_eq_true_iff.mp haim
      obtain rfl := List.isEmpty_iff.mp hrest
      exact .named hplace (plain hhere hup hwritten hlong) hname (of_decide_eq_true haim)
  | case11 place name rest es hplace hhere hup hwritten hlong target hname haim links ih =>
      exact .through hplace (plain hhere hup hwritten hlong) hname
        (eq_false_of_ne_true haim) (ih hfollow)
  | case12 links place name rest es hplace hhere hup hwritten hlong e he hname ih =>
      exact .into hplace (plain hhere hup hwritten hlong) hname he (ih hfollow)
  | _ => cases hfollow

/-- Where a path leads by the rules is what a look-up gives. -/
theorem Leads.follow_eq (hleads : Leads root aim links place names spot) :
    follow root aim links place names = .ok spot := by
  induction hleads with
  | arrived hplace => simp [follow, hplace]
  | here hplace hname hrest ih =>
      rw [follow, hplace]
      simp [hname, ih]
  | up hplace hrest ih =>
      rw [follow, hplace]
      simp [ih]
  | vacant hplace hplain hname hrest =>
      rw [follow, hplace]
      simp [hplain.notHere, hplain.notUp, hplain.notWritten, hplain.short, hname, hrest]
  | named hplace hplain hname haim =>
      rw [follow, hplace]
      simp [hplain.notHere, hplain.notUp, hplain.short, hname, haim]
  | through hplace hplain hname haim hrest ih =>
      rw [follow, hplace]
      simp [hplain.notHere, hplain.notUp, hplain.notWritten, hplain.short, hname, haim, ih]
  | into hplace hplain hname he hrest ih =>
      rw [follow, hplace]
      simp [hplain.notHere, hplain.notUp, hplain.notWritten, hplain.short, hname, ih]

/-- What is found is at its place; a vacant place is in a directory that is there. -/
theorem Leads.spot_isOn (hleads : Leads root aim links place names spot) : spot.IsOn root := by
  induction hleads with
  | arrived hplace => exact hplace
  | here _ _ _ ih => exact ih
  | up _ _ ih => exact ih
  | vacant hplace _ hname _ => exact ⟨_, hplace, hname⟩
  | named hplace _ hname _ => exact (at?_append_singleton hplace _).trans hname
  | through _ _ _ _ _ ih => exact ih
  | into _ _ _ _ _ ih => exact ih

/-- What can be written is also what there is to read. -/
theorem Leads.entry (hleads : Leads root .writing links place names spot) :
    Leads root .entry links place names spot := by
  have plain : ∀ {name rest}, Plain .writing name rest → Plain .entry name rest :=
    fun hplain => ⟨hplain.notHere, hplain.notUp, rfl, hplain.short⟩
  induction hleads with
  | arrived hplace => exact .arrived hplace
  | here hplace hname _ ih => exact .here hplace hname ih
  | up hplace _ ih => exact .up hplace ih
  | vacant hplace hplain hname hrest => exact .vacant hplace (plain hplain) hname hrest
  | named _ _ _ haim => cases haim
  | through hplace hplain hname _ _ ih =>
      exact .through hplace (plain hplain) hname (Bool.and_false _) ih
  | into hplace hplain hname he _ ih => exact .into hplace (plain hplain) hname he ih

/-! ## Paths on a disk that keeps what there is -/

/-- A directory stays one, though its entries may change. -/
theorem exists_at?_directory {es : List (String × Entry)} (hkeeps : Keeps root later)
    (hplace : root.at? place = some (.directory es)) :
    ∃ es', later.at? place = some (.directory es') := by
  have hsight : later.sight? place = some .directory :=
    hkeeps.directory (by rw [sight?, hplace]; rfl)
  obtain ⟨e, he, hdirectory⟩ := Option.map_eq_some_iff.mp hsight
  cases e with
  | file content => cases hdirectory
  | link target => cases hdirectory
  | directory es' => exact ⟨es', he⟩

theorem at?_link {target : String} (hkeeps : Keeps root later)
    (hplace : root.at? place = some (.link target)) : later.at? place = some (.link target) := by
  have hsight : later.sight? place = some (.link target) :=
    hkeeps.link (by rw [sight?, hplace]; rfl)
  obtain ⟨e, he, hlink⟩ := Option.map_eq_some_iff.mp hsight
  cases e with
  | file content => cases hlink
  | link target => rwa [Sight.link.inj hlink] at he
  | directory es' => cases hlink

/-- What is no link does not become one. -/
theorem exists_at?_of_not_link {e : Entry} (hkeeps : Keeps root later)
    (hplace : root.at? place = some e) (he : ∀ target, e ≠ .link target) :
    ∃ e', later.at? place = some e' ∧ ∀ target, e' ≠ .link target := by
  cases e with
  | link target => exact absurd rfl (he target)
  | directory es =>
      obtain ⟨es', hes'⟩ := exists_at?_directory hkeeps hplace
      exact ⟨_, hes', nofun⟩
  | file content =>
      obtain ⟨content', hsight⟩ := hkeeps.file (by rw [sight?, hplace]; rfl)
      obtain ⟨e, he, hfile⟩ := Option.map_eq_some_iff.mp hsight
      exact ⟨e, he, by rintro target rfl; cases hfile⟩

/-- Names with at most one empty name at their end. -/
def EndsOnce (names : List String) : Prop := ∀ above, names ≠ above ++ ["", ""]

theorem endsOnce_of_cons {name : String} {rest : List String} (hnames : EndsOnce (name :: rest)) :
    EndsOnce rest := by
  rintro above rfl
  exact hnames (name :: above) rfl

/-- A path ends in a slash once: its last step may be empty, but then not the one before. -/
theorem endsOnce_concat_iff {names : List String} {last : String} :
    EndsOnce (names ++ [last]) ↔ last = "" → names.getLast? ≠ some "" := by
  constructor
  · rintro hnames rfl hlast
    obtain ⟨above, rfl⟩ := List.getLast?_eq_some_iff.mp hlast
    exact hnames above (List.append_assoc _ _ _)
  · intro hlast above happend
    rw [List.append_cons above "" [""]] at happend
    obtain ⟨rfl, hempty⟩ := List.append_inj' happend rfl
    exact hlast (List.singleton_inj.mp hempty) List.getLast?_concat

/-- The steps of a path end in an empty one at most once, however many slashes the path ends in. -/
theorem endsOnce_steps (path : String) : EndsOnce (steps path) := by
  rw [steps]
  cases (Path.components path).getLast? with
  | none =>
      intro above happend
      have hmem : "" ∈ (Path.components path).dropLast.filter (!·.isEmpty) := by
        rw [Option.toList_none, List.append_nil] at happend
        simp [happend]
      simpa using (List.mem_filter.mp hmem).2
  | some last =>
      refine endsOnce_concat_iff.mpr fun _ hlast => ?_
      simpa using (List.mem_filter.mp (List.mem_of_getLast? hlast)).2

theorem endsOnce_append {above rest : List String} (habove : EndsOnce above)
    (hrest : EndsOnce rest) (hne : rest ≠ [""]) : EndsOnce (above ++ rest) := by
  rcases List.eq_nil_or_concat rest with rfl | ⟨names, last, rfl⟩
  · rwa [List.append_nil]
  · rw [List.concat_eq_append] at hrest hne ⊢
    rw [← List.append_assoc]
    refine endsOnce_concat_iff.mpr fun hlast hempty => ?_
    rw [List.getLast?_append] at hempty
    cases hsecond : names.getLast? with
    | none =>
        obtain rfl := List.getLast?_eq_none_iff.mp hsecond
        exact hne (by rw [hlast]; rfl)
    | some second =>
        rw [hsecond, Option.some_or] at hempty
        exact endsOnce_concat_iff.mp hrest hlast (hsecond.trans hempty)

/-- Steps that are all empty are none, or the single one of a slash at the end. -/
theorem eq_nil_of_endsOnce {rest : List String} (hrest : EndsOnce rest) (hne : rest ≠ [""])
    (hempty : rest.all (·.isEmpty) = true) : rest = [] := by
  have hall : ∀ name ∈ rest, name = "" := by simpa using hempty
  rcases List.eq_nil_or_concat rest with rfl | ⟨names, last, rfl⟩
  · rfl
  · rw [List.concat_eq_append] at hrest hne hall
    have hlast : last = "" := hall last (by simp)
    rcases List.eq_nil_or_concat names with rfl | ⟨names, second, rfl⟩
    · exact absurd (by rw [hlast]; rfl) hne
    · refine absurd ?_ (endsOnce_concat_iff.mp hrest hlast)
      rw [List.concat_eq_append, List.getLast?_concat, hall second (by simp)]

/-- What has been found or written is read under the same path, as long as nothing is lost. -/
theorem Leads.entry_of_keeps {content : Bytes} (hkeeps : Keeps root later)
    (hleads : Leads root aim links place names spot) (haim : aim ≠ .name)
    (hvacant : ∀ directory name, spot = .vacant directory name → aim = .writing)
    (hnames : aim = .writing → EndsOnce names)
    (hfile : later.at? spot.place = some (.file content)) :
    Leads later .entry links place names (.found spot.place (.file content)) := by
  have plain : ∀ {name rest}, Plain aim name rest → Plain .entry name rest :=
    fun hplain => ⟨hplain.notHere, hplain.notUp, rfl, hplain.short⟩
  have writable : ∀ {name rest}, Plain aim name rest → aim = .writing → rest ≠ [""] := by
    rintro name rest hplain rfl
    exact of_decide_eq_false hplain.notWritten
  have hrest {name : String} {rest : List String}
      (hnames : aim = .writing → EndsOnce (name :: rest)) (hwriting : aim = .writing) :
      EndsOnce rest := endsOnce_of_cons (hnames hwriting)
  induction hleads with
  | arrived _ => exact .arrived hfile
  | here hplace hname _ ih =>
      obtain ⟨es, hplace⟩ := exists_at?_directory hkeeps hplace
      exact .here hplace hname (ih hvacant (hrest hnames) hfile)
  | up hplace _ ih =>
      obtain ⟨es, hplace⟩ := exists_at?_directory hkeeps hplace
      exact .up hplace (ih hvacant (hrest hnames) hfile)
  | @vacant links place es name rest hplace hplain hname hempty =>
      obtain ⟨es, hplace⟩ := exists_at?_directory hkeeps hplace
      have hlookup : es.lookup name = some (.file content) :=
        (at?_append_singleton hplace name).symm.trans hfile
      have hwriting := hvacant place name rfl
      obtain rfl := eq_nil_of_endsOnce (hrest hnames hwriting) (writable hplain hwriting) hempty
      exact .into hplace (plain hplain) hlookup nofun (.arrived hfile)
  | named _ _ _ hname => exact absurd hname haim
  | through hplace hplain hname _ _ ih =>
      obtain ⟨es, hplace'⟩ := exists_at?_directory hkeeps hplace
      have hlink := at?_link hkeeps ((at?_append_singleton hplace _).trans hname)
      rw [at?_append_singleton hplace'] at hlink
      refine .through hplace' (plain hplain) hlink (Bool.and_false _) (ih hvacant ?_ hfile)
      intro hwriting
      exact endsOnce_append (endsOnce_steps _) (hrest hnames hwriting) (writable hplain hwriting)
  | into hplace hplain hname he _ ih =>
      obtain ⟨es, hplace'⟩ := exists_at?_directory hkeeps hplace
      obtain ⟨inner, hinner, hnotLink⟩ :=
        exists_at?_of_not_link hkeeps ((at?_append_singleton hplace _).trans hname) he
      rw [at?_append_singleton hplace'] at hinner
      exact .into hplace' (plain hplain) hinner hnotLink (ih hvacant (hrest hnames) hfile)

/-! ## Paths as they are written -/

variable {d later : Disk} {path : String}

/-- A path that the disk takes at all. -/
def Accepts (path : String) : Prop :=
  hasNull path = false ∧ path.isEmpty = false ∧ byteLength path < pathLimit

/-- A path is located exactly if it is accepted and leads somewhere from the current directory. -/
theorem locate_eq_ok_iff : d.locate aim path = .ok spot ↔
    Accepts path ∧ Leads d.root aim linkLimit [] (steps (Path.join d.cwd path)) spot := by
  constructor
  · intro hlocate
    rw [locate] at hlocate
    split at hlocate
    next => cases hlocate
    next hnull =>
      split at hlocate
      next => cases hlocate
      next hempty =>
        split at hlocate
        next => cases hlocate
        next hlong =>
          split at hlocate
          next spot' hfollow =>
            obtain rfl := Except.ok.inj hlocate
            exact ⟨⟨eq_false_of_ne_true hnull, eq_false_of_ne_true hempty, Nat.lt_of_not_le hlong⟩,
              leads_of_follow hfollow⟩
          next => cases hlocate
  · rintro ⟨⟨hnull, hempty, hlong⟩, hleads⟩
    rw [locate, hnull, hempty, hleads.follow_eq]
    simp [Nat.not_le_of_lt hlong]

theorem locate_of_steps {names : List String} (haccepts : Accepts path)
    (hsteps : steps (Path.join d.cwd path) = names)
    (hleads : Leads d.root aim linkLimit [] names spot) : d.locate aim path = .ok spot :=
  locate_eq_ok_iff.mpr ⟨haccepts, hsteps ▸ hleads⟩

/-- What is found for writing is what is found for reading. -/
theorem locate_entry_of_writing (hlocate : d.locate .writing path = .ok spot) :
    d.locate .entry path = .ok spot := by
  obtain ⟨haccepts, hleads⟩ := locate_eq_ok_iff.mp hlocate
  exact locate_eq_ok_iff.mpr ⟨haccepts, hleads.entry⟩

/-- What has been written under a path is found under it, as long as nothing is lost. -/
theorem locate_entry_of_keeps {content : Bytes} (hcwd : later.cwd = d.cwd)
    (hkeeps : Keeps d.root later.root) (hlocate : d.locate .writing path = .ok spot)
    (hfile : later.root.at? spot.place = some (.file content)) :
    later.locate .entry path = .ok (.found spot.place (.file content)) := by
  obtain ⟨haccepts, hleads⟩ := locate_eq_ok_iff.mp hlocate
  refine locate_eq_ok_iff.mpr ⟨haccepts, ?_⟩
  rw [hcwd]
  exact hleads.entry_of_keeps hkeeps nofun (fun _ _ _ => rfl) (fun _ => endsOnce_steps _) hfile

/-- A file that was found under a path is still found under it, as long as nothing is lost. -/
theorem locate_entry_of_found {old content : Bytes} {place : List String}
    (hcwd : later.cwd = d.cwd) (hkeeps : Keeps d.root later.root)
    (hlocate : d.locate .entry path = .ok (.found place (.file old)))
    (hfile : later.root.at? place = some (.file content)) :
    later.locate .entry path = .ok (.found place (.file content)) := by
  obtain ⟨haccepts, hleads⟩ := locate_eq_ok_iff.mp hlocate
  refine locate_eq_ok_iff.mpr ⟨haccepts, ?_⟩
  rw [hcwd]
  exact hleads.entry_of_keeps hkeeps nofun nofun nofun hfile

/-- An entry is found at some place. -/
theorem exists_locate_of_entry {e : Entry} (hentry : d.entry path = .ok e) :
    ∃ place, d.locate .entry path = .ok (.found place e) := by
  rw [entry] at hentry
  cases hlocate : d.locate .entry path with
  | error error =>
      rw [hlocate] at hentry
      cases hentry
  | ok spot =>
      rw [hlocate] at hentry
      cases spot with
      | vacant directory name => cases hentry
      | found place found =>
          obtain rfl : found = e := Except.ok.inj hentry
          exact ⟨place, rfl⟩

/-- An entry that a path leads to is at a place. -/
theorem exists_at?_of_entry {e : Entry} (hentry : d.entry path = .ok e) :
    ∃ place, d.root.at? place = some e := by
  obtain ⟨place, hlocate⟩ := exists_locate_of_entry hentry
  exact ⟨place, (locate_eq_ok_iff.mp hlocate).2.spot_isOn⟩

end Disk

end Cyclomatic
