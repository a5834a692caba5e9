import Cyclomatic.Proofs.Path

/-! # The way back to what is below a directory

A place below a directory has a path, made of the directory's path and the
names on the way. Seen from the directory, that path is the names again.
-/

namespace Cyclomatic.Path

/-- A part that leads down: neither the same directory nor the one above. -/
structure LeadsDown (part : String) : Prop extends IsPart part where
  notUp : part ≠ ".."

instance (part : String) : Decidable (LeadsDown part) :=
  decidable_of_iff (part ≠ "" ∧ '/' ∉ part.toList ∧ part ≠ "." ∧ part ≠ "..")
    ⟨fun ⟨hempty, hslash, hdot, hup⟩ => ⟨⟨⟨hempty, hslash⟩, hdot⟩, hup⟩,
      fun h => ⟨h.nonempty, h.noSlash, h.notDot, h.notUp⟩⟩

/-! ## Paths below a directory -/

/-- The path of a place below a directory. -/
def below (top : String) (place : List String) : String := place.foldl join top

variable {cwd top target path : String} {place : List String}

theorem join_ne_empty {part : String} (htop : top ≠ "") (hpart : IsPart part) :
    join top part ≠ "" := by
  intro hempty
  have hparts := (isChild_join htop hpart).parts
  rw [hempty] at hparts
  simp [parts, components] at hparts

theorem below_ne_empty (htop : top ≠ "") (hplace : ∀ part ∈ place, IsPart part) :
    below top place ≠ "" := by
  induction place generalizing top with
  | nil => exact htop
  | cons part place ih =>
      obtain ⟨hpart, hrest⟩ := List.forall_mem_cons.mp hplace
      exact ih (join_ne_empty htop hpart) hrest

/-- The path of a place below a directory has the parts of the directory and then those of the
place. -/
theorem parts_below (htop : top ≠ "") (hplace : ∀ part ∈ place, IsPart part) :
    parts (below top place) = parts top ++ place := by
  induction place generalizing top with
  | nil => exact (List.append_nil _).symm
  | cons part place ih =>
      obtain ⟨hpart, hrest⟩ := List.forall_mem_cons.mp hplace
      change parts (below (join top part) place) = _
      rw [ih (join_ne_empty htop hpart) hrest, (isChild_join htop hpart).parts, List.append_assoc]
      rfl

/-- The path of a place below a directory has the root of the directory. -/
theorem root_below (htop : top ≠ "") (hplace : ∀ part ∈ place, IsPart part) :
    root (below top place) = root top := by
  induction place generalizing top with
  | nil => rfl
  | cons part place ih =>
      obtain ⟨hpart, hrest⟩ := List.forall_mem_cons.mp hplace
      exact (ih (join_ne_empty htop hpart) hrest).trans (isChild_join htop hpart).root

/-- A path is absolute exactly if it has a root. -/
theorem isAbsolute_iff_root : isAbsolute path = true ↔ root path ≠ "" := by
  rw [isAbsolute, beq_iff_eq]
  unfold root
  cases path.toList with
  | nil => simp
  | cons c cs =>
      by_cases hc : c = '/'
      · subst hc
        refine iff_of_true rfl ?_
        rw [List.takeWhile_cons_of_pos (by simp), List.length_cons]
        split <;> simp_all
      · simp [hc]

theorem isAbsolute_eq_of_root {other : String} (hroot : root path = root other) :
    isAbsolute path = isAbsolute other := by
  rw [Bool.eq_iff_iff, isAbsolute_iff_root, isAbsolute_iff_root, hroot]

/-! ## Normal paths -/

/-- The names of a normal absolute path. -/
def ascent (path : String) : List String := ((parts path).foldl (normalStep true) []).reverse

/-- Empty components and single dots do not matter for the normal form of a path. -/
theorem foldl_normalStep_filter (rooted : Bool) (acc cs : List String) :
    cs.foldl (normalStep rooted) acc =
      (cs.filter fun part => !part.isEmpty && part ≠ ".").foldl (normalStep rooted) acc := by
  induction cs generalizing acc with
  | nil => rfl
  | cons c cs ih =>
      rw [List.foldl_cons, ih]
      by_cases hc : c = "" ∨ c = "."
      · have hskip : normalStep rooted acc c = acc := by simp [normalStep, hc]
        rw [hskip, List.filter_cons_of_neg (by rcases hc with rfl | rfl <;> decide)]
      · obtain ⟨hempty, hdot⟩ := not_or.mp hc
        rw [List.filter_cons_of_pos (by simp [hempty, hdot]), List.foldl_cons]

/-- A step towards the normal form of a path leaves nothing but names. -/
theorem isName_normalStep {rooted : Bool} {acc : List String} {part : String}
    (hacc : ∀ name ∈ acc, IsName name) (hpart : IsName part) :
    ∀ name ∈ normalStep rooted acc part, IsName name := by
  have hup : IsName ".." := ⟨by decide, by decide⟩
  unfold normalStep
  split
  · exact hacc
  · split
    · cases acc with
      | nil => cases rooted <;> simp [hup]
      | cons first rest =>
          obtain ⟨hfirst, hrest⟩ := List.forall_mem_cons.mp hacc
          dsimp only
          split
          · exact List.forall_mem_cons.mpr ⟨hup, hacc⟩
          · exact hrest
    · exact List.forall_mem_cons.mpr ⟨hpart, hacc⟩

theorem isName_foldl_normalStep {rooted : Bool} {ps acc : List String}
    (hacc : ∀ name ∈ acc, IsName name) (hps : ∀ p ∈ ps, IsName p) :
    ∀ name ∈ ps.foldl (normalStep rooted) acc, IsName name := by
  induction ps generalizing acc with
  | nil => exact hacc
  | cons p ps ih =>
      obtain ⟨hp, hrest⟩ := List.forall_mem_cons.mp hps
      exact ih (isName_normalStep hacc hp) hrest

/-- The names of a normal path that starts at the root. -/
theorem names_normal (hpath : isAbsolute path = true) : names (normal path) = ascent path := by
  have hroot : root path ≠ "" := isAbsolute_iff_root.mp hpath
  have hstart : (root path).isEmpty = false := by simpa [← Bool.not_eq_true] using hroot
  have hnames : ∀ n ∈ ascent path, IsName n := by
    intro n hn
    exact isName_foldl_normalStep (by simp) (fun p hp => (isPart_of_mem_parts hp).toIsName) n
      (List.mem_reverse.mp hn)
  have htext : (root path ++ joinSlash (ascent path)).isEmpty = false := by
    rw [← Bool.not_eq_true, String.isEmpty_iff]
    simp [hroot]
  have hnormal : normal path = rooted (root path) (ascent path) := by
    rw [normal, hstart, Bool.not_false, foldl_normalStep_filter]
    rfl
  rw [hnormal, rooted, htext, if_neg Bool.false_ne_true, names,
    filter_components_root_append rfl]
  refine filter_components_joinSlash rfl fun n hn => ⟨(hnames n hn).noSlash, ?_⟩
  simp [(hnames n hn).nonempty]

/-! ## The way from a directory -/

theorem isAbsolute_join (hcwd : isAbsolute cwd = true) (path : String) :
    isAbsolute (join cwd path) = true := by
  have hne : cwd ≠ "" := by
    rintro rfl
    cases hcwd
  cases hpath : isAbsolute path with
  | true => rw [join, hpath, Bool.true_or, if_pos rfl, hpath]
  | false =>
      rcases join_cases hne hpath with ⟨above, rfl, hjoin⟩ | ⟨-, hjoin⟩
      · rw [hjoin, isAbsolute_append hne, hcwd]
      · rw [hjoin, String.append_assoc, isAbsolute_append hne, hcwd]

/-- The names of an absolute path, seen from a working directory. -/
theorem names_absolute (hcwd : isAbsolute cwd = true) (path : String) :
    names (absolute cwd path) = ascent (if isAbsolute path then path else join cwd path) := by
  refine names_normal ?_
  split
  next hpath => exact hpath
  next => exact isAbsolute_join hcwd path

/-- Parts that lead down are added one by one, in reverse. -/
theorem foldl_normalStep_of_leadsDown (hplace : ∀ part ∈ place, LeadsDown part)
    (acc : List String) : place.foldl (normalStep true) acc = place.reverse ++ acc := by
  induction place generalizing acc with
  | nil => rfl
  | cons part place ih =>
      obtain ⟨hpart, hrest⟩ := List.forall_mem_cons.mp hplace
      have hstep : normalStep true acc part = part :: acc := by
        simp [normalStep, hpart.nonempty, hpart.notDot, hpart.notUp]
      rw [List.foldl_cons, hstep, ih hrest, List.reverse_cons, List.append_assoc]
      rfl

/-- The normal form of a path below another is that of the other, with the place behind it. -/
theorem ascent_of_parts {below : String} (hplace : ∀ part ∈ place, LeadsDown part)
    (hparts : parts below = parts path ++ place) : ascent below = ascent path ++ place := by
  rw [ascent, hparts, List.foldl_append, foldl_normalStep_of_leadsDown hplace, List.reverse_append,
    List.reverse_reverse]
  rfl

/-- Of a path and one below it, what is common is the first path. -/
theorem dropCommon_append (xs ys : List String) : dropCommon xs (xs ++ ys) = ([], ys) := by
  induction xs with
  | nil => cases ys <;> rfl
  | cons x xs ih => rw [List.cons_append, dropCommon, if_pos rfl, ih]

/-- Seen from a directory, what is below it is the names on the way. -/
theorem relative?_below (hcwd : isAbsolute cwd = true) (target : String) (hne : place ≠ [])
    (hplace : ∀ part ∈ place, LeadsDown part) :
    relative? cwd (below (tidy target) place) target = some (joinSlash place) := by
  have hparts : ∀ part ∈ place, IsPart part := fun part hpart => (hplace part hpart).toIsPart
  have htop := tidy_ne_empty target
  have hroot : root (below (tidy target) place) = root target :=
    (root_below htop hparts).trans (root_tidy target)
  have hbelow : parts (below (tidy target) place) = parts target ++ place := by
    rw [parts_below htop hparts, parts_tidy]
  have hempty : (below (tidy target) place).isEmpty = false := by
    rw [← Bool.not_eq_true, String.isEmpty_iff]
    exact below_ne_empty htop hparts
  have hnames : names (absolute cwd (below (tidy target) place)) =
      names (absolute cwd target) ++ place := by
    rw [names_absolute hcwd, names_absolute hcwd, isAbsolute_eq_of_root hroot]
    refine ascent_of_parts hplace ?_
    split
    next => exact hbelow
    next hrelative =>
      have hcwd' : cwd ≠ "" := by
        rintro rfl
        cases hcwd
      have htarget : isAbsolute target = false := Bool.not_eq_true _ ▸ hrelative
      rw [parts_join hcwd' htarget, parts_join hcwd' ((isAbsolute_eq_of_root hroot).trans htarget),
        hbelow, List.append_assoc]
  rw [relative?, hempty, if_neg Bool.false_ne_true, hnames]
  simp only [dropCommon_append]
  simp [hne]

/-- The parts of a place are read back from the text of its path. -/
theorem rootedParts_joinSlash (hplace : ∀ part ∈ place, IsPart part) :
    rootedParts (joinSlash place) = place := by
  have hroot : root (joinSlash place) = "" := by
    have habsolute := isAbsolute_joinSlash hplace
    by_cases hroot : root (joinSlash place) = ""
    · exact hroot
    · rw [isAbsolute_iff_root.mpr hroot] at habsolute
      cases habsolute
  rw [rootedParts, hroot, parts_joinSlash hplace]
  rfl

end Cyclomatic.Path
