import Cyclomatic.Path

/-! # Tidy paths

The parts of a path are what is left between slashes. A tidy path has the same
parts and the same root, and one part further down is a child: its parent is
the tidy path and its name is the part.
-/

namespace Cyclomatic

/-- What an entry of a directory may be called. -/
structure IsName (name : String) : Prop where
  nonempty : name ≠ ""
  noSlash : '/' ∉ name.toList

namespace Path

/-- A name that counts as a part of a path. -/
structure IsPart (part : String) : Prop extends IsName part where
  notDot : part ≠ "."

theorem isAbsolute_of_isName {name : String} (hname : IsName name) : isAbsolute name = false := by
  rw [isAbsolute, beq_eq_false_iff_ne]
  intro hhead
  exact hname.noSlash (List.mem_of_mem_head? hhead)

/-! ## Parts -/

/-- What stands between two slashes holds none. -/
theorem not_mem_of_mem_splitOn {chars part : List Char} (hpart : part ∈ chars.splitOn '/') :
    '/' ∉ part := by
  induction chars generalizing part with
  | nil =>
      obtain rfl : part = [] := by simpa using hpart
      exact List.not_mem_nil
  | cons c chars ih =>
      rw [List.splitOn_cons_eq_if_modifyHead] at hpart
      split at hpart
      next hslash =>
        rcases List.mem_cons.mp hpart with rfl | hpart
        · exact List.not_mem_nil
        · exact ih hpart
      next hslash =>
        cases hsplit : chars.splitOn '/' with
        | nil => simp [hsplit] at hpart
        | cons first rest =>
            rw [hsplit] at ih hpart
            rcases List.mem_cons.mp hpart with rfl | hpart
            · have hfirst : '/' ∉ first := ih List.mem_cons_self
              have hc : '/' ≠ c := fun heq => hslash (beq_iff_eq.mpr heq.symm)
              simp [hfirst, hc]
            · exact ih (List.mem_cons_of_mem first hpart)

theorem subset_of_mem_splitOn {chars part : List Char} (hpart : part ∈ chars.splitOn '/') :
    part ⊆ chars := by
  have hjoined : ['/'].intercalate (chars.splitOn '/') = chars := List.intercalate_splitOn '/'
  generalize chars.splitOn '/' = parts at hpart hjoined
  subst hjoined
  induction parts with
  | nil => cases hpart
  | cons first rest ih =>
      cases rest with
      | nil =>
          rw [List.mem_singleton.mp hpart, List.intercalate_singleton]
          exact List.Subset.refl _
      | cons second rest =>
          rw [List.intercalate_cons_cons]
          rcases List.mem_cons.mp hpart with rfl | hpart
          · simp
          · exact List.Subset.trans (ih hpart) (by simp)

/-- The last component of a path is its base name. -/
theorem exists_components (path : String) :
    ∃ before, components path = before ++ [basename path] := by
  have hne : components path ≠ [] := by simp [components]
  refine ⟨(components path).dropLast, ?_⟩
  rw [basename, List.getLast?_eq_some_getLast hne]
  exact (List.dropLast_concat_getLast hne).symm

theorem basename_subset (path : String) : (basename path).toList ⊆ path.toList := by
  obtain ⟨before, hcomponents⟩ := exists_components path
  have hmem : basename path ∈ components path := by simp [hcomponents]
  obtain ⟨part, hpart, heq⟩ := List.mem_map.mp hmem
  rw [← heq, String.toList_ofList]
  exact subset_of_mem_splitOn hpart

/-- A slash separates the components above it from those below it. -/
theorem components_append_slash (above below : String) :
    components (above ++ "/" ++ below) = components above ++ components below := by
  have hchars : (above ++ "/" ++ below).toList = above.toList ++ '/' :: below.toList := by simp
  rw [components, hchars, List.splitOn_append_cons_self, List.map_append]
  rfl

/-- Components that are no empty ones are kept by a path that is made of them. -/
theorem filter_components_joinSlash {keep : String → Bool} (hempty : keep "" = false)
    {ns : List String} (hns : ∀ n ∈ ns, '/' ∉ n.toList ∧ keep n = true) :
    (components (joinSlash ns)).filter keep = ns := by
  induction ns with
  | nil => simp [joinSlash, components, hempty]
  | cons n ns ih =>
      obtain ⟨⟨hslash, hkeep⟩, hrest⟩ := List.forall_mem_cons.mp hns
      have hself : (components n).filter keep = [n] := by
        rw [components, List.splitOn_eq_singleton hslash]
        simp [hkeep]
      cases ns with
      | nil => rw [joinSlash, String.intercalate_singleton, hself]
      | cons m ns =>
          rw [joinSlash, String.intercalate_cons_cons, components_append_slash, List.filter_append,
            hself]
          exact congrArg (n :: ·) (ih hrest)

/-- The parts of a path that was put together are the parts of both pieces. -/
theorem parts_append_slash (above below : String) :
    parts (above ++ "/" ++ below) = parts above ++ parts below := by
  rw [parts, components_append_slash, List.filter_append]
  rfl

/-- A part is a path of that single part. -/
theorem parts_of_isPart {part : String} (hpart : IsPart part) : parts part = [part] := by
  rw [parts, components, List.splitOn_eq_singleton hpart.noSlash]
  simp [hpart.nonempty, hpart.notDot]

theorem isPart_of_mem_parts {path part : String} (hpart : part ∈ parts path) : IsPart part := by
  obtain ⟨hcomponent, hcounts⟩ := List.mem_filter.mp hpart
  obtain ⟨chars, hchars, rfl⟩ := List.mem_map.mp hcomponent
  simp only [Bool.and_eq_true, Bool.not_eq_true', decide_eq_true_eq] at hcounts
  refine ⟨⟨?_, ?_⟩, hcounts.2⟩
  · rintro hempty
    simp [hempty] at hcounts
  · rw [String.toList_ofList]
    exact not_mem_of_mem_splitOn hchars

/-- Parts that are joined by slashes can be told apart again. -/
theorem parts_joinSlash {ps : List String} (hps : ∀ p ∈ ps, IsPart p) :
    parts (joinSlash ps) = ps := by
  refine filter_components_joinSlash rfl fun p hp => ⟨(hps p hp).noSlash, ?_⟩
  simp [(hps p hp).nonempty, (hps p hp).notDot]

/-! ## The root -/

/-- What comes behind a path that does not start with a slash has no say in the root. -/
theorem root_append_of_not_absolute {below : String} (hbelow : isAbsolute below = false)
    (above : String) : root (above ++ below) = root above := by
  have hnone : below.toList.takeWhile (· = '/') = [] := by
    rw [isAbsolute, beq_eq_false_iff_ne] at hbelow
    cases hchars : below.toList with
    | nil => rfl
    | cons c cs =>
        rw [hchars] at hbelow
        refine List.takeWhile_cons_of_neg ?_
        simpa using hbelow
  have htake : (above ++ below).toList.takeWhile (· = '/') =
      above.toList.takeWhile (· = '/') := by
    rw [String.toList_append, List.takeWhile_append, hnone, List.append_nil]
    split
    next hlength => exact ((List.takeWhile_prefix _).eq_of_length hlength).symm
    next => rfl
  rw [root, htake]
  rfl

/-- Behind a name nothing has a say in the root. -/
theorem root_append_of_mem {above : String} {c : Char} (hmem : c ∈ above.toList) (hc : c ≠ '/')
    (below : String) : root (above ++ below) = root above := by
  have htake : (above ++ below).toList.takeWhile (· = '/') =
      above.toList.takeWhile (· = '/') := by
    rw [String.toList_append, List.takeWhile_append, if_neg]
    intro hlength
    rw [← (List.takeWhile_prefix _).eq_of_length hlength] at hmem
    exact hc (by simpa using List.all_eq_true.mp List.all_takeWhile c hmem)
  rw [root, htake]
  rfl

/-- A path starts with no slash, with one or with two. More than two count as one. -/
theorem root_cases (path : String) : root path = "" ∨ root path = "/" ∨ root path = "//" := by
  unfold root
  split <;> simp

theorem root_root (path : String) : root (root path) = root path := by
  rcases root_cases path with hroot | hroot | hroot <;> rw [hroot] <;> decide

/-- The root of a path adds no component but empty ones. -/
theorem filter_components_root_append {keep : String → Bool} (hempty : keep "" = false)
    (path below : String) :
    (components (root path ++ below)).filter keep = (components below).filter keep := by
  have hslash (text : String) :
      (components ("/" ++ text)).filter keep = (components text).filter keep := by
    have hsplit := components_append_slash "" text
    rw [String.empty_append] at hsplit
    rw [hsplit, List.filter_append]
    simp [components, hempty]
  rcases root_cases path with hroot | hroot | hroot
  · rw [hroot, String.empty_append]
  · rw [hroot, hslash]
  · have htwo : root path ++ below = "/" ++ ("/" ++ below) := by
      rw [hroot, ← String.append_assoc]
      rfl
    rw [htwo, hslash, hslash]

theorem parts_root_append (path below : String) : parts (root path ++ below) = parts below :=
  filter_components_root_append rfl path below

/-! ## Tidy paths -/

/-- Whether a path is absolute is told by its start. -/
theorem isAbsolute_append {above : String} (habove : above ≠ "") (below : String) :
    isAbsolute (above ++ below) = isAbsolute above := by
  have hchars : above.toList ≠ [] := by rwa [ne_eq, String.toList_eq_nil_iff]
  obtain ⟨c, cs, hcons⟩ := List.exists_cons_of_ne_nil hchars
  rw [isAbsolute, isAbsolute, String.toList_append, hcons]
  rfl

theorem isAbsolute_joinSlash {ps : List String} (hps : ∀ p ∈ ps, IsPart p) :
    isAbsolute (joinSlash ps) = false := by
  cases ps with
  | nil => rfl
  | cons p ps =>
      have hp := (hps p List.mem_cons_self).toIsName
      cases ps with
      | nil =>
          rw [joinSlash, String.intercalate_singleton]
          exact isAbsolute_of_isName hp
      | cons q ps =>
          rw [joinSlash, String.intercalate_cons_cons, String.append_assoc,
            isAbsolute_append hp.nonempty, isAbsolute_of_isName hp]

/-- A root with parts below it, as text. -/
def rooted (start : String) (ps : List String) : String :=
  let text := start ++ joinSlash ps
  if text.isEmpty then "." else text

/-- A root in front leaves the parts as they are. -/
theorem parts_rooted (path : String) {ps : List String} (hps : ∀ p ∈ ps, IsPart p) :
    parts (rooted (root path) ps) = ps := by
  rw [rooted]
  have hparts : parts (root path ++ joinSlash ps) = ps := by
    rw [parts_root_append, parts_joinSlash hps]
  split
  next hempty =>
    rw [String.isEmpty_iff.mp hempty] at hparts
    exact hparts
  next => exact hparts

/-- Parts behind a root leave the root as it is. -/
theorem root_rooted (path : String) {ps : List String} (hps : ∀ p ∈ ps, IsPart p) :
    root (rooted (root path) ps) = root path := by
  rw [rooted]
  have hroot : root (root path ++ joinSlash ps) = root path := by
    rw [root_append_of_not_absolute (isAbsolute_joinSlash hps), root_root]
  split
  next hempty =>
    rw [String.isEmpty_iff.mp hempty] at hroot
    exact hroot
  next => exact hroot

theorem tidy_eq (path : String) : tidy path = rooted (root path) (parts path) := rfl

theorem parent_eq (path : String) : parent path = rooted (root path) (parts path).dropLast := rfl

/-- A tidy path has the same parts. -/
theorem parts_tidy (path : String) : parts (tidy path) = parts path :=
  parts_rooted path fun _ => isPart_of_mem_parts

/-- A tidy path has the same root. -/
theorem root_tidy (path : String) : root (tidy path) = root path :=
  root_rooted path fun _ => isPart_of_mem_parts

/-- A tidy path is never empty. Where nothing is left there is a dot. -/
theorem tidy_ne_empty (path : String) : tidy path ≠ "" := by
  rw [tidy_eq, rooted]
  split
  next => decide
  next htext => simpa [String.isEmpty_iff] using htext

/-- A path one part further down from a directory. -/
structure IsChild (directory part path : String) : Prop where
  parts : parts path = parts directory ++ [part]
  root : root path = root directory

theorem IsChild.tidy {directory part path : String} (hchild : IsChild directory part path) :
    IsChild directory part (tidy path) :=
  ⟨(parts_tidy path).trans hchild.parts, (root_tidy path).trans hchild.root⟩

theorem IsChild.of_tidy {directory part path : String}
    (hchild : IsChild (Path.tidy directory) part path) : IsChild directory part path :=
  ⟨hchild.parts.trans (congrArg (· ++ [part]) (parts_tidy directory)),
    hchild.root.trans (root_tidy directory)⟩

/-- The parent of a child is the directory, in its tidy form. -/
theorem IsChild.parent {directory part path : String} (hchild : IsChild directory part path) :
    parent path = Path.tidy directory := by
  rw [parent_eq, hchild.parts, hchild.root, List.dropLast_concat, tidy_eq]

/-- The name of a child is the part that it adds. -/
theorem IsChild.name {directory part path : String} (hchild : IsChild directory part path) :
    name path = part := by
  rw [Path.name, hchild.parts, List.getLast?_concat]
  rfl

/-- A path that is not absolute goes on where a directory ends. -/
theorem join_cases {directory path : String} (hdirectory : directory ≠ "")
    (hpath : isAbsolute path = false) :
    (∃ above, directory = above ++ "/" ∧ join directory path = above ++ "/" ++ path) ∨
      (∃ c ∈ directory.toList, c ≠ '/') ∧ join directory path = directory ++ "/" ++ path := by
  have hempty : directory.isEmpty = false := by simpa [← Bool.not_eq_true] using hdirectory
  rw [join, hpath, hempty, Bool.or_false, if_neg Bool.false_ne_true]
  by_cases hlast : directory.toList.getLast? = some '/'
  · obtain ⟨chars, hchars⟩ := List.getLast?_eq_some_iff.mp hlast
    have hsplit : directory = String.ofList chars ++ "/" := by
      rw [← String.toList_inj, hchars]
      simp
    exact .inl ⟨String.ofList chars, hsplit, by rw [if_pos (beq_iff_eq.mpr hlast), ← hsplit]⟩
  · have hchars : directory.toList ≠ [] := by rwa [ne_eq, String.toList_eq_nil_iff]
    rw [if_neg (by simpa using hlast)]
    rw [List.getLast?_eq_some_getLast hchars] at hlast
    exact .inr ⟨⟨_, List.getLast_mem hchars, fun heq => hlast (congrArg some heq)⟩, rfl⟩

/-- A relative path is joined to a directory part by part. -/
theorem parts_join {directory path : String} (hdirectory : directory ≠ "")
    (hpath : isAbsolute path = false) :
    parts (join directory path) = parts directory ++ parts path := by
  rcases join_cases hdirectory hpath with ⟨above, rfl, hjoin⟩ | ⟨-, hjoin⟩
  · -- There is no part behind the slash.
    have habove := parts_append_slash above ""
    rw [String.append_empty] at habove
    rw [hjoin, parts_append_slash, habove]
    simp [parts, components]
  · rw [hjoin, parts_append_slash]

/-- To join a part to a directory gives a child of the directory. -/
theorem isChild_join {directory part : String} (hdirectory : directory ≠ "")
    (hpart : IsPart part) : IsChild directory part (join directory part) := by
  have habsolute := isAbsolute_of_isName hpart.toIsName
  refine ⟨by rw [parts_join hdirectory habsolute, parts_of_isPart hpart], ?_⟩
  rcases join_cases hdirectory habsolute with ⟨above, rfl, hjoin⟩ | ⟨⟨c, hmem, hc⟩, hjoin⟩
  · rw [hjoin, root_append_of_not_absolute habsolute]
  · rw [hjoin, String.append_assoc, root_append_of_mem hmem hc]

/-- A child is named by joining its name to the tidy directory. The current directory is left
out. -/
theorem child_eq {part : String} (hpart : IsName part) (directory : String) :
    child directory part =
      tidy (if tidy directory = "." then part else join (tidy directory) part) := by
  rw [child, isAbsolute_of_isName hpart, if_neg Bool.false_ne_true]

/-- A child is one part further down. -/
theorem isChild_child {part : String} (hpart : IsPart part) (directory : String) :
    IsChild directory part (child directory part) := by
  rw [child_eq hpart.toIsName]
  refine IsChild.tidy (IsChild.of_tidy ?_)
  by_cases hdot : Path.tidy directory = "."
  · rw [if_pos hdot, hdot]
    refine ⟨parts_of_isPart hpart, ?_⟩
    have hroot := root_append_of_not_absolute (isAbsolute_of_isName hpart.toIsName) ""
    rw [String.empty_append] at hroot
    exact hroot
  · rw [if_neg hdot]
    exact isChild_join (tidy_ne_empty directory) hpart

end Path

end Cyclomatic
