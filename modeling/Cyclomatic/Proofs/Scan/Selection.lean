import Cyclomatic.Proofs.Scan.Traversal

/-! # Which files are discovered

Below a directory without links, the files are discovered that are small enough
source files and that are not ignored, nor any directory on the way to them. A
pattern for whole directories applies at every depth.
-/

namespace Cyclomatic

/-! ## Numbers in order -/

namespace Num

/-- Numbers compare the other way round if they are exchanged. -/
theorem compare?_swap (a b : Num) : b.compare? a = (a.compare? b).map Ordering.swap := by
  unfold compare?
  cases a.point? with
  | none => cases b.point? <;> rfl
  | some p =>
      cases b.point? with
      | none => rfl
      | some q =>
          cases p with
          | below => cases q <;> rfl
          | above => cases q <;> rfl
          | «at» n d =>
              cases q with
              | below => rfl
              | above => rfl
              | «at» n' d' => exact congrArg some (Int.compare_swap _ _).symm

theorem exists_point {a : Num} (ha : a ≠ .real .nan) : ∃ p, a.point? = some p := by
  cases a with
  | int i => exact ⟨_, rfl⟩
  | real x =>
      cases x with
      | finite negative significand exponent => exact ⟨_, rfl⟩
      | infinite negative => exact ⟨_, rfl⟩
      | nan => exact absurd rfl ha

/-- All numbers can be compared but the one that is none. -/
theorem exists_compare {a b : Num} (ha : a ≠ .real .nan) (hb : b ≠ .real .nan) :
    ∃ order, a.compare? b = some order := by
  obtain ⟨p, hp⟩ := exists_point ha
  obtain ⟨q, hq⟩ := exists_point hb
  rw [compare?, hp, hq]
  cases p <;> cases q <;> exact ⟨_, rfl⟩

/-- One of two numbers is less, or else the other is at most it. -/
theorem lt_eq_not_le {a b : Num} (ha : a ≠ .real .nan) (hb : b ≠ .real .nan) :
    b.lt a = !a.le b := by
  obtain ⟨order, horder⟩ := exists_compare ha hb
  rw [lt, le, compare?_swap, horder]
  cases order <;> rfl

end Num

namespace Scan

/-! ## Patterns -/

/-- Patterns that are all texts are tried one by one, and no test fails. -/
theorem anyPattern_texts (test : String → Bool) (patterns : List String) :
    anyPattern test (patterns.map .text) = .ok (patterns.any test) := by
  induction patterns with
  | nil => rfl
  | cons pattern patterns ih =>
      rw [List.map_cons, anyPattern, ih]
      cases htest : test pattern <;>
        simp [Value.asPath, htest, bind, Except.bind, pure, Except.pure]

theorem directoryPattern?_append (pattern : String) :
    directoryPattern? (pattern ++ "/**") = some pattern := by
  have hends : (pattern ++ "/**").endsWith "/**" = true := by
    rw [← String.endsWith_toSlice, String.Slice.endsWith_string_iff]
    simp
  have hchars : (pattern ++ "/**").toList = pattern.toList ++ ['/', '*'] ++ ['*'] := by simp
  rw [directoryPattern?, hends, if_pos rfl, hchars]
  simp

variable {settings : ScanSettings} {d : Disk} {path target : String}
  {patterns included : List String}

/-- The patterns that a value gives: texts, or none at all. -/
inductive Patterns : Value → List String → Prop
  | null : Patterns .null []
  | texts (patterns : List String) : Patterns (.texts patterns) patterns

/-- Every path but the empty one can be matched against patterns. -/
theorem exists_subject {cwd : String} (hpath : path ≠ "") :
    ∃ subject, Subject.of cwd path target = .ok subject := by
  have hempty : path.isEmpty = false := by simpa [← Bool.not_eq_true] using hpath
  rw [Subject.of, Path.relative?, hempty, if_neg Bool.false_ne_true]
  exact ⟨_, rfl⟩

/-- A path is ignored if a pattern for that applies, or if it leads to a file and there are
patterns for what to include, none of which fits. -/
theorem ignores_eq (hignored : settings.ignored = .texts patterns)
    (hincluded : Patterns settings.included included) {subject : Subject}
    (hsubject : Subject.of d.cwd path target = .ok subject) :
    ignores settings d path target =
      .ok (patterns.any subject.ignoredBy ||
        (!included.isEmpty && d.isFile path && !included.any subject.fits)) := by
  have hiterate : ∀ ps, (Value.texts ps).iterate = .ok (ps.map .text) := fun _ => rfl
  rw [ignores, hsubject, hignored, hiterate]
  simp only [bind, Except.bind, anyPattern_texts]
  cases patterns.any subject.ignoredBy with
  | true => rfl
  | false =>
      generalize settings.included = v at hincluded ⊢
      cases hincluded with
      | null => rfl
      | texts =>
          have htruthy : (Value.texts included).truthy = !included.isEmpty := by
            cases included <;> rfl
          rw [hiterate, htruthy]
          simp only [anyPattern_texts]
          cases !included.isEmpty && d.isFile path <;> rfl

/-- What is not ignored matches none of the patterns to ignore. -/
theorem not_ignoredBy (hignored : settings.ignored = .texts patterns)
    (hincluded : Patterns settings.included included) {subject : Subject}
    (hsubject : Subject.of d.cwd path target = .ok subject)
    (hignores : ignores settings d path target = .ok false) :
    ∀ pattern ∈ patterns, subject.ignoredBy pattern = false := by
  rw [ignores_eq hignored hincluded hsubject, Except.ok.injEq, Bool.or_eq_false_iff] at hignores
  exact fun pattern hpattern => by simpa using List.any_eq_false.mp hignores.1 pattern hpattern

/-- What is below a target, as patterns see it. -/
theorem subject_below {cwd : String} {place : List String} (hcwd : Path.isAbsolute cwd = true)
    (target : String) (hne : place ≠ []) (hplace : ∀ part ∈ place, Path.LeadsDown part) :
    Subject.of cwd (Path.below (Path.tidy target) place) target =
      .ok ⟨Path.joinSlash place, Path.basename (Path.below (Path.tidy target) place), place⟩ := by
  have hparts := Path.rootedParts_joinSlash fun part hpart => (hplace part hpart).toIsPart
  rw [Subject.of, Path.relative?_below hcwd target hne hplace]
  dsimp only
  rw [hparts]

/-- No name on the way to what is taken fits the directory of an ignore pattern. -/
theorem not_fits_of_taken {place : List String} {pattern : String}
    (hcwd : Path.isAbsolute d.cwd = true) (hignored : settings.ignored = .texts patterns)
    (hincluded : Patterns settings.included included) (hpattern : pattern ++ "/**" ∈ patterns)
    (hne : place ≠ []) (hplace : ∀ part ∈ place, Path.LeadsDown part)
    (hignores : ignores settings d (Path.below (Path.tidy target) place) target = .ok false) :
    ∀ part ∈ place, Glob.fits pattern part = false := by
  have hsubject := subject_below hcwd target hne hplace
  have hnot := not_ignoredBy hignored hincluded hsubject hignores _ hpattern
  rw [Subject.ignoredBy, directoryPattern?_append, Bool.or_eq_false_iff] at hnot
  exact fun part hpart => by simpa using List.any_eq_false.mp hnot.2 part hpart

/-! ## What is discovered -/

/-- A file is small enough if its length in bytes is at most the limit. -/
theorem measured_file {t : Tour} {limit : Num}
    (hlimit : t.settings.maxFileSize.number? = some limit) (hnan : limit ≠ .real .nan)
    (path : String) (content : Bytes) :
    (t.measured path (.file content)).result = .ok ((Num.int content.length).le limit) := by
  have hcompare : (Value.nat content.length).compare .greater t.settings.maxFileSize =
      .ok (!(Num.int content.length).le limit) := by
    rw [← Num.lt_eq_not_le (by simp) hnan]
    cases hmax : t.settings.maxFileSize <;> rw [hmax] at hlimit <;> cases hlimit <;> rfl
  rw [Tour.measured, Tour.size]
  dsimp only
  rw [hcompare]
  cases (Num.int content.length).le limit <;> rfl

/-- To discover the files in a directory is to walk it. -/
theorem discover_of_directory {es : List (String × Entry)}
    (htarget : d.entry (Path.tidy target) = .ok (.directory es)) :
    (discover settings d target).result =
      (Tour.under ⟨settings, d, target⟩ (Path.tidy target) (.directory es)).result := by
  have hprobe : d.probe (Path.tidy target) = .ok (some (.directory es)) := by
    rw [Disk.probe, htarget]
  unfold discover
  generalize Path.tidy target = path at hprobe ⊢
  dsimp only
  rw [hprobe]
  rfl

/-- Below a directory without links exactly the small source files are found that are not
ignored, nor any directory on the way to them: each once, the files of a directory before those of
its subdirectories, both in the order of their names. A pattern for whole directories keeps out
what is below a name that it fits, however deep. A limit that is not a number is left aside: no
size is greater than it, so that no file is too large, and yet none is at most as large. -/
theorem discovery_exact {es : List (String × Entry)} {limit : Num}
    (hcwd : Path.isAbsolute d.cwd = true)
    (htarget : d.entry (Path.tidy target) = .ok (.directory es))
    (hplain : (Entry.directory es).Plain)
    (hignored : settings.ignored = .texts patterns)
    (hincluded : Patterns settings.included included)
    (hlimit : settings.maxFileSize.number? = some limit) (hnan : limit ≠ .real .nan) :
    ∃ places : List (List String),
      (discover settings d target).result =
        .ok (places.map (Path.below (Path.tidy target))) ∧
      (places.map (Path.below (Path.tidy target))).Nodup ∧
      (∀ place, place ∈ places ↔ Tour.Finds
        (fun path => ignores settings d path target = .ok false)
        (fun content => (Num.int content.length).le limit = true)
        (Path.tidy target) (.directory es) place) ∧
      places.Pairwise Earlier ∧
      ∀ pattern, pattern ++ "/**" ∈ patterns →
        ∀ place ∈ places, ∀ part ∈ place, Glob.fits pattern part = false := by
  have htop := Path.tidy_ne_empty target
  have hdecides : ∀ path, ∃ ignored, path ≠ "" →
      ignores settings d path target = .ok ignored := by
    intro path
    by_cases hpath : path = ""
    · exact ⟨false, fun hne => absurd hpath hne⟩
    · obtain ⟨subject, hsubject⟩ := exists_subject hpath
      exact ⟨_, fun _ => ignores_eq hignored hincluded hsubject⟩
  choose skips hskips using hdecides
  have ht : Tour.Decides ⟨settings, d, target⟩ skips
      (fun content => (Num.int content.length).le limit) :=
    ⟨fun {path} hpath => hskips path hpath, measured_file hlimit hnan⟩
  obtain ⟨places, hresult, hordered, hfinds⟩ := ht.exists_places hplain rfl htop
  have hdiscover := (discover_of_directory htarget).trans hresult
  have hselected : ∀ place, place ∈ places ↔ Tour.Finds
      (fun path => ignores settings d path target = .ok false)
      (fun content => (Num.int content.length).le limit = true)
      (Path.tidy target) (.directory es) place := by
    intro place
    rw [hfinds]
    refine Tour.finds_congr hplain htop fun path hpath => ?_
    rw [hskips path hpath, Except.ok.injEq]
  refine ⟨places, hdiscover, (Tour.spread_under hplain.proper hresult).nodup, hselected, hordered,
    fun pattern hpattern place hplace => ?_⟩
  have hfound := (hselected place).mp hplace
  obtain ⟨content, hfile, _⟩ := hfound.file
  have hne := hfound.ne_nil rfl
  exact not_fits_of_taken hcwd hignored hincluded hpattern hne (hplain.leadsDown hfile)
    (hfound.taken place hne (List.prefix_refl place))

/-- A directory with ignored directories at two depths, and files that are too large or of no
known kind. -/
def assorted : List (String × Entry) :=
  [("z.ts", .file [1]),
   ("src", .directory
     [("node_modules", .directory [("d.ts", .file [])]), ("e.ts", .file [1, 2])]),
   ("large.ts", .file [1, 2, 3, 4]),
   ("node_modules", .directory [("c.ts", .file [1])]),
   ("notes.txt", .file [1])]

def assortedOnDisk : Disk := { root := .directory [("p", .directory assorted)] }

def onlySmallTyped : ScanSettings :=
  { ignored := .texts ["node_modules/**"], included := .texts ["*.ts"], maxFileSize := .int 3 }

theorem plain_assorted : (Entry.directory assorted).Plain := by
  refine .directory (by decide) (by decide) ?_
  simp only [assorted, List.forall_mem_cons]
  refine ⟨.file _, .directory (by decide) (by decide) ?_, .file _,
    .directory (by decide) (by decide) ?_, .file _, by simp⟩
  · simp only [List.forall_mem_cons]
    refine ⟨.directory (by decide) (by decide) ?_, .file _, by simp⟩
    exact List.forall_mem_singleton.mpr (.file _)
  · exact List.forall_mem_singleton.mpr (.file _)

theorem entry_assorted : assortedOnDisk.entry "p" = .ok (.directory assorted) := by
  have hsteps : Disk.steps (Path.join "/" "p") = ["p"] := by decide
  have hlocate : assortedOnDisk.locate .entry "p" = .ok (.found ["p"] (.directory assorted)) :=
    Disk.locate_of_steps ⟨by decide, by decide, by decide⟩ hsteps
      (.into rfl ⟨by decide, by decide, rfl, by decide⟩ rfl (by simp) (.arrived rfl))
  rw [Disk.entry, hlocate]
  rfl

theorem isFile_src : assortedOnDisk.isFile "p/src" = false := by
  have hsteps : Disk.steps (Path.join "/" "p/src") = ["p", "src"] := by decide
  have hlocate : assortedOnDisk.locate .entry "p/src" = .ok (.found ["p", "src"] _) :=
    Disk.locate_of_steps ⟨by decide, by decide, by decide⟩ hsteps
      (.into rfl ⟨by decide, by decide, rfl, by decide⟩ rfl (by simp)
        (.into rfl ⟨by decide, by decide, rfl, by decide⟩ rfl (by simp) (.arrived rfl)))
  rw [Disk.isFile, Disk.entry?, Disk.entry, hlocate]
  rfl

/-- The pattern for what to include fits the file; it has no say in the directory. -/
theorem taken_typed :
    Tour.Taken (fun path => ignores onlySmallTyped assortedOnDisk path "p" = .ok false)
      (Path.tidy "p") ["src", "e.ts"] := by
  have hcwd : Path.isAbsolute assortedOnDisk.cwd = true := by decide
  have htidy : Path.tidy "p" = "p" := by decide
  have hdirectory : ignores onlySmallTyped assortedOnDisk "p/src" "p" = .ok false := by
    have hpath : Path.below (Path.tidy "p") ["src"] = "p/src" := by decide
    have hsubject := subject_below hcwd "p" (List.cons_ne_nil "src" []) (by decide)
    rw [hpath] at hsubject
    rw [ignores_eq rfl (.texts _) hsubject, isFile_src, Bool.and_false, Bool.false_and]
    exact congrArg _ (by decide +kernel)
  have hfile : ignores onlySmallTyped assortedOnDisk "p/src/e.ts" "p" = .ok false := by
    have hpath : Path.below (Path.tidy "p") ["src", "e.ts"] = "p/src/e.ts" := by decide
    have hsubject := subject_below hcwd "p" (List.cons_ne_nil "src" ["e.ts"]) (by decide)
    rw [hpath] at hsubject
    have hfits : ["*.ts"].any (Subject.mk (Path.joinSlash ["src", "e.ts"])
        (Path.basename "p/src/e.ts") ["src", "e.ts"]).fits = true := by decide +kernel
    rw [ignores_eq rfl (.texts _) hsubject, hfits, Bool.not_true, Bool.and_false]
    exact congrArg _ (by decide +kernel)
  rw [htidy]
  exact Tour.taken_cons_iff.mpr ⟨hdirectory, Tour.taken_cons_iff.mpr ⟨hfile, Tour.taken_nil _ _⟩⟩

theorem assorted_discovered :
    ∃ places : List (List String),
      (discover onlySmallTyped assortedOnDisk "p").result =
        .ok (places.map (Path.below (Path.tidy "p"))) ∧
      places.Pairwise Earlier ∧ ["src", "e.ts"] ∈ places ∧
      ["src", "node_modules", "d.ts"] ∉ places ∧ ["large.ts"] ∉ places := by
  have htidy : Path.tidy "p" = "p" := by decide
  obtain ⟨places, hresult, -, hselected, hordered, hpatterns⟩ :=
    discovery_exact (by decide) (htidy.symm ▸ entry_assorted) plain_assorted rfl (.texts _)
      (rfl : onlySmallTyped.maxFileSize.number? = some (.int 3)) (by simp)
  refine ⟨places, hresult, hordered, ?_, fun hmem => ?_, fun hmem => ?_⟩
  · exact (hselected _).mpr ⟨⟨[1, 2], rfl, by decide⟩, by decide +kernel, taken_typed⟩
  · have hfits := hpatterns "node_modules" (by decide) _ hmem "node_modules" (by decide)
    exact absurd hfits (by decide +kernel)
  · obtain ⟨content, hfile, hsmall⟩ := ((hselected _).mp hmem).file
    cases hfile
    cases hsmall

end Scan

end Cyclomatic
