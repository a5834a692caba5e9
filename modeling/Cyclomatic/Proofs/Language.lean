import Mathlib.Data.List.TakeWhile
import Cyclomatic.Proofs.Path
import Cyclomatic.Proofs.Scan.Collection

/-! # The language that a path tells

The language of a source is told by the extension of its path as written, its
dialect by the suffix of the last part that counts. The two are cut off by
different rules, and each has a table of its own. Still, wherever an extension
is more than a dot it is the suffix as well, and the tables agree.
-/

namespace Cyclomatic

namespace Path

variable {path : String} {stem after : List Char}

/-- The last component counts as a part, unless it is empty or a single dot. -/
theorem name_eq_basename (hempty : basename path ≠ "") (hdot : basename path ≠ ".") :
    name path = basename path := by
  obtain ⟨before, hcomponents⟩ := exists_components path
  rw [name, parts, hcomponents, List.filter_append,
    List.filter_cons_of_pos (by simp [hempty, hdot]), List.filter_nil, List.getLast?_concat]
  rfl

/-! ## The last dot of a name -/

/-- A name with a dot has a last one. -/
theorem exists_last_dot {chars : List Char} (hdot : '.' ∈ chars) :
    ∃ stem after, chars = stem ++ '.' :: after ∧ '.' ∉ after := by
  obtain ⟨after, stem, hchars, hafter⟩ :=
    List.eq_append_cons_of_mem (List.mem_reverse.mpr hdot)
  refine ⟨stem.reverse, after.reverse, ?_, by simpa using hafter⟩
  rw [← List.reverse_reverse chars, hchars]
  simp

theorem ne_dot_of_mem_reverse (hafter : '.' ∉ after) :
    ∀ c ∈ after.reverse, decide (c ≠ '.') = true := by
  intro c hc
  exact decide_eq_true fun heq => hafter (heq ▸ List.mem_reverse.mp hc)

/-- What stands behind the last dot is found from the end. -/
theorem takeWhile_reverse_append (hafter : '.' ∉ after) :
    (stem ++ '.' :: after).reverse.takeWhile (· ≠ '.') = after.reverse := by
  rw [List.reverse_append, List.reverse_cons, List.append_assoc,
    List.takeWhile_append_of_pos (ne_dot_of_mem_reverse hafter)]
  simp

/-- A name without a dot has no extension. -/
theorem extension_eq_of_not_mem (hdot : '.' ∉ (basename path).toList) : extension path = "" := by
  unfold extension
  dsimp only
  rw [List.takeWhile_eq_self_iff.mpr (ne_dot_of_mem_reverse hdot)]
  simp

/-- The extension of a name is its last dot and what follows, unless only dots come before it. -/
theorem extension_eq (hname : (basename path).toList = stem ++ '.' :: after)
    (hafter : '.' ∉ after) :
    extension path = if stem.all (· = '.') then "" else String.ofList ('.' :: after) := by
  have hbefore : (stem ++ '.' :: after).take
      ((stem ++ '.' :: after).length - after.length) = stem ++ ['.'] := by
    have hsplit : stem ++ '.' :: after = (stem ++ ['.']) ++ after := by simp
    rw [hsplit, List.length_append, Nat.add_sub_cancel, List.take_left]
  unfold extension
  dsimp only
  rw [hname, takeWhile_reverse_append hafter, List.length_reverse, hbefore]
  simp

/-- The last dot of a name is found where something stands on both sides of it. -/
theorem dot?_append (hafter : '.' ∉ after) (hne : after ≠ []) (hstem : stem ≠ []) :
    dot? (stem ++ '.' :: after) = some stem.length := by
  have hafter0 := List.length_pos_iff.mpr hne
  have hstem0 := List.length_pos_iff.mpr hstem
  unfold dot?
  dsimp only
  rw [takeWhile_reverse_append hafter, List.length_reverse, List.length_append, List.length_cons,
    if_neg]
  · congr 1
    omega
  · rw [Bool.or_eq_true, decide_eq_true_eq, decide_eq_true_eq]
    omega

/-- An extension that is more than a dot is the suffix. -/
theorem suffix_eq_extension (hempty : extension path ≠ "") (hdot : extension path ≠ ".") :
    suffix path = extension path := by
  have hmem : '.' ∈ (basename path).toList := by
    by_contra hmem
    exact hempty (extension_eq_of_not_mem hmem)
  obtain ⟨stem, after, hname, hafter⟩ := exists_last_dot hmem
  have hextension := extension_eq hname hafter
  split at hextension
  next => exact absurd hextension hempty
  next hstem =>
    have hstem : stem ≠ [] := by
      rintro rfl
      exact hstem rfl
    have hne : after ≠ [] := by
      rintro rfl
      exact hdot hextension
    -- Something stands before the dot, so the last component counts as a part.
    have hpart : name path = basename path := by
      refine name_eq_basename ?_ ?_ <;> intro heq <;> rw [heq] at hname
      · simp at hname
      · have hlength := congrArg List.length hname
        have := List.length_pos_iff.mpr hstem
        simp at hlength
        omega
    unfold suffix
    dsimp only
    rw [hpart, hname, dot?_append hafter hne hstem, hextension]
    simp

/-- A path without an extension may have a suffix. -/
example : extension "a.js/" = "" ∧ suffix "a.js/" = ".js" ∧ extension "..ts" = "" ∧
    suffix "..ts" = ".ts" := by
  decide +kernel

end Path

/-! ## The two tables -/

/-- The language of an extension is that of its dialect. -/
theorem Language.ofExtension?_eq (ext : String) :
    ofExtension? ext = (Dialect.ofSuffix? ext).map Dialect.language := by
  unfold ofExtension? Dialect.ofSuffix?
  split <;> simp_all [Dialect.language]

/-- A path that tells a language tells a dialect of that language. -/
theorem Language.exists_ofPath? {path : String} {language : Language}
    (hdetect : detect? path = some language) :
    ∃ dialect, Dialect.ofPath? path = some dialect ∧ dialect.language = language := by
  -- Neither nothing nor a dot alone is the extension of a language.
  have hmore (ext : String) (hext : ofExtension? (lowerText ext) = none) :
      Path.extension path ≠ ext := by
    rintro rfl
    unfold detect? at hdetect
    rw [hext] at hdetect
    cases hdetect
  have hsuffix :=
    Path.suffix_eq_extension (hmore "" (by decide +kernel)) (hmore "." (by decide +kernel))
  unfold detect? at hdetect
  rw [ofExtension?_eq, Option.map_eq_some_iff] at hdetect
  obtain ⟨dialect, hdialect, hlanguage⟩ := hdetect
  exact ⟨dialect, by rw [Dialect.ofPath?, hsuffix, hdialect], hlanguage⟩

namespace Analysis

variable {grammar : Grammar} {content path : String} {dialect : Dialect} {language : Language}

/-- A path that tells a dialect needs no fallback. -/
theorem dialectFor_of_ofPath? (hpath : Dialect.ofPath? path = some dialect) (fallback : String) :
    Parsed.dialectFor path fallback = .ok dialect := by
  unfold Parsed.dialectFor
  rw [hpath]
  rfl

/-- A source is parsed in the dialect that its path tells. -/
theorem parse_result (hpath : Dialect.ofPath? path = some dialect) (grammar : Grammar)
    (content : String) :
    (parse grammar content path none).result =
      (Parsed.ofAnswer path dialect (Utf8.encode content) (grammar dialect content)).result := by
  rw [Scan.parse_none]
  unfold Parsed.ofSource
  simp only [dialectFor_of_ofPath? hpath]
  rfl

/-- The report of a source that does not parse. -/
def faultReport (path : String) (name : Option String) (place : String) (line : Option Nat) :
    FileReport where
  path
  language := languageName path name
  error := some (Failure.message (.syntaxError place line))

/-- There is a report where a source parses and where it has a syntax error, and nowhere else. -/
theorem analyze_eq_ok_iff {name : Option String} {r : FileReport} :
    (analyze grammar content path name).result = .ok r ↔
      (∃ p, (parse grammar content path name).result = .ok p ∧ r = report p) ∨
      ∃ place line, (parse grammar content path name).result = .error (.syntaxError place line) ∧
        r = faultReport path name place line := by
  unfold analyze
  dsimp only
  split
  next p hp => simp [hp, eq_comm]
  next place line hp => simp [hp, faultReport, eq_comm]
  next e hne hp =>
    constructor
    · intro hr
      cases hr
    · rintro (⟨p, hp', _⟩ | ⟨place, line, hp', _⟩) <;> rw [hp] at hp'
      · cases hp'
      · exact absurd (Except.error.inj hp') (hne place line)

/-- If no language is asked for, it is the one that the path tells. -/
theorem languageName_of_detect? (hdetect : Language.detect? path = some language) :
    languageName path none = some language.toText := by
  unfold languageName
  rw [hdetect]
  rfl

/-- Every report under a path that tells a language is in that language. -/
theorem language_of_analyze (hdetect : Language.detect? path = some language)
    (hpath : Dialect.ofPath? path = some dialect) (hlanguage : dialect.language = language)
    {r : FileReport} (hr : (analyze grammar content path none).result = .ok r) :
    r.language = some language.toText := by
  rcases analyze_eq_ok_iff.mp hr with ⟨p, hp, rfl⟩ | ⟨place, line, _, rfl⟩
  · rw [parse_result hpath] at hp
    obtain ⟨t, _, _, rfl⟩ := Scan.ofAnswer_eq_ok_iff.mp hp
    rw [← hlanguage]
    rfl
  · rw [faultReport, languageName_of_detect? hdetect]

/-- A path that tells a language tells one dialect of it, whatever the fallback is; and so a
source under that path is reported in that language, whether it parses or has a syntax error. -/
theorem reported_in_detected_language (hdetect : Language.detect? path = some language) :
    ∃ dialect : Dialect, dialect.language = language ∧
      (∀ fallback, Parsed.dialectFor path fallback = .ok dialect) ∧
      ∀ (grammar : Grammar) (content : String),
        (∀ t, grammar dialect content = .tree false t → t.depth ≤ Parsed.depthLimit →
          ∃ r, (analyze grammar content path none).result = .ok r ∧ r.failed = false ∧
            r.language = some language.toText) ∧
        (∀ t, grammar dialect content = .tree true t →
          ∃ r, (analyze grammar content path none).result = .ok r ∧ r.failed = true ∧
            r.language = some language.toText) ∧
        ∀ r, (analyze grammar content path none).result = .ok r →
          r.language = some language.toText := by
  obtain ⟨dialect, hpath, hlanguage⟩ := Language.exists_ofPath? hdetect
  refine ⟨dialect, hlanguage, dialectFor_of_ofPath? hpath, fun grammar content => ⟨?_, ?_, ?_⟩⟩
  · intro t ht hdepth
    have hp := (parse_result hpath grammar content).trans
      (Scan.ofAnswer_eq_ok_iff.mpr ⟨t, ht, hdepth, rfl⟩)
    have hr := analyze_eq_ok_iff.mpr (.inl ⟨_, hp, rfl⟩)
    exact ⟨_, hr, rfl, language_of_analyze hdetect hpath hlanguage hr⟩
  · intro t ht
    have hp := parse_result hpath grammar content
    rw [ht] at hp
    have hr := analyze_eq_ok_iff.mpr (.inr ⟨_, _, hp, rfl⟩)
    exact ⟨_, hr, rfl, language_of_analyze hdetect hpath hlanguage hr⟩
  · intro r hr
    exact language_of_analyze hdetect hpath hlanguage hr

/-- A name with dots at both ends of its stem, in mixed case, under a directory with a dot. -/
theorem dottedPath_reported :
    Language.detect? "lib.js/./..app..MtS" = some .typescript ∧
    ∃ dialect : Dialect, dialect.language = .typescript ∧
      Parsed.dialectFor "lib.js/./..app..MtS" "javascript" = .ok dialect ∧
      ∃ r, (analyze (fun _ _ => .tree true (.node { type := "ERROR", start := 0, stop := 1 } []))
        "(" "lib.js/./..app..MtS" none).result = .ok r ∧ r.failed = true ∧
          r.language = some "typescript" := by
  have hdetect : Language.detect? "lib.js/./..app..MtS" = some .typescript := by decide +kernel
  obtain ⟨dialect, hlanguage, hfallback, hreported⟩ := reported_in_detected_language hdetect
  exact ⟨hdetect, dialect, hlanguage, hfallback "javascript", (hreported _ "(").2.1 _ rfl⟩

end Analysis

end Cyclomatic
