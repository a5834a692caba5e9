import Mathlib.Data.List.Perm.Basic
import Cyclomatic.Scan.Basic

/-! # What a scan collects

Analyses come in one after the other. Those that give a report put it under its
path; of those that fail, each leaves one error, unless its failure ends the
scan. So the reports do not depend on the order in which the analyses end, and
the errors depend on it only in their own order.
-/

namespace Cyclomatic

/-- Two steps succeed if the first does, and the second does on what the first answers. -/
theorem Traced.bind_result_eq_ok_iff {α β : Type} {x : Traced α} {f : α → Traced β} {b : β} :
    (x >>= f).result = .ok b ↔ ∃ a, x.result = .ok a ∧ (f a).result = .ok b := by
  obtain ⟨events, result⟩ := x
  cases result with
  | error e => simp [bind]
  | ok a => simp [bind]

/-- Two steps fail if the first does, or the second does on what the first answers. -/
theorem Traced.bind_result_eq_error_iff {α β : Type} {x : Traced α} {f : α → Traced β}
    {e : Failure} : (x >>= f).result = .error e ↔
      x.result = .error e ∨ ∃ a, x.result = .ok a ∧ (f a).result = .error e := by
  obtain ⟨events, result⟩ := x
  cases result with
  | error e => simp [bind]
  | ok a => simp [bind]

namespace Scan

/-! ## One file -/

/-- Failures that no file is at fault for. All other failures of an analysis are that the tree is
too deep or that a value is not as it should be. -/
def isAbort : Failure → Bool
  | .interrupted | .unavailable _ => true
  | _ => false

/-- Why a file has no report. -/
def reason : Failure → String
  | .tooDeep => "nesting too deep"
  | e => e.message

/-- A path is not located for two reasons only: what it holds, or what is on the disk. -/
theorem locate_eq_error {d : Disk} {aim : Aim} {path : String} {e : Failure}
    (he : d.locate aim path = .error e) : e = .nullInPath ∨ ∃ error, e = .file error := by
  unfold Disk.locate at he
  split at he
  next => exact .inl (Except.error.inj he).symm
  next =>
    split at he
    next => exact .inr ⟨_, (Except.error.inj he).symm⟩
    next =>
      split at he
      next => exact .inr ⟨_, (Except.error.inj he).symm⟩
      next =>
        split at he
        next => cases he
        next => exact .inr ⟨_, (Except.error.inj he).symm⟩

theorem readBytes_eq_error {d : Disk} {path : String} {e : Failure}
    (he : d.readBytes path = .error e) : e = .nullInPath ∨ ∃ error, e = .file error := by
  unfold Disk.readBytes Disk.entry at he
  cases hspot : d.locate .entry path with
  | error error =>
      rw [hspot] at he
      obtain rfl : error = e := Except.error.inj he
      exact locate_eq_error hspot
  | ok spot =>
      rw [hspot] at he
      cases spot with
      | vacant directory name => exact .inr ⟨_, (Except.error.inj he).symm⟩
      | found place entry =>
          cases entry with
          | file content => cases he
          | link target => exact .inr ⟨_, (Except.error.inj he).symm⟩
          | directory entries => exact .inr ⟨_, (Except.error.inj he).symm⟩

/-- To read a text fails only if its bytes cannot be read. Bytes that are no text are replaced. -/
theorem readText_eq_error {d : Disk} {path : String} {e : Failure}
    (he : d.readText path = .error e) : e = .nullInPath ∨ ∃ error, e = .file error := by
  unfold Disk.readText at he
  cases hbytes : d.readBytes path with
  | error error =>
      rw [hbytes] at he
      obtain rfl : error = e := Except.error.inj he
      exact readBytes_eq_error hbytes
  | ok content =>
      rw [hbytes] at he
      cases he

/-- An answer of a grammar is turned down for a fault in the source, because the grammar refuses,
because the tree is too deep, or because the run is aborted. -/
theorem ofAnswer_eq_error {path : String} {dialect : Dialect} {source : Bytes}
    {answer : Grammar.Answer} {e : Failure}
    (he : (Parsed.ofAnswer path dialect source answer).result = .error e) :
    (∃ line, e = .syntaxError path line) ∨ (∃ why, e = .refused why) ∨ e = .tooDeep ∨
      isAbort e = true := by
  cases answer with
  | refused why => exact .inr (.inl ⟨why, (Except.error.inj he).symm⟩)
  | interrupted =>
      obtain rfl : Failure.interrupted = e := Except.error.inj he
      exact .inr (.inr (.inr rfl))
  | unavailable =>
      obtain rfl : Failure.unavailable dialect = e := Except.error.inj he
      exact .inr (.inr (.inr rfl))
  | tree faulty t =>
      cases faulty with
      | true => exact .inl ⟨_, (Except.error.inj he).symm⟩
      | false =>
          rw [Parsed.ofAnswer, Parsed.ofTree, Traced.bind_result_eq_error_iff] at he
          rcases he with he | ⟨_, _, he⟩
          · cases he
          · split at he
            · exact .inr (.inr (.inl (Except.error.inj he).symm))
            · cases he

/-- An answer is accepted if it is a tree without faults that is not too deep. -/
theorem ofAnswer_eq_ok_iff {path : String} {dialect : Dialect} {source : Bytes}
    {answer : Grammar.Answer} {p : Parsed} :
    (Parsed.ofAnswer path dialect source answer).result = .ok p ↔
      ∃ t, answer = .tree false t ∧ t.depth ≤ Parsed.depthLimit ∧
        p = ⟨path, dialect, source, t.normalize source⟩ := by
  constructor
  · intro hp
    cases answer with
    | refused why => cases hp
    | interrupted => cases hp
    | unavailable => cases hp
    | tree faulty t =>
        cases faulty with
        | true => cases hp
        | false =>
            rw [Parsed.ofAnswer, Parsed.ofTree, Traced.bind_result_eq_ok_iff] at hp
            obtain ⟨_, _, hp⟩ := hp
            split at hp
            next => cases hp
            next hdepth => exact ⟨t, rfl, Nat.not_lt.mp hdepth, (Except.ok.inj hp).symm⟩
  · rintro ⟨t, rfl, hdepth, rfl⟩
    rw [Parsed.ofAnswer, Parsed.ofTree, Traced.bind_result_eq_ok_iff]
    refine ⟨(), rfl, ?_⟩
    rw [if_neg (Nat.not_lt.mpr hdepth)]
    rfl

theorem ofName?_toText (language : Language) :
    Language.ofName? language.toText = some language := by
  cases language <;> decide +kernel

/-- With a fallback, every path has a dialect. -/
theorem exists_dialectFor (path : String) :
    ∃ dialect, Parsed.dialectFor path Parsed.standardFallback = .ok dialect := by
  have hfallback : Dialect.ofText? Parsed.standardFallback = some .tsx := by decide +kernel
  unfold Parsed.dialectFor
  cases Dialect.ofPath? path with
  | none => exact ⟨.tsx, by simp only [Option.none_or, hfallback]⟩
  | some dialect => exact ⟨dialect, rfl⟩

/-- Every path has a language that there is a parser for. -/
theorem parse_none (grammar : Grammar) (content path : String) :
    Analysis.parse grammar content path none =
      Parsed.ofSource grammar Parsed.standardFallback content path := by
  have hname : ∃ language, (Analysis.languageName path none).getD Language.typescript.toText =
      Language.toText language := by
    unfold Analysis.languageName
    cases Language.detect? path with
    | none => exact ⟨.typescript, rfl⟩
    | some language => exact ⟨language, rfl⟩
  obtain ⟨language, hlanguage⟩ := hname
  unfold Analysis.parse
  simp only [hlanguage, ofName?_toText]

/-- And a dialect. -/
theorem exists_parse_result (grammar : Grammar) (content path : String) :
    ∃ dialect, (Analysis.parse grammar content path none).result =
      (Parsed.ofAnswer path dialect (Utf8.encode content) (grammar dialect content)).result := by
  obtain ⟨dialect, hdialect⟩ := exists_dialectFor path
  refine ⟨dialect, ?_⟩
  rw [parse_none]
  unfold Parsed.ofSource
  simp only [hdialect]
  rfl

/-- Parsing fails for no other reasons than the answer of the grammar gives. -/
theorem parse_eq_error {grammar : Grammar} {content path : String} {e : Failure}
    (he : (Analysis.parse grammar content path none).result = .error e) :
    (∃ line, e = .syntaxError path line) ∨ (∃ why, e = .refused why) ∨ e = .tooDeep ∨
      isAbort e = true := by
  obtain ⟨dialect, hresult⟩ := exists_parse_result grammar content path
  rw [hresult] at he
  exact ofAnswer_eq_error he

theorem path_of_parse {grammar : Grammar} {content path : String} {p : Parsed}
    (hp : (Analysis.parse grammar content path none).result = .ok p) : p.path = path := by
  obtain ⟨dialect, hresult⟩ := exists_parse_result grammar content path
  rw [hresult] at hp
  obtain ⟨t, _, _, rfl⟩ := ofAnswer_eq_ok_iff.mp hp
  rfl

/-- The report of a file is under its path, and one with an error has no functions. -/
structure IsReportOf (path : String) (r : FileReport) : Prop where
  path : r.path = path
  functions : r.failed = true → r.functions = []
  error : r.error ≠ some ""

theorem message_ne_empty (error : FileError) : error.message ≠ "" := by
  intro hempty
  unfold FileError.message at hempty
  have hchars := congrArg String.toList hempty
  simp at hchars

theorem syntaxError_message_ne_empty (path : String) (line : Option Nat) :
    Failure.message (.syntaxError path line) ≠ "" := by
  intro hempty
  have happend : Failure.location path line ++ ": syntax error" = "" := hempty
  have hchars := congrArg String.toList happend
  simp at hchars

variable {grammar : Grammar} {d : Disk} {path : String} {e : Failure} {r : FileReport}

/-- What the analysis of a file comes to, by what is read and how it parses. -/
inductive Analyzes (grammar : Grammar) (d : Disk) (path : String) :
    Except Failure FileReport → Prop
  | report {content : String} {p : Parsed} (hread : d.readText path = .ok content)
      (hparse : (Analysis.parse grammar content path none).result = .ok p) :
      Analyzes grammar d path (.ok (Analysis.report p))
  | unparsed {content place : String} {line : Option Nat} (hread : d.readText path = .ok content)
      (hparse : (Analysis.parse grammar content path none).result =
        .error (.syntaxError place line)) :
      Analyzes grammar d path (.ok {
        path, language := Analysis.languageName path none,
        error := some (Failure.message (.syntaxError place line)) })
  | failed {content : String} {e : Failure} (hread : d.readText path = .ok content)
      (hparse : (Analysis.parse grammar content path none).result = .error e)
      (hother : ∀ place line, e ≠ .syntaxError place line) : Analyzes grammar d path (.error e)
  | unreadable {error : FileError} (hread : d.readText path = .error (.file error)) :
      Analyzes grammar d path (.ok { path, error := some error.message })
  | unread {e : Failure} (hread : d.readText path = .error e) (hfile : ∀ error, e ≠ .file error) :
      Analyzes grammar d path (.error e)

/-- The five outcomes of an analysis are all there are. -/
theorem analyzeFile_eq_iff {outcome : Except Failure FileReport} :
    (analyzeFile grammar d path).result = outcome ↔ Analyzes grammar d path outcome := by
  constructor
  · rintro rfl
    unfold analyzeFile
    split
    next content hread =>
      unfold Analysis.analyze
      dsimp only
      split
      next p hparse => exact .report hread hparse
      next place line hparse => exact .unparsed hread hparse
      next e hother hparse => exact .failed hread hparse hother
    next error hread => exact .unreadable hread
    next e hfile hread => exact .unread hread hfile
  · intro hanalyzes
    cases hanalyzes with
    | report hread hparse | unparsed hread hparse | failed hread hparse =>
        unfold analyzeFile Analysis.analyze
        simp only [hread, hparse]
    | unreadable hread =>
        unfold analyzeFile
        simp only [hread]
    | unread hread =>
        unfold analyzeFile
        simp only [hread]
        rfl

/-- The report of a file bears its path, lists no functions if it failed, and gives no empty
reason. -/
theorem isReportOf_analyzeFile (hr : (analyzeFile grammar d path).result = .ok r) :
    IsReportOf path r := by
  cases analyzeFile_eq_iff.mp hr with
  | report _ hparse => exact ⟨path_of_parse hparse, nofun, nofun⟩
  | @unparsed _ place line _ _ =>
      refine ⟨rfl, fun _ => rfl, fun hempty => ?_⟩
      exact syntaxError_message_ne_empty place line (Option.some.inj hempty)
  | @unreadable error _ =>
      exact ⟨rfl, fun _ => rfl, fun hempty => message_ne_empty error (Option.some.inj hempty)⟩

/-- A failed analysis that does not end the scan leaves an error that gives its reason. -/
theorem excuse?_of_analyzeFile (he : (analyzeFile grammar d path).result = .error e) :
    excuse? path e = if isAbort e then none else some s!"Error analyzing {path}: {reason e}" := by
  have hcases : (∃ why, e = .refused why) ∨ e = .tooDeep ∨ e = .nullInPath ∨
      isAbort e = true := by
    cases analyzeFile_eq_iff.mp he with
    | failed _ hparse hother =>
        rcases parse_eq_error hparse with ⟨line, rfl⟩ | hwhy | hdeep | habort
        · exact absurd rfl (hother path line)
        · exact .inl hwhy
        · exact .inr (.inl hdeep)
        · exact .inr (.inr (.inr habort))
    | unread hread hfile =>
        rcases readText_eq_error hread with rfl | ⟨error, rfl⟩
        · exact .inr (.inr (.inl rfl))
        · exact absurd rfl (hfile error)
  rcases hcases with ⟨why, rfl⟩ | rfl | rfl | habort
  · rfl
  · rfl
  · rfl
  · rw [if_pos habort]
    cases e with
    | interrupted => rfl
    | unavailable dialect => rfl
    | _ => cases habort

/-! ## All files -/

section

variable {outcome : String → Except Failure FileReport} {files ended : List String} {t : Tally}

/-- The report that an analysis gives, if it gives one. -/
def report? (outcome : String → Except Failure FileReport) (path : String) : Option FileReport :=
  (outcome path).toOption

/-- The error that an analysis without a report leaves. -/
def loss? (outcome : String → Except Failure FileReport) (path : String) : Option String :=
  match outcome path with
  | .ok _ => none
  | .error e => excuse? path e

/-- No analysis ends the scan. -/
def Spares (outcome : String → Except Failure FileReport) (files : List String) : Prop :=
  ∀ path ∈ files, ∀ e, outcome path = .error e → (excuse? path e).isSome = true

/-- A tally with what further analyses give. -/
def Tally.after (outcome : String → Except Failure FileReport) (ended : List String) (t : Tally) :
    Tally where
  reports := t.reports ++ ended.filterMap fun path => (report? outcome path).map (path, ·)
  errors := t.errors ++ ended.filterMap (loss? outcome)

/-- If no analysis ends the scan, all of them are taken. -/
theorem addAll_of_spares (hspares : Spares outcome ended) :
    t.addAll outcome ended = (t.after outcome ended, .ok ()) := by
  induction ended generalizing t with
  | nil => simp [Tally.addAll, Tally.after]
  | cons path rest ih =>
      have hrest : Spares outcome rest := fun p hp => hspares p (List.mem_cons_of_mem _ hp)
      rw [Tally.addAll]
      cases hpath : outcome path with
      | ok r => simp [Tally.add, ih hrest, Tally.after, report?, loss?, hpath, Except.toOption]
      | error e =>
          obtain ⟨error, herror⟩ :=
            Option.isSome_iff_exists.mp (hspares path List.mem_cons_self e hpath)
          simp [Tally.add, herror, ih hrest, Tally.after, report?, loss?, hpath, Except.toOption]

/-- If all analyses were taken, none ended the scan. -/
theorem spares_of_addAll {t' : Tally} (hall : t.addAll outcome ended = (t', .ok ())) :
    Spares outcome ended := by
  induction ended generalizing t with
  | nil => exact fun _ hp => absurd hp List.not_mem_nil
  | cons path rest ih =>
      rw [Tally.addAll] at hall
      cases hadd : t.add path (outcome path) with
      | error e =>
          rw [hadd] at hall
          cases hall
      | ok next =>
          rw [hadd] at hall
          intro p hp e he
          rcases List.mem_cons.mp hp with rfl | hp
          · rw [he, Tally.add] at hadd
            cases hexcuse : excuse? p e with
            | some error => rfl
            | none => simp [hexcuse] at hadd
          · exact ih hall p hp e he

/-- A report is found under its path once its analysis has ended. -/
theorem lookup_reports {path : String} (hpath : path ∈ ended) :
    (ended.filterMap fun p => (report? outcome p).map (p, ·)).lookup path =
      report? outcome path := by
  induction ended with
  | nil => cases hpath
  | cons p rest ih =>
      by_cases hrest : path ∈ rest
      · cases hreport : report? outcome p with
        | none => rw [List.filterMap_cons_none (by simp [hreport]), ih hrest]
        | some r =>
            rw [List.filterMap_cons_some (by simp [hreport]; rfl), List.lookup_cons, ih hrest]
            cases heq : path == p with
            | false => rfl
            | true => rw [eq_of_beq heq, hreport]
      · obtain rfl : path = p := (List.mem_cons.mp hpath).resolve_right hrest
        cases hreport : report? outcome path with
        | some r => simp [hreport]
        | none =>
            rw [List.filterMap_cons_none (by simp [hreport]), List.lookup_eq_none_iff]
            intro q hq
            obtain ⟨p, hp, hsome⟩ := List.mem_filterMap.mp hq
            obtain ⟨r, _, rfl⟩ := Option.map_eq_some_iff.mp hsome
            simpa using fun heq : path = p => hrest (heq ▸ hp)

/-- The order in which files end decides only about the order of the messages of lost files. The
reports come in the order of the files. -/
theorem settle_after (hperm : ended.Perm files) (errors : List String) :
    (Tally.after outcome ended { errors }).settle files =
      (files.filterMap (report? outcome), errors ++ ended.filterMap (loss? outcome) ++
        (files.filterMap (report? outcome)).filterMap parseError?) := by
  have hreports : (files.filterMap fun path =>
      (Tally.after outcome ended { errors }).reports.lookup path) =
        files.filterMap (report? outcome) :=
    List.filterMap_congr fun path hpath => lookup_reports (hperm.mem_iff.mpr hpath)
  rw [Tally.settle, hreports]
  rfl

end

end Scan

end Cyclomatic
