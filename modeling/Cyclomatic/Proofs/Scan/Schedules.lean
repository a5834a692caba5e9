import Cyclomatic.Proofs.Scan.Report

/-! # Scans with several workers

Files that are analyzed several at a time end in any order. The report of a scan
is the same for all orders, but for the errors of files without a report: they
stand first, in the order in which the analyses ended.
-/

namespace Cyclomatic.Scan

variable {grammar : Grammar} {d : Disk} {settings : ScanSettings} {target : String}
  {files ended : List String}

/-- The settings of a scan that analyzes one file after the other. -/
def sequential (settings : ScanSettings) : ScanSettings := { settings with maxWorkers := .int 1 }

/-- The files that are found do not depend on how they are analyzed. -/
theorem found_sequential : found (sequential settings) d target = found settings d target := by
  rw [found, found, sequential, discover_maxWorkers]

theorem one_not_greater : (Value.int 1).compare .greater (.int 1) = .ok false := by
  decide +kernel

/-- With one worker nothing runs in parallel. -/
theorem parallel_sequential (files : List String) :
    parallel (sequential settings) files = .ok false := by
  rw [parallel]
  split
  · rfl
  · exact congrArg orFail one_not_greater

theorem eq_of_perm_of_length_le_one {α : Type} {xs ys : List α} (hperm : xs.Perm ys)
    (hlength : ys.length ≤ 1) : xs = ys := by
  match ys with
  | [] => exact hperm.eq_nil
  | [y] => exact List.perm_singleton.mp hperm

/-- A single file ends in the order of discovery, whatever the schedule. -/
theorem endOrder_parallel {several : Bool} (schedule : Schedule) (files : List String)
    (hworkers : orFail (settings.maxWorkers.compare .greater (.int 1)) = .ok several) :
    ∃ several', parallel settings files = .ok several' ∧
      endOrder schedule several' files = endOrder schedule several files := by
  rw [parallel]
  split
  next hlength =>
    exact ⟨false, rfl,
      (eq_of_perm_of_length_le_one (perm_endOrder schedule several files) hlength).symm⟩
  next => exact ⟨several, hworkers, rfl⟩

/-- If at most one file fails, errors have no order to be in. -/
theorem filterMap_analyzingError?_eq (hperm : ended.Perm files)
    (hone : (files.filter fun path => (failure? grammar d path).isSome).length ≤ 1) :
    ended.filterMap (analyzingError? grammar d) = files.filterMap (analyzingError? grammar d) := by
  refine eq_of_perm_of_length_le_one (hperm.filterMap _) ?_
  rw [List.length_filterMap_eq_countP, List.countP_eq_length_filter]
  simpa [analyzingError?] using hone

/-- A scan gives the same report whatever the number of workers and whatever the order in which
their analyses end: the reports that analyses of single files give, in the order of discovery.
Only the errors of files without a report are in the order in which analyses end. -/
theorem scan_eq_sequential {several : Bool} (grammar : Grammar) (d : Disk) (schedule : Schedule)
    (clock clock' : Clock) (target : String) (engine : Engine) (noted : List String)
    (hworkers : orFail (engine.settings.maxWorkers.compare .greater (.int 1)) = .ok several) :
    let scanned := (engine.scan grammar d schedule clock target).2.result
    let inTurn := (Engine.scan grammar d .inTurn clock' target
      ⟨sequential engine.settings, noted⟩).2.result
    (∀ e, found engine.settings d target = .error e → scanned = .error e ∧ inTurn = .error e) ∧
      ∀ files, found engine.settings d target = .ok files → Contained grammar d files →
        ∃ p s, scanned = .ok p ∧ inTurn = .ok s ∧
          p.files = files.filterMap (fun path => (analyzeFile grammar d path).result.toOption) ∧
          p.filesAnalyzed = .int p.files.length ∧
          p.files = s.files ∧ p.filesAnalyzed = s.filesAnalyzed ∧ p.functions = s.functions ∧
          { p with elapsed := s.elapsed, errors := s.errors } = s ∧
          p.errors = (endOrder schedule several files).filterMap (analyzingError? grammar d) ++
            p.files.filterMap parsingError? ∧
          s.errors = files.filterMap (analyzingError? grammar d) ++
            s.files.filterMap parsingError? ∧
          p.errors.Perm s.errors ∧
          ((files.filter fun path => (failure? grammar d path).isSome).length ≤ 1 →
            p.errors = s.errors) := by
  intro scanned inTurn
  refine ⟨fun e hfound => ?_, fun files hfound hcontained => ?_⟩
  · exact ⟨scan_of_found_error hfound, scan_of_found_error (found_sequential.trans hfound)⟩
  · obtain ⟨several', hseveral, horder⟩ := endOrder_parallel schedule files hworkers
    obtain ⟨hscanned, _, herrors⟩ :=
      scan_of_contained engine schedule clock hfound hseveral hcontained
    obtain ⟨hinTurn, _, hinTurnErrors⟩ :=
      scan_of_contained ⟨sequential engine.settings, noted⟩ .inTurn clock'
        (found_sequential.trans hfound) (parallel_sequential files) hcontained
    rw [horder] at herrors hscanned
    have hperm := perm_endOrder schedule several files
    refine ⟨_, _, hscanned, hinTurn, rfl, rfl, rfl, rfl, rfl, rfl, herrors, hinTurnErrors, ?_, ?_⟩
    · rw [herrors, hinTurnErrors]
      exact (hperm.filterMap _).append_right _
    · intro hone
      rw [herrors, hinTurnErrors, filterMap_analyzingError?_eq hperm hone]
      rfl

/-- The last file ends first. -/
def backwards : Schedule := ⟨List.reverse, List.reverse_perm⟩

/-- With four workers that end in reverse, the errors of the refused files change places. The
error of the file that does not parse stays last, and its report is the only one. -/
theorem threeOnDisk_backwards :
    ∃ p s, (Engine.scan picky threeOnDisk backwards {} "p" ⟨ignoringNone, ["left"]⟩).2.result =
        .ok p ∧
      (Engine.scan picky threeOnDisk .inTurn {} "p" ⟨sequential ignoringNone, []⟩).2.result =
        .ok s ∧
      p.files = [⟨"p/b.ts", [], some "typescript", some "p/b.ts:1: syntax error"⟩] ∧
      p.filesAnalyzed = .int 1 ∧ s.files = p.files ∧
      p.errors = ["Error analyzing p/c.ts: c", "Error analyzing p/a.ts: a",
        "Error parsing p/b.ts: p/b.ts:1: syntax error"] ∧
      s.errors = ["Error analyzing p/a.ts: a", "Error analyzing p/c.ts: c",
        "Error parsing p/b.ts: p/b.ts:1: syntax error"] := by
  have hgreater : (Value.int 4).compare .greater (.int 1) = .ok true := by decide +kernel
  obtain ⟨p, s, hp, hs, hreports, hanalyzed, hfiles, _, _, _, hpErrors, hsErrors, _, _⟩ :=
    (scan_eq_sequential picky threeOnDisk backwards {} {} "p" ⟨ignoringNone, ["left"]⟩ []
      (congrArg orFail hgreater)).2 _ found_threeOnDisk contained_threeOnDisk
  have ha : analyzingError? picky threeOnDisk "p/a.ts" = some "Error analyzing p/a.ts: a" := by
    rw [analyzingError?, failure?_eq_some_iff.mpr analyzeFile_a]
    decide +kernel
  have hb : analyzingError? picky threeOnDisk "p/b.ts" = none := by
    rw [analyzingError?, failure?, analyzeFile_b]
    rfl
  have hc : analyzingError? picky threeOnDisk "p/c.ts" = some "Error analyzing p/c.ts: c" := by
    rw [analyzingError?, failure?_eq_some_iff.mpr analyzeFile_c]
    decide +kernel
  have hunparsed : unparsed "p/b.ts" =
      ⟨"p/b.ts", [], some "typescript", some "p/b.ts:1: syntax error"⟩ := by decide +kernel
  have hone : p.files = [⟨"p/b.ts", [], some "typescript", some "p/b.ts:1: syntax error"⟩] :=
    (hreports.trans reports_threeOnDisk).trans (congrArg (fun r => [r]) hunparsed)
  have hparsing : p.files.filterMap parsingError? =
      ["Error parsing p/b.ts: p/b.ts:1: syntax error"] := by
    rw [hone]
    decide +kernel
  refine ⟨p, s, hp, hs, hone, ?_, hfiles.symm, hpErrors.trans ?_, hsErrors.trans ?_⟩
  · rw [hanalyzed, hone]
    rfl
  · change ["p/c.ts", "p/b.ts", "p/a.ts"].filterMap _ ++ _ = _
    rw [List.filterMap_cons_some hc, List.filterMap_cons_none hb, List.filterMap_cons_some ha,
      List.filterMap_nil, hparsing]
    rfl
  · rw [List.filterMap_cons_some ha, List.filterMap_cons_none hb, List.filterMap_cons_some hc,
      List.filterMap_nil, ← hfiles, hparsing]
    rfl

end Cyclomatic.Scan
