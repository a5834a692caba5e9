import Cyclomatic.Proofs.Scan.Report

/-! # Scans account for every file

Each source file that a scan finds has one entry in the report or one error that
says why it has none. An entry for a file that could not be read or parsed holds
no functions, and has one error of its own.
-/

namespace Cyclomatic.Scan

variable {grammar : Grammar} {d : Disk} {files ended : List String}

/-- The files without a report, each with the failure of its analysis. -/
def losses (grammar : Grammar) (d : Disk) (files : List String) : List (String × Failure) :=
  files.filterMap fun path => (failure? grammar d path).map (path, ·)

/-- The reports of the files that have one. -/
def reports (grammar : Grammar) (d : Disk) (files : List String) : List FileReport :=
  files.filterMap (report? fun path => (analyzeFile grammar d path).result)

/-- A file that is lost is one of those to analyze, and it is lost to its own failure. -/
theorem mem_losses {x : String × Failure} (hx : x ∈ losses grammar d files) :
    x.1 ∈ files ∧ (analyzeFile grammar d x.1).result = .error x.2 := by
  obtain ⟨path, hpath, hsome⟩ := List.mem_filterMap.mp hx
  obtain ⟨e, he, rfl⟩ := Option.map_eq_some_iff.mp hsome
  exact ⟨hpath, failure?_eq_some_iff.mp he⟩

theorem report?_eq_some_iff {path : String} {r : FileReport} :
    report? (fun path => (analyzeFile grammar d path).result) path = some r ↔
      (analyzeFile grammar d path).result = .ok r := by
  rw [report?]
  cases (analyzeFile grammar d path).result with
  | ok r' => simp [Except.toOption]
  | error e => simp [Except.toOption]

/-- A report is what the analysis of its own path answers. -/
theorem mem_reports {r : FileReport} (hr : r ∈ reports grammar d files) :
    (analyzeFile grammar d r.path).result = .ok r := by
  obtain ⟨path, _, hreport⟩ := List.mem_filterMap.mp hr
  have hresult := report?_eq_some_iff.mp hreport
  rwa [(isReportOf_analyzeFile hresult).path]

/-- The reports are under the paths of the files whose analyses do not fail. -/
theorem map_path_reports (grammar : Grammar) (d : Disk) (files : List String) :
    (reports grammar d files).map (·.path) =
      files.filter fun path => (failure? grammar d path).isNone := by
  induction files with
  | nil => rfl
  | cons path files ih =>
      rw [reports] at ih ⊢
      cases hresult : (analyzeFile grammar d path).result with
      | ok r =>
          have hpath := (isReportOf_analyzeFile hresult).path
          rw [List.filterMap_cons_some (report?_eq_some_iff.mpr hresult), List.map_cons, ih, hpath,
            List.filter_cons_of_pos (by simp [failure?, hresult])]
      | error e =>
          rw [List.filterMap_cons_none (by simp [report?, hresult, Except.toOption]), ih,
            List.filter_cons_of_neg (by simp [failure?, hresult])]

/-- The files that are lost are those whose analysis fails. -/
theorem map_fst_losses (grammar : Grammar) (d : Disk) (files : List String) :
    (losses grammar d files).map (·.1) =
      files.filter fun path => !(failure? grammar d path).isNone := by
  induction files with
  | nil => rfl
  | cons path files ih =>
      rw [losses] at ih ⊢
      cases hfailure : failure? grammar d path with
      | none =>
          rw [List.filterMap_cons_none (by simp [hfailure]), ih,
            List.filter_cons_of_neg (by simp [hfailure])]
      | some e =>
          rw [List.filterMap_cons_some (by simp [hfailure]; rfl), List.map_cons, ih,
            List.filter_cons_of_pos (by simp [hfailure])]

/-- The files with a report and those without one are all the files. -/
theorem perm_files (hperm : ended.Perm files) :
    ((reports grammar d files).map (·.path) ++ (losses grammar d ended).map (·.1)).Perm files := by
  rw [map_path_reports, map_fst_losses]
  exact ((hperm.filter _).append_left _).trans (List.filter_append_perm _ files)

/-- Each file that is lost has its message, with its path and the reason. -/
theorem filterMap_analyzingError? (grammar : Grammar) (d : Disk) (files : List String) :
    files.filterMap (analyzingError? grammar d) =
      (losses grammar d files).map fun x => s!"Error analyzing {x.1}: {reason x.2}" := by
  rw [losses, List.map_filterMap]
  refine List.filterMap_congr fun path _ => ?_
  rw [analyzingError?, Option.map_map]
  rfl

/-- There is one message about syntax for each report that failed. -/
theorem length_filterMap_parsingError? (rs : List FileReport) :
    (rs.filterMap parsingError?).length = (rs.filter (·.failed)).length := by
  rw [List.length_filterMap_eq_countP, List.countP_eq_length_filter]
  simp [parsingError?, FileReport.failed]

/-- Every file that a scan finds has one entry in its report, in the order of discovery, or one
error and no entry, whatever scans the engine has made before. -/
theorem scan_accounts {schedule : Schedule} {clock : Clock} {target : String} {engine : Engine}
    {report : ProjectReport} (hd : d.root.Proper)
    (hreport : (engine.scan grammar d schedule clock target).2.result = .ok report) :
    ∃ (files : List String) (lost : List (String × Failure)),
      found engine.settings d target = .ok files ∧
      (report.files.map (·.path)).Sublist files ∧
      (∀ path, (report.files.map (·.path)).count path + (lost.map (·.1)).count path =
        if path ∈ files then 1 else 0) ∧
      (∀ r ∈ report.files, (analyzeFile grammar d r.path).result = .ok r ∧
        (r.failed = true → r.functions = [])) ∧
      (∀ x ∈ lost, (analyzeFile grammar d x.1).result = .error x.2) ∧
      report.errors = lost.map (fun x => s!"Error analyzing {x.1}: {reason x.2}") ++
        report.files.filterMap parsingError? ∧
      report.filesAnalyzed = .int report.files.length ∧
      report.errors.length =
        (files.length - report.files.length) + (report.files.filter (·.failed)).length ∧
      (engine.scan grammar d schedule clock target).1.errors = report.errors := by
  obtain ⟨files, several, hfound, hseveral, hspares⟩ := spares_of_scan hreport
  have hcontained := contained_of_spares hspares
  obtain ⟨hscan, hnoted, herrors⟩ :=
    scan_of_contained engine schedule clock hfound hseveral hcontained
  obtain rfl := Except.ok.inj (hscan.symm.trans hreport)
  have hperm := perm_endOrder schedule several files
  have hnodup : files.Nodup := nodup_discover hd (exists_of_found hfound).2
  have hpaths := map_path_reports grammar d files
  have hall := @perm_files grammar d _ _ hperm
  rw [filterMap_analyzingError?] at herrors
  refine ⟨files, losses grammar d (endOrder schedule several files), hfound, ?_, ?_, ?_, ?_,
    herrors, rfl, ?_, hnoted⟩
  · exact hpaths ▸ List.filter_sublist
  · intro path
    rw [← List.count_append]
    exact (hall.count_eq path).trans (hnodup.count)
  · intro r hr
    have hresult := mem_reports hr
    exact ⟨hresult, (isReportOf_analyzeFile hresult).functions⟩
  · exact fun x hx => (mem_losses hx).2
  · have hlength := hall.length_eq
    rw [List.length_append, List.length_map, List.length_map] at hlength
    rw [herrors, List.length_append, List.length_map, length_filterMap_parsingError?]
    change _ = files.length - (reports grammar d files).length + _
    omega

theorem proper_threeOnDisk : threeOnDisk.root.Proper := by
  refine .directory (by decide) (fun x hx => ?_) (fun x hx => ?_)
  · obtain rfl := List.mem_singleton.mp hx
    exact ⟨by decide, by decide⟩
  · obtain rfl := List.mem_singleton.mp hx
    refine .directory (by decide) (fun y hy => ?_) (fun y hy => ?_)
    · have hnames : ∀ y ∈ threeSources, y.1 ≠ "" ∧ '/' ∉ y.1.toList := by decide
      exact ⟨(hnames y hy).1, (hnames y hy).2⟩
    · have hfiles : ∀ y ∈ threeSources, ∃ content, y.2 = .file content := by
        simp [threeSources]
      obtain ⟨content, hcontent⟩ := hfiles y hy
      rw [hcontent]
      exact .file content

/-- Two files are lost and one has an entry with an error; what was left from before is gone. -/
theorem threeOnDisk_accounted :
    ∃ report, (Engine.scan picky threeOnDisk .inTurn {} "p" ⟨ignoringNone, ["left"]⟩).2.result =
        .ok report ∧
      report.files.length = 1 ∧ report.errors.length = 3 ∧
      (Engine.scan picky threeOnDisk .inTurn {} "p" ⟨ignoringNone, ["left"]⟩).1.errors =
        report.errors := by
  have hseveral : parallel ignoringNone ["p/a.ts", "p/b.ts", "p/c.ts"] = .ok true :=
    ok_of_toOption (by decide +kernel)
  obtain ⟨hscan, _, _⟩ := scan_of_contained ⟨ignoringNone, ["left"]⟩ .inTurn {} found_threeOnDisk
    hseveral contained_threeOnDisk
  obtain ⟨files, _, hfound, _, _, _, _, _, _, hlength, hengine⟩ :=
    scan_accounts proper_threeOnDisk hscan
  obtain rfl := Except.ok.inj (found_threeOnDisk.symm.trans hfound)
  refine ⟨_, hscan, congrArg List.length reports_threeOnDisk, hlength.trans ?_, hengine⟩
  change 3 - (reports picky threeOnDisk _).length +
    ((reports picky threeOnDisk _).filter (·.failed)).length = 3
  rw [reports, reports_threeOnDisk]
  rfl

end Cyclomatic.Scan
