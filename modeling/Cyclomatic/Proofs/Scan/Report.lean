import Cyclomatic.Proofs.Scan.Discovery

/-! # Reports of whole scans

A scan that gives a report was ended by no analysis. Its report then holds what
the analyses of the source files give, each under the path of its file.
-/

namespace Cyclomatic.Scan

variable {grammar : Grammar} {d : Disk} {run : String → Traced FileReport} {schedule : Schedule}
  {clock : Clock} {target : String} {engine : Engine} {files ended : List String}

/-- What a scan gives if no analysis ends it. -/
def gathered (settings : ScanSettings) (clock : Clock)
    (outcome : String → Except Failure FileReport) (files ended : List String) :
    ProjectReport where
  files := files.filterMap (report? outcome)
  filesAnalyzed := .int (files.filterMap (report? outcome)).length
  elapsed := .real (clock.elapsed.roundPlaces 3)
  errors := ended.filterMap (loss? outcome) ++
    (files.filterMap (report? outcome)).filterMap parseError?
  high := settings.high
  veryHigh := settings.veryHigh

/-- If no file aborts the run, all files are gathered into a report, and the messages of the report
are those of the engine. -/
theorem analyzeAll_of_spares (hspares : Spares (fun path => (run path).result) ended)
    (hperm : ended.Perm files) (hengine : engine.errors = []) :
    (engine.analyzeAll run clock files ended).2.result =
        .ok (gathered engine.settings clock (fun path => (run path).result) files ended) ∧
      (engine.analyzeAll run clock files ended).1.errors =
        (gathered engine.settings clock (fun path => (run path).result) files ended).errors := by
  simp [Engine.analyzeAll, hengine, addAll_of_spares hspares, settle_after hperm, gathered]

/-- If a run ends with a report, no file has aborted it. -/
theorem spares_of_analyzeAll {report : ProjectReport}
    (hreport : (engine.analyzeAll run clock files ended).2.result = .ok report) :
    Spares (fun path => (run path).result) ended := by
  rw [Engine.analyzeAll] at hreport
  split at hreport
  next => cases hreport
  next t hall => exact spares_of_addAll hall

/-- The source files of a target that is there. -/
def found (settings : ScanSettings) (d : Disk) (target : String) : Except Failure (List String) :=
  if d.exists? target then (discover settings d target).result else .error (.targetMissing target)

/-- However files are scheduled, each of them ends once. -/
theorem perm_endOrder (schedule : Schedule) (several : Bool) (files : List String) :
    (endOrder schedule several files).Perm files := by
  cases several with
  | true => exact schedule.perm files
  | false => exact .refl _

theorem Spares.perm {outcome : String → Except Failure FileReport}
    (hspares : Spares outcome files) (hperm : ended.Perm files) : Spares outcome ended :=
  fun path hpath => hspares path (hperm.mem_iff.mp hpath)

/-- If files are found, the target exists and was searched. -/
theorem exists_of_found (hfound : found engine.settings d target = .ok files) :
    d.exists? target = true ∧ (discover engine.settings d target).result = .ok files := by
  rw [found] at hfound
  split at hfound
  next hexists => exact ⟨hexists, hfound⟩
  next => cases hfound

/-- A scan of a target that is there fails as its plan does. -/
theorem scan_of_plan_error {e : Failure} (hexists : d.exists? target = true)
    (hplan : (plan engine.settings d schedule target).result = .error e) :
    (engine.scan grammar d schedule clock target).2.result = .error e := by
  simp [Engine.scan, hexists, hplan]

/-- A scan fails as the search for source files does. -/
theorem scan_of_found_error {e : Failure} (hfound : found engine.settings d target = .error e) :
    (engine.scan grammar d schedule clock target).2.result = .error e := by
  rw [found] at hfound
  split at hfound
  next hexists =>
    refine scan_of_plan_error hexists ?_
    unfold plan
    rw [Traced.bind_result_eq_error_iff]
    exact .inl hfound
  next hmissing =>
    obtain rfl : Failure.targetMissing target = e := Except.error.inj hfound
    simp [Engine.scan, hmissing, Traced.fail]

/-- The files that are found are the plan, with the order in which they end. -/
theorem plan_of_found {several : Bool} (hfound : found engine.settings d target = .ok files)
    (hseveral : parallel engine.settings files = .ok several) :
    (plan engine.settings d schedule target).result =
      .ok (files, endOrder schedule several files) := by
  unfold plan
  rw [Traced.bind_result_eq_ok_iff]
  refine ⟨files, (exists_of_found hfound).2, ?_⟩
  rw [Traced.bind_result_eq_ok_iff]
  exact ⟨several, hseveral, rfl⟩

/-- A scan whose files are found is the analysis of these files by an engine that forgot all former
messages. -/
theorem scan_eq_analyzeAll {several : Bool} (hfound : found engine.settings d target = .ok files)
    (hseveral : parallel engine.settings files = .ok several) :
    ∃ events, engine.scan grammar d schedule clock target =
      let (engine, report) := engine.cleared.analyzeAll (analyzeFile grammar d) clock files
        (endOrder schedule several files)
      (engine, ⟨events ++ report.events, report.result⟩) := by
  refine ⟨(plan engine.settings d schedule target).events, ?_⟩
  simp [Engine.scan, (exists_of_found hfound).1, plan_of_found hfound hseveral]

/-- A scan that no analysis ends gives what the analyses give. -/
theorem scan_of_spares {several : Bool} (engine : Engine) (schedule : Schedule) (clock : Clock)
    (hfound : found engine.settings d target = .ok files)
    (hseveral : parallel engine.settings files = .ok several)
    (hspares : Spares (fun path => (analyzeFile grammar d path).result) files) :
    let report := gathered engine.settings clock (fun path => (analyzeFile grammar d path).result)
      files (endOrder schedule several files)
    (engine.scan grammar d schedule clock target).2.result = .ok report ∧
      (engine.scan grammar d schedule clock target).1.errors = report.errors := by
  have hperm := perm_endOrder schedule several files
  obtain ⟨events, hscan⟩ := scan_eq_analyzeAll hfound hseveral
  rw [hscan]
  exact analyzeAll_of_spares (hspares.perm hperm) hperm rfl

/-- No analysis has ended a scan that gives a report. -/
theorem spares_of_scan {report : ProjectReport}
    (hreport : (engine.scan grammar d schedule clock target).2.result = .ok report) :
    ∃ files several, found engine.settings d target = .ok files ∧
      parallel engine.settings files = .ok several ∧
        Spares (fun path => (analyzeFile grammar d path).result) files := by
  cases hfound : found engine.settings d target with
  | error e =>
      rw [scan_of_found_error hfound] at hreport
      cases hreport
  | ok files =>
      cases hseveral : parallel engine.settings files with
      | error e =>
          have hplan : (plan engine.settings d schedule target).result = .error e := by
            unfold plan
            rw [Traced.bind_result_eq_error_iff]
            refine .inr ⟨files, (exists_of_found hfound).2, ?_⟩
            rw [Traced.bind_result_eq_error_iff]
            exact .inl hseveral
          rw [scan_of_plan_error (exists_of_found hfound).1 hplan] at hreport
          cases hreport
      | ok several =>
          have hperm := perm_endOrder schedule several files
          obtain ⟨events, hscan⟩ := scan_eq_analyzeAll hfound hseveral
          rw [hscan] at hreport
          exact ⟨files, several, rfl, hseveral, (spares_of_analyzeAll hreport).perm hperm.symm⟩

/-! ## Failures that stay with their files -/

/-- The failure of a file's analysis, if it fails. -/
def failure? (grammar : Grammar) (d : Disk) (path : String) : Option Failure :=
  match (analyzeFile grammar d path).result with
  | .ok _ => none
  | .error e => some e

/-- The error of a file that has no report. -/
def analyzingError? (grammar : Grammar) (d : Disk) (path : String) : Option String :=
  (failure? grammar d path).map fun e => s!"Error analyzing {path}: {reason e}"

/-- The error of a file whose report says what is wrong with it. -/
def parsingError? (r : FileReport) : Option String :=
  r.error.map fun e => s!"Error parsing {r.path}: {e}"

/-- No analysis fails but on its own file. -/
def Contained (grammar : Grammar) (d : Disk) (files : List String) : Prop :=
  ∀ path ∈ files, ∀ e ∈ failure? grammar d path, isAbort e = false

theorem failure?_eq_some_iff {path : String} {e : Failure} :
    failure? grammar d path = some e ↔ (analyzeFile grammar d path).result = .error e := by
  unfold failure?
  cases (analyzeFile grammar d path).result with
  | ok r => simp
  | error e' => simp

/-- Failures that are contained abort no run. -/
theorem spares_of_contained (hcontained : Contained grammar d files) :
    Spares (fun path => (analyzeFile grammar d path).result) files := by
  intro path hpath e he
  rw [excuse?_of_analyzeFile he, hcontained path hpath e (failure?_eq_some_iff.mpr he)]
  rfl

/-- A failure that is contained is reported with the path of its file. -/
theorem loss?_of_contained (hcontained : Contained grammar d files) {path : String}
    (hpath : path ∈ files) :
    loss? (fun path => (analyzeFile grammar d path).result) path =
      analyzingError? grammar d path := by
  rw [loss?, analyzingError?]
  cases hresult : (analyzeFile grammar d path).result with
  | ok r =>
      have hnone : failure? grammar d path = none := by
        unfold failure?
        rw [hresult]
      simp [hnone]
  | error e =>
      have hfailure := failure?_eq_some_iff.mpr hresult
      simp [hfailure, excuse?_of_analyzeFile hresult, hcontained path hpath e hfailure]

/-- A report that failed is listed as one about syntax. -/
theorem parseError?_of_mem {r : FileReport}
    (hr : r ∈ files.filterMap (report? fun path => (analyzeFile grammar d path).result)) :
    parseError? r = parsingError? r := by
  obtain ⟨path, _, hreport⟩ := List.mem_filterMap.mp hr
  have hresult : (analyzeFile grammar d path).result = .ok r := by
    rw [report?] at hreport
    cases hcase : (analyzeFile grammar d path).result with
    | error e => simp [hcase, Except.toOption] at hreport
    | ok r' => simpa [hcase, Except.toOption] using hreport
  have hne := (isReportOf_analyzeFile hresult).error
  rw [parseError?, parsingError?]
  cases herror : r.error with
  | none => rfl
  | some error =>
      have hempty : error ≠ "" := fun hempty => hne (by rw [herror, hempty])
      simp [nonempty?, hempty]

/-- The report of a scan in which no analysis fails but on its own file. -/
theorem scan_of_contained {several : Bool} (engine : Engine) (schedule : Schedule) (clock : Clock)
    (hfound : found engine.settings d target = .ok files)
    (hseveral : parallel engine.settings files = .ok several)
    (hcontained : Contained grammar d files) :
    let outcome := fun path => (analyzeFile grammar d path).result
    let report := gathered engine.settings clock outcome files (endOrder schedule several files)
    (engine.scan grammar d schedule clock target).2.result = .ok report ∧
      (engine.scan grammar d schedule clock target).1.errors = report.errors ∧
      report.errors = (endOrder schedule several files).filterMap (analyzingError? grammar d) ++
        report.files.filterMap parsingError? := by
  intro outcome report
  have hspares := spares_of_contained hcontained
  have hscan := scan_of_spares engine schedule clock hfound hseveral hspares
  refine ⟨hscan.1, hscan.2, ?_⟩
  have hperm := perm_endOrder schedule several files
  have hanalyzing : (endOrder schedule several files).filterMap (loss? outcome) =
      (endOrder schedule several files).filterMap (analyzingError? grammar d) :=
    List.filterMap_congr fun path hpath =>
      loss?_of_contained hcontained (hperm.mem_iff.mp hpath)
  have hparsing : report.files.filterMap parseError? = report.files.filterMap parsingError? :=
    List.filterMap_congr fun r hr => parseError?_of_mem hr
  rw [← hanalyzing, ← hparsing]
  rfl

/-- An analysis that fails on more than its own file ends the scan. -/
theorem contained_of_spares
    (hspares : Spares (fun path => (analyzeFile grammar d path).result) files) :
    Contained grammar d files := by
  intro path hpath e he
  have hresult := failure?_eq_some_iff.mp he
  have hexcuse := hspares path hpath e hresult
  rw [excuse?_of_analyzeFile hresult] at hexcuse
  cases habort : isAbort e with
  | false => rfl
  | true => simp [habort] at hexcuse

/-! ## A scan of three files

Two of the files are refused, each for its content, and one does not parse.
-/

def threeSources : List (String × Entry) :=
  [("a.ts", .file [97]), ("b.ts", .file [98]), ("c.ts", .file [99])]

def threeOnDisk : Disk := { root := .directory [("p", .directory threeSources)] }

def ignoringNone : ScanSettings := { ignored := .list [] }

/-- A tree that is one fault. -/
def faulty : ParseTree := .node ⟨"ERROR", 0, 1, none, true, false⟩ []

def picky : Grammar := fun _ content =>
  if content = "b" then .tree true faulty else .refused content

theorem ok_of_toOption {α : Type} {x : Except Failure α} {a : α} (hx : x.toOption = some a) :
    x = .ok a := by
  cases x with
  | error e => cases hx
  | ok b => exact congrArg _ (Option.some.inj hx)

theorem under_threeSources :
    (Tour.under ⟨ignoringNone, threeOnDisk, "p"⟩ "p" (.directory threeSources)).result =
      .ok ["p/a.ts", "p/b.ts", "p/c.ts"] := by
  have hsorted : sortNames threeSources = threeSources :=
    List.mergeSort_of_pairwise (by decide)
  have hsources : (Tour.sources ⟨ignoringNone, threeOnDisk, "p"⟩ "p" threeSources).result.toOption =
      some ["p/a.ts", "p/b.ts", "p/c.ts"] := by decide +kernel
  rw [Tour.under, Tour.gather, Traced.bind_result_eq_ok_iff]
  refine ⟨[], rfl, ?_⟩
  rw [Traced.bind_result_eq_ok_iff]
  refine ⟨["p/a.ts", "p/b.ts", "p/c.ts"], ?_, ?_⟩
  · change (Tour.sources _ "p" (sortNames threeSources)).result = _
    rw [hsorted]
    exact ok_of_toOption hsources
  · rw [sortNames, List.mergeSort_nil]
    rfl

/-- All three files are found, in the order of their names. -/
theorem found_threeOnDisk :
    found ignoringNone threeOnDisk "p" = .ok ["p/a.ts", "p/b.ts", "p/c.ts"] := by
  have hsteps : Disk.steps (Path.join "/" "p") = ["p"] := by decide
  have hlocate : threeOnDisk.locate .entry "p" = .ok (.found ["p"] (.directory threeSources)) :=
    Disk.locate_of_steps ⟨by decide, by decide, by decide⟩ hsteps
      (.into rfl ⟨by decide, by decide, rfl, by decide⟩ rfl nofun (.arrived rfl))
  have hentry : threeOnDisk.entry "p" = .ok (.directory threeSources) := by
    rw [Disk.entry, hlocate]
    rfl
  have hexists : threeOnDisk.exists? "p" = true := by
    rw [Disk.exists?, Disk.entry?, hentry]
    rfl
  have hprobe : threeOnDisk.probe "p" = .ok (some (.directory threeSources)) := by
    rw [Disk.probe, hentry]
  have htidy : Path.tidy "p" = "p" := by decide
  rw [found, if_pos hexists]
  unfold discover
  simp only [htidy, hprobe]
  exact under_threeSources

/-- A file of one byte is read as the text of this byte. -/
theorem readText_threeOnDisk {name text : String} {byte : UInt8}
    (hname : threeSources.lookup name = some (.file [byte]))
    (haccepts : Disk.Accepts ("p/" ++ name)) (hplain : Disk.Plain .entry name [])
    (hsteps : Disk.steps (Path.join "/" ("p/" ++ name)) = ["p", name])
    (htext : Lines.universal (Utf8.decode [byte]) = text) :
    threeOnDisk.readText ("p/" ++ name) = .ok text := by
  have hp : Disk.Plain .entry "p" [name] :=
    ⟨by decide, by decide, rfl, by decide⟩
  have hlocate : threeOnDisk.locate .entry ("p/" ++ name) =
      .ok (.found ["p", name] (.file [byte])) := by
    refine Disk.locate_of_steps haccepts hsteps ?_
    refine .into rfl hp rfl nofun (.into rfl hplain hname nofun (.arrived ?_))
    simp [threeOnDisk, Entry.at?, Entry.entries, hname]
  rw [Disk.readText, Disk.readBytes, Disk.entry, hlocate, ← htext]
  rfl

theorem readText_a : threeOnDisk.readText "p/a.ts" = .ok "a" :=
  @readText_threeOnDisk "a.ts" "a" 97 rfl ⟨by decide, by decide, by decide⟩
    ⟨by decide, by decide, rfl, by decide⟩ (by decide)
    (by decide)

theorem readText_b : threeOnDisk.readText "p/b.ts" = .ok "b" :=
  @readText_threeOnDisk "b.ts" "b" 98 rfl ⟨by decide, by decide, by decide⟩
    ⟨by decide, by decide, rfl, by decide⟩ (by decide)
    (by decide)

theorem readText_c : threeOnDisk.readText "p/c.ts" = .ok "c" :=
  @readText_threeOnDisk "c.ts" "c" 99 rfl ⟨by decide, by decide, by decide⟩
    ⟨by decide, by decide, rfl, by decide⟩ (by decide)
    (by decide)

/-- The grammar refuses all but one text. -/
theorem analyzeFile_of_refused {content path : String} (hcontent : d.readText path = .ok content)
    (hrefused : content ≠ "b") :
    (analyzeFile picky d path).result = .error (.refused content) := by
  obtain ⟨dialect, hparse⟩ := exists_parse_result picky content path
  rw [picky, if_neg hrefused] at hparse
  exact analyzeFile_eq_iff.mpr (.failed hcontent hparse nofun)

/-- The report of a source that does not parse, with the line of its first fault. -/
def unparsed (path : String) : FileReport where
  path := path
  functions := []
  language := Analysis.languageName path none
  error := some (Failure.message (.syntaxError path (some 1)))

/-- The one text that it does not refuse has a fault, which is reported and does not fail. -/
theorem analyzeFile_of_faulty {path : String} (hcontent : d.readText path = .ok "b") :
    (analyzeFile picky d path).result = .ok (unparsed path) := by
  obtain ⟨dialect, hparse⟩ := exists_parse_result picky "b" path
  have hline : faulty.firstFaultLine? (Utf8.encode "b") = some 1 := by decide +kernel
  rw [picky, if_pos rfl, Parsed.ofAnswer, hline] at hparse
  exact analyzeFile_eq_iff.mpr (.unparsed hcontent hparse)

theorem analyzeFile_a : (analyzeFile picky threeOnDisk "p/a.ts").result = .error (.refused "a") :=
  analyzeFile_of_refused readText_a (by decide)

theorem analyzeFile_b : (analyzeFile picky threeOnDisk "p/b.ts").result = .ok (unparsed "p/b.ts") :=
  analyzeFile_of_faulty readText_b

theorem analyzeFile_c : (analyzeFile picky threeOnDisk "p/c.ts").result = .error (.refused "c") :=
  analyzeFile_of_refused readText_c (by decide)

theorem reports_threeOnDisk :
    ["p/a.ts", "p/b.ts", "p/c.ts"].filterMap
        (report? fun path => (analyzeFile picky threeOnDisk path).result) =
      [unparsed "p/b.ts"] := by
  rw [List.filterMap_cons_none (by rw [report?, analyzeFile_a]; rfl),
    List.filterMap_cons_some (by rw [report?, analyzeFile_b]; rfl),
    List.filterMap_cons_none (by rw [report?, analyzeFile_c]; rfl), List.filterMap_nil]

theorem contained_threeOnDisk : Contained picky threeOnDisk ["p/a.ts", "p/b.ts", "p/c.ts"] := by
  intro path hpath e he
  have hresult := failure?_eq_some_iff.mp he
  rcases List.mem_cons.mp hpath with rfl | hpath
  · obtain rfl := Except.error.inj (analyzeFile_a.symm.trans hresult)
    rfl
  · rcases List.mem_pair.mp hpath with rfl | rfl
    · rw [analyzeFile_b] at hresult
      cases hresult
    · obtain rfl := Except.error.inj (analyzeFile_c.symm.trans hresult)
      rfl

end Cyclomatic.Scan
