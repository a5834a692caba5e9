import Cyclomatic.Metrics.Export
import Cyclomatic.Proofs.Files.Changes
import Cyclomatic.Proofs.Number.Text
import Cyclomatic.Proofs.Path
import Cyclomatic.Proofs.Text.Reading

/-! # An export loses no record

However many exports there are, a file that records go to holds what it held
before and then all its records, in the order of export, with separators
between them. Nothing else changes but for directories that are made. Paths are
told apart by the place they lead to: different names, directories and links
may lead to one file.
-/

namespace Cyclomatic.Metrics

open Entry

/-! ## File names -/

/-- No reserved character is left in a name. -/
theorem not_mem_sanitize {c : Char} (hc : c ∈ reservedChars) (name : String) :
    c ∉ (sanitize name).toList := by
  rw [sanitize, String.toList_map, List.mem_map]
  rintro ⟨other, _, hother⟩
  split at hother
  next =>
    subst hother
    exact absurd hc (by decide)
  next hnot =>
    subst hother
    exact hnot hc

theorem fileName_eq (path : String) (f : FunctionSummary) :
    fileName path f =
      sanitize (Path.stem path) ++ "_" ++ sanitize f.name ++ "_L" ++ toString f.line ++ ".txt" :=
  rfl

/-- The name of a record's file is one part of a path, even if a function's name holds slashes. -/
theorem slash_not_mem_fileName (path : String) (f : FunctionSummary) :
    '/' ∉ (fileName path f).toList := by
  have hreserved : '/' ∈ reservedChars := by decide
  rw [fileName_eq]
  simp only [String.toList_append, List.mem_append, not_or]
  exact ⟨⟨⟨⟨⟨not_mem_sanitize hreserved _, by decide⟩, not_mem_sanitize hreserved _⟩, by decide⟩,
    (numeric_toString f.line).not_mem (by decide)⟩, by decide⟩

theorem underscore_mem_fileName (path : String) (f : FunctionSummary) :
    '_' ∈ (fileName path f).toList := by
  rw [fileName_eq]
  simp

/-- Whatever a file and a function are called, the name of the record's file is one part of a
path, and it does not lead up. -/
theorem isPart_fileName (path : String) (f : FunctionSummary) :
    Path.IsPart (fileName path f) ∧ fileName path f ≠ ".." := by
  have hne : ∀ other : String, '_' ∉ other.toList → fileName path f ≠ other := by
    rintro other hother rfl
    exact hother (underscore_mem_fileName path f)
  exact ⟨⟨⟨hne "" (by decide), slash_not_mem_fileName path f⟩, hne "." (by decide)⟩,
    hne ".." (by decide)⟩

/-! ## Texts one after the other -/

/-- What stands between two records. -/
def divider : String := "\n" ++ separator ++ "\n"

def joined (pieces : List String) : String := divider.intercalate pieces

/-- Pieces as a file holds them: what comes before the last one has been read back, and reading
turns carriage returns into line feeds. -/
def settled : List String → List String
  | [] => []
  | [last] => [last]
  | piece :: next :: pieces => Lines.universal piece :: settled (next :: pieces)

/-- Pieces without carriage returns are held as they were written. -/
theorem settled_eq_self {pieces : List String} (hpieces : ∀ p ∈ pieces, '\r' ∉ p.toList) :
    settled pieces = pieces := by
  fun_induction settled pieces with
  | case1 => rfl
  | case2 last => rfl
  | case3 piece next pieces ih =>
      obtain ⟨hpiece, hrest⟩ := List.forall_mem_cons.mp hpieces
      rw [Lines.universal_eq_self hpiece, ih hrest]

theorem joined_singleton (piece : String) : joined [piece] = piece :=
  String.intercalate_singleton

/-- Between two pieces there is a divider. -/
theorem joined_cons (piece : String) {pieces : List String} (hpieces : pieces ≠ []) :
    joined (piece :: pieces) = piece ++ divider ++ joined pieces := by
  obtain ⟨next, more, rfl⟩ := List.exists_cons_of_ne_nil hpieces
  exact String.intercalate_cons_cons

theorem settled_ne_nil (piece : String) (pieces : List String) :
    settled (piece :: pieces) ≠ [] := by
  cases pieces <;> exact List.cons_ne_nil _ _

/-- A record that follows a text, and what follows then. -/
theorem joined_settled_append (previous : Option String) (record : String)
    (more : List String) :
    joined (settled (append (previous.map Lines.universal) record :: more)) =
      joined (settled (previous.toList ++ record :: more)) := by
  cases previous with
  | none => rfl
  | some text =>
      have happend : append (some (Lines.universal text)) record =
          Lines.universal text ++ divider ++ record := by
        simp [append, divider, String.append_assoc]
      change joined (settled (append (some (Lines.universal text)) record :: more)) =
        joined (Lines.universal text :: settled (record :: more))
      rw [happend, joined_cons _ (settled_ne_nil record more)]
      cases more with
      | nil => rw [settled, settled, joined_singleton, joined_singleton]
      | cons next more =>
          -- What was written is read back: only its last piece may still have carriage returns.
          have hfront : '\r' ∉ (Lines.universal text ++ divider).toList := by
            rw [String.toList_append, List.mem_append, not_or]
            exact ⟨Lines.not_mem_universal text, by decide⟩
          rw [settled, settled, joined_cons _ (settled_ne_nil next more),
            joined_cons _ (settled_ne_nil next more), Lines.universal_append hfront]
          simp only [String.append_assoc]

/-! ## Writing records -/

/-- Records are written one after the other, each under a path, and directories are made in
between. What a record follows is a text, and it is read before the record is written. -/
inductive Logs : Disk → List (String × String) → Disk → Prop
  | done {d : Disk} : Logs d [] d
  | extend {d between later : Disk} {log : List (String × String)} (hextends : d.Extends between)
      (hrest : Logs between log later) : Logs d log later
  | record {d between later : Disk} {path record : String} {spot : Spot}
      {log : List (String × String)} (previous : Option String)
      (hlocate : d.locate .writing path = .ok spot)
      (hprevious : d.root.sight? spot.place = previous.map (.file ∘ Utf8.encode))
      (hholds : d.Holds spot.place
        (Utf8.encode (append (previous.map Lines.universal) record)) between)
      (hrest : Logs between log later) : Logs d ((path, record) :: log) later

namespace Logs

variable {d between later : Disk} {log more : List (String × String)}

/-- Records written in two turns could have been written in one. -/
theorem trans (hfirst : Logs d log between) (hsecond : Logs between more later) :
    Logs d (log ++ more) later := by
  induction hfirst with
  | done => exact hsecond
  | extend hextends _ ih => exact .extend hextends (ih hsecond)
  | record previous hlocate hprevious hholds _ ih =>
      exact .record previous hlocate hprevious hholds (ih hsecond)

theorem cwd (hlogs : Logs d log later) : later.cwd = d.cwd := by
  induction hlogs with
  | done => rfl
  | extend hextends _ ih => exact ih.trans hextends.cwd
  | record _ _ _ hholds _ ih => exact ih.trans hholds.cwd

/-- Writing records takes away no file, no directory and no link. -/
theorem keeps (hlogs : Logs d log later) : Keeps d.root later.root := by
  induction hlogs with
  | done => exact .refl _
  | extend hextends _ ih => exact hextends.keeps.trans ih
  | record _ _ _ hholds _ ih => exact hholds.keeps.trans ih

/-- What a record was written to is found under its path from then on. -/
theorem locate_record {path : String} {spot : Spot} {content : Bytes}
    (hlocate : d.locate .writing path = .ok spot) (hholds : d.Holds spot.place content between)
    (hrest : Logs between log later) :
    ∃ bytes, later.locate .entry path = .ok (.found spot.place (.file bytes)) := by
  have hfile : between.root.sight? spot.place = some (.file content) := by
    rw [hholds.sight, if_pos rfl]
  obtain ⟨bytes, hbytes⟩ := hrest.keeps.file hfile
  exact ⟨bytes, Disk.locate_entry_of_keeps (hrest.cwd.trans hholds.cwd)
    (hholds.keeps.trans hrest.keeps) hlocate (Disk.at?_of_sight? hbytes)⟩

end Logs

/-- The records of a log whose paths lead to a place. -/
def recordsAt (d : Disk) (log : List (String × String)) (place : List String) : List String :=
  (log.filter fun entry => d.leadsTo entry.1 place).map (·.2)

namespace Logs

variable {d between later : Disk} {log : List (String × String)} {place : List String}

/-- A record goes to the place that its path leads to, and to no other. -/
theorem recordsAt_cons {path record : String} {spot : Spot} {content : Bytes}
    (hlocate : d.locate .writing path = .ok spot) (hholds : d.Holds spot.place content between)
    (hrest : Logs between log later) (place : List String) :
    recordsAt later ((path, record) :: log) place =
      if place = spot.place then record :: recordsAt later log place
      else recordsAt later log place := by
  obtain ⟨bytes, hfound⟩ := hrest.locate_record hlocate hholds
  have hleads : later.leadsTo path place = decide (spot.place = place) := by
    rw [Disk.leadsTo, hfound]
  rw [recordsAt, List.filter_cons, hleads]
  by_cases hplace : place = spot.place
  · simp [hplace, recordsAt]
  · simp [hplace, Ne.symm hplace, recordsAt]

/-- The path of a record leads to a file. -/
theorem exists_locate (hlogs : Logs d log later) {path record : String}
    (hmem : (path, record) ∈ log) :
    ∃ place content, later.locate .entry path = .ok (.found place (.file content)) := by
  induction hlogs with
  | done => cases hmem
  | extend _ _ ih => exact ih hmem
  | record _ hlocate _ hholds hrest ih =>
      rcases List.mem_cons.mp hmem with heq | hmem
      · obtain ⟨rfl, rfl⟩ := Prod.mk.inj heq
        exact ⟨_, hrest.locate_record hlocate hholds⟩
      · exact ih hmem

/-- What could be read under a path is at the place that the path leads to afterwards. -/
theorem sight_of_readBytes (hlogs : Logs d log later) {path : String} {content old : Bytes}
    (hlocate : later.locate .entry path = .ok (.found place (.file content)))
    (hread : d.readBytes path = .ok old) : d.root.sight? place = some (.file old) := by
  obtain ⟨first, hfirst⟩ := Disk.exists_locate_of_readBytes hread
  have hsight := Disk.sight_of_locate hfirst
  obtain ⟨bytes, hbytes⟩ := hlogs.keeps.file hsight
  have hlater := Disk.locate_entry_of_found hlogs.cwd hlogs.keeps hfirst (Disk.at?_of_sight? hbytes)
  rw [hlocate] at hlater
  cases hlater
  exact hsight

/-- Where no record goes, nothing changes. -/
theorem stays (hlogs : Logs d log later) (hnone : recordsAt later log place = []) :
    Disk.Stays (d.root.sight? place) (later.root.sight? place) := by
  induction hlogs with
  | done => exact .same
  | extend hextends _ ih => exact (hextends.sight place).trans (ih hnone)
  | record _ hlocate _ hholds hrest ih =>
      rw [recordsAt_cons hlocate hholds hrest] at hnone
      split at hnone
      next => cases hnone
      next hother =>
        have hstays := ih hnone
        rwa [hholds.sight, if_neg hother] at hstays

/-- A text is followed by the records that go to its place. -/
theorem sight_of_text (hlogs : Logs d log later) {text : String}
    (htext : d.root.sight? place = some (.file (Utf8.encode text))) :
    later.root.sight? place =
      some (.file (Utf8.encode (joined (settled (text :: recordsAt later log place))))) := by
  induction hlogs generalizing text with
  | done => exact htext
  | extend hextends _ ih => exact ih (hextends.sight_of_some htext)
  | record previous hlocate hprevious hholds hrest ih =>
      rw [recordsAt_cons hlocate hholds hrest]
      split
      next hplace =>
        subst hplace
        rw [hprevious] at htext
        obtain ⟨previous, rfl, hbytes⟩ := Option.map_eq_some_iff.mp htext
        obtain rfl := Utf8.encode_inj (Sight.file.inj hbytes)
        rw [ih (by rw [hholds.sight, if_pos rfl]), joined_settled_append]
        rfl
      next hother =>
        refine ih ?_
        rw [hholds.sight, if_neg hother, htext]

/-- Where records go, they follow what was there, in order. -/
theorem content (hlogs : Logs d log later) (hsome : recordsAt later log place ≠ []) :
    ∃ previous : Option String,
      d.root.sight? place = previous.map (.file ∘ Utf8.encode) ∧
      later.root.sight? place = some (.file (Utf8.encode
        (joined (settled (previous.toList ++ recordsAt later log place))))) := by
  induction hlogs with
  | done => exact absurd rfl hsome
  | extend hextends _ ih =>
      obtain ⟨previous, hbetween, hlater⟩ := ih hsome
      refine ⟨previous, ?_, hlater⟩
      rw [← hbetween]
      refine (hextends.sight place).eq_of_ne_directory ?_
      rw [hbetween]
      cases previous <;> exact nofun
  | record previous hlocate hprevious hholds hrest ih =>
      rw [recordsAt_cons hlocate hholds hrest] at hsome ⊢
      split
      next hplace =>
        subst hplace
        refine ⟨previous, hprevious, ?_⟩
        rw [hrest.sight_of_text (by rw [hholds.sight, if_pos rfl]), joined_settled_append]
      next hother =>
        rw [if_neg hother] at hsome
        obtain ⟨previous, hbetween, hlater⟩ := ih hsome
        rw [hholds.sight, if_neg hother] at hbetween
        exact ⟨previous, hbetween, hlater⟩

end Logs

/-! ## Exports -/

/-- A record that could be written has been written behind what was there. -/
theorem logs_of_writeRecord {d later : Disk} {path : String} {r : Record}
    (hwrite : writeRecord d path r = .ok later) : Logs d [(path, r.render)] later := by
  rw [writeRecord] at hwrite
  cases hprobe : d.probe path with
  | error e =>
      rw [hprobe] at hwrite
      cases hwrite
  | ok found =>
      rw [hprobe] at hwrite
      cases found with
      | none =>
          obtain ⟨spot, old, hlocate, hspot, hholds⟩ := Disk.holds_of_writeBytes hwrite
          rw [hspot.probe hlocate] at hprobe
          obtain rfl := Option.map_eq_none_iff.mp (Except.ok.inj hprobe)
          exact .record none hlocate hspot.sight hholds .done
      | some e =>
          cases hread : d.readStrict path with
          | error e =>
              rw [hread] at hwrite
              cases hwrite
          | ok read =>
              rw [hread] at hwrite
              obtain ⟨spot, old, hlocate, hspot, hholds⟩ := Disk.holds_of_writeBytes hwrite
              rw [hspot.probe hlocate] at hprobe
              obtain ⟨bytes, rfl, _⟩ := Option.map_eq_some_iff.mp (Except.ok.inj hprobe)
              obtain ⟨text, rfl, rfl⟩ :=
                Disk.exists_text_of_readStrict (hspot.readBytes hlocate) hread
              exact .record (some text) hlocate hspot.sight hholds .done

/-- The records of a batch as texts, each with the path of its file. -/
def Batch.log (b : Batch) : List (String × String) :=
  b.records.map fun (path, r) => (path, r.render)

/-- A note changes nothing about the paths that are answered. -/
theorem result_noted {event : Event} {target : String} {more : Traced (List String)}
    {paths : List String}
    (hpaths : (do
      Traced.note event
      return target :: (← more) : Traced (List String)).result = .ok paths) :
    ∃ rest, more.result = .ok rest ∧ paths = target :: rest := by
  obtain ⟨events, result⟩ := more
  cases result with
  | error e => cases hpaths
  | ok rest => exact ⟨rest, rfl, (Except.ok.inj hpaths).symm⟩

/-- Records that could all be written have been written one after the other, and their paths are
the answer. -/
theorem logs_of_writeAll {records : List (String × Record)} {d later : Disk}
    {written : Traced (List String)} {paths : List String}
    (hwrite : writeAll records d = (later, written)) (hpaths : written.result = .ok paths) :
    Logs d (records.map fun (path, r) => (path, r.render)) later ∧ paths = records.map (·.1) := by
  induction records generalizing d later written paths with
  | nil =>
      cases hwrite
      cases hpaths
      exact ⟨.done, rfl⟩
  | cons entry records ih =>
      obtain ⟨target, r⟩ := entry
      rw [writeAll] at hwrite
      cases hrecord : writeRecord d target r with
      | error e =>
          rw [hrecord] at hwrite
          cases hwrite
          cases hpaths
      | ok between =>
          rw [hrecord] at hwrite
          cases hrest : writeAll records between with
          | mk last more =>
              simp only [hrest] at hwrite
              cases hwrite
              obtain ⟨rest, hmore, rfl⟩ := result_noted hpaths
              obtain ⟨hlogs, rfl⟩ := ih hrest hmore
              exact ⟨(logs_of_writeRecord hrecord).trans hlogs, rfl⟩

/-- The paths of a batch: one for each function to export, file by file. -/
def Batch.paths (b : Batch) : List String :=
  b.files.flatMap fun file =>
    (file.functions.filter fun f => exceeds (.int f.complexity) b.threshold).map fun f =>
      Path.child b.directory (fileName file.path f)

namespace Batch

/-- The paths of the records are the paths of the functions to export. -/
theorem map_records (b : Batch) : b.records.map (·.1) = b.paths := by
  have hselected : b.records.map (·.1) = (selected b.files b.threshold).map
      fun target => Path.child b.directory (fileName target.1 target.2) := by
    rw [records, List.mapIdx_eq_zipIdx_map, List.map_map]
    conv => rhs; rw [← List.zipIdx_map_fst 0 (selected b.files b.threshold), List.map_map]
    rfl
  rw [hselected, selected, List.filter_flatMap, List.map_flatMap, paths]
  simp only [List.filter_map, List.map_map]
  rfl

theorem records_eq_nil_iff {b : Batch} : b.records = [] ↔ b.paths = [] := by
  rw [← map_records, List.map_eq_nil_iff]

/-- Without a function to export, nothing is done. -/
theorem run_of_nil {b : Batch} (hpaths : b.paths = []) (d : Disk) :
    (b.run d).1 = d ∧ (b.run d).2.result = .ok [] := by
  rw [run, records_eq_nil_iff.mpr hpaths]
  exact ⟨rfl, rfl⟩

/-- Once its directory is made, a batch writes its records. -/
theorem run_of_made {b : Batch} {d between : Disk} (hsome : b.records ≠ [])
    (hmade : d.makeDirectories b.directory = (between, .ok ())) :
    b.run d = writeAll b.records between := by
  rw [run]
  split
  next hnil => exact absurd hnil hsome
  next => rw [hmade]

/-- An export that succeeds has written its records, after directories at most. -/
theorem logs_of_run {b : Batch} {d later : Disk} {written : Traced (List String)}
    {paths : List String} (hrun : b.run d = (later, written))
    (hpaths : written.result = .ok paths) :
    Logs d b.log later ∧ paths = b.paths := by
  rw [← map_records, log]
  rw [run] at hrun
  split at hrun
  next hnil =>
    cases hrun
    cases hpaths
    rw [hnil]
    exact ⟨.done, rfl⟩
  next =>
    split at hrun
    next =>
      cases hrun
      cases hpaths
    next between hmade =>
      obtain ⟨hlogs, hpaths⟩ := logs_of_writeAll hrun hpaths
      exact ⟨.extend (Disk.extends_makeDirectories hmade) hlogs, hpaths⟩

end Batch

/-- Exports that succeed, one after the other, with what they answer. -/
inductive Exports : Disk → List Batch → List (List String) → Disk → Prop
  | done {d : Disk} : Exports d [] [] d
  | next {d between later : Disk} {b : Batch} {bs : List Batch} {written : Traced (List String)}
      {paths : List String} {answers : List (List String)} (hrun : b.run d = (between, written))
      (hpaths : written.result = .ok paths) (hrest : Exports between bs answers later) :
      Exports d (b :: bs) (paths :: answers) later

/-- Exports one after the other have written all their records, in order. -/
theorem Exports.logs {d later : Disk} {bs : List Batch} {answers : List (List String)}
    (hexports : Exports d bs answers later) :
    Logs d (bs.flatMap Batch.log) later ∧ answers = bs.map Batch.paths := by
  induction hexports with
  | done => exact ⟨.done, rfl⟩
  | next hrun hpaths _ ih =>
      obtain ⟨hfirst, rfl⟩ := Batch.logs_of_run hrun hpaths
      obtain ⟨hrest, rfl⟩ := ih
      exact ⟨hfirst.trans hrest, rfl⟩

/-- Every path of a batch is one part below the directory of the batch. -/
theorem Batch.isChild_of_mem_paths {b : Batch} {path : String} (hpath : path ∈ b.paths) :
    Path.parent path = Path.tidy b.directory ∧ Path.IsPart (Path.name path) ∧
      Path.name path ≠ ".." := by
  obtain ⟨file, _, hfunction⟩ := List.mem_flatMap.mp hpath
  obtain ⟨f, _, rfl⟩ := List.mem_map.mp hfunction
  obtain ⟨hpart, hup⟩ := isPart_fileName file.path f
  have hchild := Path.isChild_child hpart b.directory
  rw [hchild.name]
  exact ⟨hchild.parent, hpart, hup⟩

/-- Each path of a batch has a record in the log. -/
theorem Batch.exists_mem_log {bs : List Batch} {b : Batch} {path : String} (hb : b ∈ bs)
    (hpath : path ∈ b.paths) : ∃ record, (path, record) ∈ bs.flatMap log := by
  rw [← map_records] at hpath
  obtain ⟨⟨path, r⟩, hr, rfl⟩ := List.mem_map.mp hpath
  exact ⟨r.render, List.mem_flatMap.mpr ⟨b, hb, List.mem_map.mpr ⟨_, hr, rfl⟩⟩⟩

/-- Exports lose no record. Each answers with one path for each function to export, one part below
its directory, and the path leads to a file. Where the paths of records lead to a place, its file
holds the text it held before, if there was one, and then the records in order; where they do not,
nothing changes but for new directories. An export with nothing to do changes nothing. -/
theorem exports_append_only {d later : Disk} {bs : List Batch} {answers : List (List String)}
    (hexports : Exports d bs answers later) :
    answers = bs.map Batch.paths ∧
    (∀ b ∈ bs, ∀ path ∈ b.paths,
      (Path.parent path = Path.tidy b.directory ∧ Path.IsPart (Path.name path) ∧
        Path.name path ≠ "..") ∧
      ∃ place content, later.locate .entry path = .ok (.found place (.file content)) ∧
        ∀ old, d.readBytes path = .ok old → d.root.sight? place = some (.file old)) ∧
    (∀ place, recordsAt later (bs.flatMap Batch.log) place ≠ [] →
      ∃ previous : Option String, d.root.sight? place = previous.map (.file ∘ Utf8.encode) ∧
        let pieces := previous.toList ++ recordsAt later (bs.flatMap Batch.log) place
        later.root.sight? place = some (.file (Utf8.encode (joined (settled pieces)))) ∧
        ((∀ piece ∈ pieces, '\r' ∉ piece.toList) → settled pieces = pieces)) ∧
    (∀ place, recordsAt later (bs.flatMap Batch.log) place = [] →
      Disk.Stays (d.root.sight? place) (later.root.sight? place)) ∧
    ∀ (b : Batch) (disk : Disk), b.paths = [] →
      (b.run disk).1 = disk ∧ (b.run disk).2.result = .ok [] := by
  obtain ⟨hlogs, hanswers⟩ := hexports.logs
  refine ⟨hanswers, fun b hb path hpath => ⟨Batch.isChild_of_mem_paths hpath, ?_⟩,
    fun place hsome => ?_, fun place hnone => hlogs.stays hnone,
    fun b disk hpaths => Batch.run_of_nil hpaths disk⟩
  · obtain ⟨record, hmem⟩ := Batch.exists_mem_log hb hpath
    obtain ⟨place, content, hlocate⟩ := hlogs.exists_locate hmem
    exact ⟨place, content, hlocate, fun old hold => hlogs.sight_of_readBytes hlocate hold⟩
  · obtain ⟨previous, hprevious, hlater⟩ := hlogs.content hsome
    exact ⟨previous, hprevious, hlater, settled_eq_self⟩

/-! ## An export on a disk -/

/-- A record can be written where there is text, or nothing. -/
theorem writeRecord_of_writable {d : Disk} {path : String} {spot : Spot} (r : Record)
    {previous : Option String} (hlocate : d.locate .writing path = .ok spot)
    (hspot : Disk.Writable d.root spot (previous.map Utf8.encode))
    (htext : ∀ text ∈ previous, Utf8.decodeStrict (Utf8.encode text) = .ok text) :
    writeRecord d path r = .ok (d.withFile spot.place
      (Utf8.encode (append (previous.map Lines.universal) r.render))) := by
  rw [writeRecord, hspot.probe hlocate]
  cases previous with
  | none => exact hspot.writeBytes hlocate _
  | some text =>
      have hread : d.readStrict path = .ok (Lines.universal text) := by
        rw [Disk.readStrict_eq (hspot.readBytes hlocate), htext text rfl]
      change (do
        let previous ← some <$> d.readStrict path
        d.writeText path (append previous r.render)) = _
      rw [hread]
      exact hspot.writeBytes hlocate _

/-- A disk with a file that records go to. -/
def heldOnDisk (text : String) : Disk :=
  { root := .directory [("out", .directory [("a_f_L1.txt", .file (Utf8.encode text))])] }

/-- Three functions, of which two are to be exported; their records go to one file. -/
def twoLarge : Batch where
  files := [{ path := "x/a.ts", functions := [⟨"f", 1, 10, 0⟩, ⟨"g", 5, 3, 0⟩] },
    { path := "y/a.ts", functions := [⟨"f", 1, 4, 0⟩] }]
  threshold := .int 2
  directory := "out"
  clock i := ⟨2024, 1, 1, 0, 0, i, 0⟩

def noneLarge : Batch := { twoLarge with threshold := .int 6 }

def firstRecord : Record := Record.of "x/a.ts" ⟨"f", 1, 10, 0⟩ (.int 2) ⟨2024, 1, 1, 0, 0, 0, 0⟩

def secondRecord : Record := Record.of "y/a.ts" ⟨"f", 1, 4, 0⟩ (.int 2) ⟨2024, 1, 1, 0, 0, 1, 0⟩

theorem render_firstRecord : firstRecord.render =
    "\n".intercalate ["Metric : complexity metric", "Region : f (a.ts:1)", "Value : 10",
      "Modified : 2024-01-01T00:00:00+00:00", "Trend : N/A", "Limit : 2"] := by
  decide +kernel

theorem render_secondRecord : secondRecord.render =
    "\n".intercalate ["Metric : complexity metric", "Region : f (a.ts:1)", "Value : 4",
      "Modified : 2024-01-01T00:00:01+00:00", "Trend : N/A", "Limit : 2"] := by
  decide +kernel

theorem locate_out (text : String) (aim : Aim) : (heldOnDisk text).locate aim "out" =
    .ok (.found ["out"] (.directory [("a_f_L1.txt", .file (Utf8.encode text))])) :=
  have hsteps : Disk.steps (Path.join "/" "out") = ["out"] := by decide
  Disk.locate_of_steps ⟨by decide, by decide, by decide⟩ hsteps
    (.into rfl ⟨by decide, by decide, by simp, by decide⟩ rfl nofun (.arrived rfl))

/-- The directory is there already. -/
theorem makeDirectories_heldOnDisk (text : String) :
    (heldOnDisk text).makeDirectories "out" = (heldOnDisk text, .ok ()) := by
  have hparts : (Path.parts "out").length = 1 := by decide
  have hpath : Disk.partsPath "out" 1 = "out" := by decide
  have hensure :=
    Disk.ensureDirectory_of_found (by decide) (locate_out text .name) (locate_out text .entry)
  rw [Disk.makeDirectories, hparts, Disk.makeParts_succ, hpath, hensure]
  rfl

theorem locate_heldOnDisk (text : String) : (heldOnDisk text).locate .writing "out/a_f_L1.txt" =
    .ok (.found ["out", "a_f_L1.txt"] (.file (Utf8.encode text))) := by
  have hsteps : Disk.steps (Path.join "/" "out/a_f_L1.txt") = ["out", "a_f_L1.txt"] := by decide
  refine Disk.locate_of_steps ⟨by decide, by decide, by decide⟩ hsteps ?_
  refine .into rfl ⟨by decide, by decide, by decide, by decide⟩ rfl nofun ?_
  exact .into rfl ⟨by decide, by decide, by decide, by decide⟩ rfl nofun (.arrived rfl)

/-- The file may be written over. -/
theorem writable_heldOnDisk (text : String) : Disk.Writable (heldOnDisk text).root
    (.found ["out", "a_f_L1.txt"] (.file (Utf8.encode text))) ((some text).map Utf8.encode) :=
  .found rfl

theorem withFile_heldOnDisk (text later : String) :
    (heldOnDisk text).withFile ["out", "a_f_L1.txt"] (Utf8.encode later) = heldOnDisk later :=
  rfl

theorem holds_heldOnDisk (text later : String) :
    (heldOnDisk text).Holds ["out", "a_f_L1.txt"] (Utf8.encode later) (heldOnDisk later) :=
  (writable_heldOnDisk text).holds _

/-- A record goes behind the text that the file holds. -/
theorem writeRecord_heldOnDisk {text : String} (r : Record)
    (htext : Utf8.decodeStrict (Utf8.encode text) = .ok text) :
    writeRecord (heldOnDisk text) "out/a_f_L1.txt" r =
      .ok (heldOnDisk (append (some (Lines.universal text)) r.render)) := by
  rw [writeRecord_of_writable r (locate_heldOnDisk text) (writable_heldOnDisk text)
    fun _ hmem => Option.some.inj hmem ▸ htext]
  exact congrArg Except.ok (withFile_heldOnDisk text _)

theorem records_twoLarge : twoLarge.records =
    [("out/a_f_L1.txt", firstRecord), ("out/a_f_L1.txt", secondRecord)] := by
  decide +kernel

theorem paths_noneLarge : noneLarge.paths = [] := by decide

theorem log_twoLarge_noneLarge : [twoLarge, noneLarge].flatMap Batch.log =
    [("out/a_f_L1.txt", firstRecord.render), ("out/a_f_L1.txt", secondRecord.render)] := by
  have hnone : noneLarge.log = [] := by
    rw [Batch.log, Batch.records_eq_nil_iff.mpr paths_noneLarge]
    rfl
  rw [List.flatMap_cons, List.flatMap_singleton, hnone, Batch.log, records_twoLarge]
  rfl

/-- The text after the first record, which is read back for the second one. -/
def afterFirst : String := append (some "old") firstRecord.render

def afterBoth : String := append (some afterFirst) secondRecord.render

theorem writeRecord_first : writeRecord (heldOnDisk "old") "out/a_f_L1.txt" firstRecord =
    .ok (heldOnDisk afterFirst) := by
  have htext : Lines.universal "old" = "old" := by decide
  rw [writeRecord_heldOnDisk _ (Utf8.decodeStrict_encode (by decide +kernel)), htext]
  rfl

theorem writeRecord_second : writeRecord (heldOnDisk afterFirst) "out/a_f_L1.txt" secondRecord =
    .ok (heldOnDisk afterBoth) := by
  have htext : Lines.universal afterFirst = afterFirst := by decide +kernel
  rw [writeRecord_heldOnDisk _ (Utf8.decodeStrict_encode (by decide +kernel)), htext]
  rfl

/-- The second record is written behind the first. -/
theorem run_twoLarge : (twoLarge.run (heldOnDisk "old")).1 = heldOnDisk afterBoth ∧
    (twoLarge.run (heldOnDisk "old")).2.result = .ok ["out/a_f_L1.txt", "out/a_f_L1.txt"] := by
  have hsome : twoLarge.records ≠ [] := by simp [records_twoLarge]
  have hrun := Batch.run_of_made hsome (makeDirectories_heldOnDisk "old")
  rw [records_twoLarge] at hrun
  rw [hrun]
  simp only [writeAll, writeRecord_first, writeRecord_second, true_and]
  rfl

/-- Both records are at the place of the file. -/
theorem recordsAt_twoLarge : recordsAt (heldOnDisk afterBoth)
    ([twoLarge, noneLarge].flatMap Batch.log) ["out", "a_f_L1.txt"] =
      [firstRecord.render, secondRecord.render] := by
  have hsecond := logs_of_writeRecord writeRecord_second
  rw [log_twoLarge_noneLarge, Logs.recordsAt_cons (locate_heldOnDisk "old") (holds_heldOnDisk _ _)
    hsecond, Logs.recordsAt_cons (locate_heldOnDisk afterFirst) (holds_heldOnDisk _ _) .done]
  rfl

/-- Both records follow the text that was there, and an export of nothing leaves it at that. -/
theorem heldOnDisk_exported :
    ∃ later, Exports (heldOnDisk "old") [twoLarge, noneLarge]
        [["out/a_f_L1.txt", "out/a_f_L1.txt"], []] later ∧
      later.root.sight? ["out", "a_f_L1.txt"] = some (.file (Utf8.encode (joined
        ["old",
          "\n".intercalate ["Metric : complexity metric", "Region : f (a.ts:1)", "Value : 10",
            "Modified : 2024-01-01T00:00:00+00:00", "Trend : N/A", "Limit : 2"],
          "\n".intercalate ["Metric : complexity metric", "Region : f (a.ts:1)", "Value : 4",
            "Modified : 2024-01-01T00:00:01+00:00", "Trend : N/A", "Limit : 2"]]))) := by
  obtain ⟨hdisk, hwritten⟩ := run_twoLarge
  obtain ⟨hsame, hnothing⟩ := Batch.run_of_nil paths_noneLarge (twoLarge.run (heldOnDisk "old")).1
  have hexports : Exports (heldOnDisk "old") [twoLarge, noneLarge]
      [["out/a_f_L1.txt", "out/a_f_L1.txt"], []]
      (noneLarge.run (twoLarge.run (heldOnDisk "old")).1).1 :=
    .next rfl hwritten (.next rfl hnothing .done)
  rw [hsame, hdisk] at hexports
  refine ⟨_, hexports, ?_⟩
  obtain ⟨_, _, hcontent, _⟩ := exports_append_only hexports
  obtain ⟨previous, hprevious, hsight, hplain⟩ :=
    hcontent ["out", "a_f_L1.txt"] (recordsAt_twoLarge ▸ List.cons_ne_nil _ _)
  have hold : previous = some "old" := by
    have hfound : (heldOnDisk "old").root.sight? ["out", "a_f_L1.txt"] =
        some (.file (Utf8.encode "old")) := (writable_heldOnDisk "old").sight
    rw [hfound] at hprevious
    cases previous with
    | none => cases hprevious
    | some text =>
        injection hprevious with hfile
        injection hfile with hbytes
        rw [Utf8.encode_inj hbytes]
  rw [recordsAt_twoLarge, render_firstRecord, render_secondRecord, hold] at hsight hplain
  rw [hsight, hplain (by decide +kernel)]
  rfl

end Cyclomatic.Metrics
