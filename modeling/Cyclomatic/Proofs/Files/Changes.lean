import Cyclomatic.Proofs.Files.Places
import Cyclomatic.Proofs.Text.Reading

/-! # What changes on a disk

Making directories puts directories where nothing was, and writing a file
changes one place. Neither loses anything that is seen elsewhere.
-/

namespace Cyclomatic.Disk

open Entry

variable {d later last : Disk} {path : String} {place : List String} {content : Bytes}

/-! ## New directories -/

/-- What is seen at a place stays, unless a directory is made where nothing was. -/
inductive Stays : Option Sight → Option Sight → Prop
  | same {s : Option Sight} : Stays s s
  | made : Stays none (some .directory)

/-- What stays through one change and through the next stays through both. -/
theorem Stays.trans {s t u : Option Sight} (hfirst : Stays s t) (hsecond : Stays t u) :
    Stays s u := by
  cases hfirst with
  | same => exact hsecond
  | made =>
      cases hsecond
      exact .made

/-- What is there stays as it is. Only where there was nothing may a directory be made. -/
theorem Stays.eq_some {s : Sight} {after : Option Sight} (hstays : Stays (some s) after) :
    after = some s := by
  cases hstays
  rfl

/-- What is no directory afterwards was the same before. -/
theorem Stays.eq_of_ne_directory {before after : Option Sight} (hstays : Stays before after)
    (hafter : after ≠ some .directory) : before = after := by
  cases hstays with
  | same => rfl
  | made => exact absurd rfl hafter

/-- A disk that has more directories and is otherwise the same. -/
structure Extends (d later : Disk) : Prop where
  cwd : later.cwd = d.cwd
  sight : ∀ place, Stays (d.root.sight? place) (later.root.sight? place)

theorem Extends.refl (d : Disk) : Extends d d := ⟨rfl, fun _ => .same⟩

/-- Directories made in two turns could have been made in one. -/
theorem Extends.trans (hlater : Extends d later) (hlast : Extends later last) :
    Extends d last where
  cwd := hlast.cwd.trans hlater.cwd
  sight place := (hlater.sight place).trans (hlast.sight place)

theorem Extends.sight_of_some (hlater : Extends d later) {s : Sight}
    (hs : d.root.sight? place = some s) : later.root.sight? place = some s :=
  (hs ▸ hlater.sight place).eq_some

/-- New directories take nothing away. -/
theorem Extends.keeps (hlater : Extends d later) : Keeps d.root later.root :=
  ⟨fun hfile => ⟨_, hlater.sight_of_some hfile⟩, hlater.sight_of_some, hlater.sight_of_some⟩

/-- A vacant spot has room for an entry, and nothing is seen there. -/
theorem room_of_isOn {root : Entry} {directory : List String} {name : String}
    (hspot : (Spot.vacant directory name).IsOn root) :
    Room root (directory ++ [name]) ∧ root.sight? (directory ++ [name]) = none := by
  obtain ⟨es, hdirectory, hname⟩ := hspot
  refine ⟨room_of_vacant hdirectory hname, ?_⟩
  rw [sight?, at?_append_singleton hdirectory, hname]
  rfl

/-- A name is found where it stands, or where there is room for it. -/
theorem isOn_of_locateName {spot : Spot} (hlocate : d.locateName path = .ok spot) :
    spot.IsOn d.root := by
  delta locateName at hlocate
  generalize hresult : d.locate .name (withoutSlash path) = result at hlocate
  split at hlocate
  next => cases hlocate
  next =>
    rw [hlocate] at hresult
    exact (locate_eq_ok_iff.mp hresult).2.spot_isOn

/-- To make a directory adds it, and changes nothing else. -/
theorem extends_makeDirectory (hmade : d.makeDirectory path = .ok later) : Extends d later := by
  rw [makeDirectory] at hmade
  cases hlocate : d.locateName path with
  | error e =>
      rw [hlocate] at hmade
      cases hmade
  | ok spot =>
      rw [hlocate] at hmade
      cases spot with
      | found place e => cases hmade
      | vacant directory name =>
          obtain rfl := Except.ok.inj hmade
          obtain ⟨hroom, hnone⟩ := room_of_isOn (isOn_of_locateName hlocate)
          refine ⟨rfl, fun other => ?_⟩
          rw [sight?_put hroom rfl]
          by_cases hother : other = directory ++ [name]
          · rw [if_pos hother, hother, hnone]
            exact .made
          · rw [if_neg hother]
            exact .same

/-- To make sure of a directory adds it or changes nothing. -/
theorem extends_ensureDirectory (hmade : d.ensureDirectory path = .ok later) :
    Extends d later := by
  delta ensureDirectory at hmade
  generalize hresult : d.makeDirectory path = result at hmade
  split at hmade
  next =>
    split at hmade
    next =>
      obtain rfl := Except.ok.inj hmade
      exact .refl d
    next => cases hmade
  next =>
    rw [hmade] at hresult
    exact extends_makeDirectory hresult

/-- A directory that is there already is left as it is. -/
theorem ensureDirectory_of_found {es : List (String × Entry)} (hpath : withoutSlash path = path)
    (hname : d.locate .name path = .ok (.found place (.directory es)))
    (hentry : d.locate .entry path = .ok (.found place (.directory es))) :
    d.ensureDirectory path = .ok d := by
  have hlocate : d.locateName path = .ok (.found place (.directory es)) := by
    delta locateName
    rw [hpath, hname]
  have hmake : d.makeDirectory path = .error (pathError .exists path) := by
    rw [makeDirectory, hlocate]
    rfl
  have hdirectory : d.isDirectory path = true := by
    rw [isDirectory, entry?, entry, hentry]
    rfl
  delta ensureDirectory
  rw [hmake, hdirectory]
  rfl

theorem extends_settle (hsettle : d.settle (d.ensureDirectory path) = (later, .ok ())) :
    Extends d later := by
  cases hmade : d.ensureDirectory path with
  | error e =>
      rw [hmade] at hsettle
      cases hsettle
  | ok made =>
      rw [hmade] at hsettle
      obtain rfl := (Prod.mk.inj hsettle).1
      exact extends_ensureDirectory hmade

/-- A directory is made below others that are made first, if that is what it failed for. -/
theorem extends_settleBelow {above : Unit → Disk × Except Failure Unit} {made : Except Failure Disk}
    (hmade : ∀ later, made = .ok later → Extends d later)
    (habove : ∀ later, above () = (later, .ok ()) → Extends d later)
    (hsettle : d.settleBelow above (·.ensureDirectory path) made = (later, .ok ())) :
    Extends d later := by
  cases made with
  | ok made =>
      obtain rfl := (Prod.mk.inj hsettle).1
      exact hmade made rfl
  | error e =>
      rw [settleBelow] at hsettle
      split at hsettle
      next =>
        -- What is above is made first, and then the directory.
        split at hsettle
        next between hbetween => exact (habove between hbetween).trans (extends_settle hsettle)
        next failed hfailed => exact absurd hsettle (hfailed later)
      next => cases hsettle

theorem makeParts_succ (d : Disk) (path : String) (count : Nat) :
    d.makeParts path (count + 1) =
      d.settleBelow (fun _ => d.makeParts path count)
        (·.ensureDirectory (partsPath path (count + 1)))
        (d.ensureDirectory (partsPath path (count + 1))) :=
  (rfl)

/-- All the directories of a path are made one after the other, and nothing else changes. -/
theorem extends_makeParts {count : Nat} (hmade : d.makeParts path count = (later, .ok ())) :
    Extends d later := by
  induction count generalizing later with
  | zero => exact extends_settle hmade
  | succ count ih =>
      rw [makeParts_succ] at hmade
      exact extends_settleBelow (fun _ => extends_ensureDirectory) (fun _ => ih) hmade

/-- To make a directory with all above it adds directories only. -/
theorem extends_makeDirectories (hmade : d.makeDirectories path = (later, .ok ())) :
    Extends d later :=
  extends_makeParts hmade

/-! ## Files -/

/-- What is seen where a file can be written: a file, or nothing. -/
inductive Writable (root : Entry) : Spot → Option Bytes → Prop
  | found {place : List String} {old : Bytes} (hplace : root.at? place = some (.file old)) :
      Writable root (.found place (.file old)) (some old)
  | vacant {directory : List String} {name : String}
      (hspot : (Spot.vacant directory name).IsOn root) : Writable root (.vacant directory name) none

/-- Where a file may be written there is what it held before, or nothing. -/
theorem Writable.sight {root : Entry} {spot : Spot} {old : Option Bytes}
    (hspot : Writable root spot old) : root.sight? spot.place = old.map .file := by
  cases hspot with
  | found hplace =>
      rw [Spot.place, sight?, hplace]
      rfl
  | vacant hspot => exact (room_of_isOn hspot).2

/-- Where a file may be written there is room for it. -/
theorem Writable.room {root : Entry} {spot : Spot} {old : Option Bytes}
    (hspot : Writable root spot old) : Room root spot.place := by
  cases hspot with
  | found hplace => exact room_of_at? hplace rfl
  | vacant hspot => exact (room_of_isOn hspot).1

/-- A disk on which one place holds a file and that is otherwise the same. -/
structure Holds (d : Disk) (place : List String) (content : Bytes) (later : Disk) : Prop where
  cwd : later.cwd = d.cwd
  sight : ∀ other, later.root.sight? other =
    if other = place then some (.file content) else d.root.sight? other
  keeps : Keeps d.root later.root

/-- The disk with a file at a place. -/
def withFile (d : Disk) (place : List String) (content : Bytes) : Disk :=
  { d with root := d.root.put place (.file content) }

/-- A file that is written holds what was written, and nothing else changes. -/
theorem Writable.holds {spot : Spot} {old : Option Bytes} (hspot : Writable d.root spot old)
    (content : Bytes) : Holds d spot.place content (d.withFile spot.place content) where
  cwd := rfl
  sight other := sight?_put hspot.room rfl other
  keeps := by
    cases old with
    | none => exact keeps_put_of_none hspot.room rfl hspot.sight
    | some old => exact keeps_put_of_file hspot.room hspot.sight

/-- A file is written at the spot that its path leads to. -/
theorem holds_of_writeBytes (hwrite : d.writeBytes path content = .ok later) :
    ∃ spot old, d.locate .writing path = .ok spot ∧ Writable d.root spot old ∧
      Holds d spot.place content later := by
  rw [writeBytes] at hwrite
  cases hlocate : d.locate .writing path with
  | error e =>
      rw [hlocate] at hwrite
      cases hwrite
  | ok spot =>
      have hisOn := (locate_eq_ok_iff.mp hlocate).2.spot_isOn
      rw [hlocate] at hwrite
      cases spot with
      | vacant directory name =>
          obtain rfl := Except.ok.inj hwrite
          have hspot : Writable d.root (.vacant directory name) none := .vacant hisOn
          exact ⟨_, none, rfl, hspot, hspot.holds content⟩
      | found place e =>
          cases e with
          | link target => cases hwrite
          | directory es => cases hwrite
          | file old =>
              obtain rfl := Except.ok.inj hwrite
              have hspot : Writable d.root (.found place (.file old)) (some old) := .found hisOn
              exact ⟨_, some old, rfl, hspot, hspot.holds content⟩

variable {spot : Spot} {old : Option Bytes}

/-- Where a file may be written, writing succeeds. -/
theorem Writable.writeBytes (hspot : Writable d.root spot old)
    (hlocate : d.locate .writing path = .ok spot) (content : Bytes) :
    d.writeBytes path content = .ok (d.withFile spot.place content) := by
  rw [Disk.writeBytes, hlocate]
  cases hspot <;> rfl

/-- What a path leads to where a file can be written. -/
theorem Writable.entry (hspot : Writable d.root spot old)
    (hlocate : d.locate .writing path = .ok spot) : d.entry path = match old with
      | some bytes => .ok (.file bytes)
      | none => .error (pathError .missing path) := by
  rw [Disk.entry, locate_entry_of_writing hlocate]
  cases hspot <;> rfl

/-- Where a file may be written, a probe finds the file that is there, or nothing. -/
theorem Writable.probe (hspot : Writable d.root spot old)
    (hlocate : d.locate .writing path = .ok spot) : d.probe path = .ok (old.map .file) := by
  rw [Disk.probe, hspot.entry hlocate]
  cases old <;> rfl

theorem at?_of_sight? {root : Entry} (hsight : root.sight? place = some (.file content)) :
    root.at? place = some (.file content) := by
  obtain ⟨e, he, hfile⟩ := Option.map_eq_some_iff.mp hsight
  cases e with
  | file bytes => rw [he, Sight.file.inj hfile]
  | link target => cases hfile
  | directory es => cases hfile

/-- A file that may be written over can be read. -/
theorem Writable.readBytes {bytes : Bytes} (hspot : Writable d.root spot (some bytes))
    (hlocate : d.locate .writing path = .ok spot) : d.readBytes path = .ok bytes := by
  rw [Disk.readBytes, hspot.entry hlocate]
  rfl

/-- A path that can be read leads to a file. -/
theorem exists_locate_of_readBytes {bytes : Bytes} (hread : d.readBytes path = .ok bytes) :
    ∃ place, d.locate .entry path = .ok (.found place (.file bytes)) := by
  rw [readBytes] at hread
  cases hentry : d.entry path with
  | error e =>
      rw [hentry] at hread
      cases hread
  | ok e =>
      rw [hentry] at hread
      cases e with
      | link target => cases hread
      | directory es => cases hread
      | file content =>
          obtain rfl : content = bytes := Except.ok.inj hread
          exact exists_locate_of_entry hentry

/-- What a path leads to is seen at its place. -/
theorem sight_of_locate {aim : Aim} {e : Entry}
    (hlocate : d.locate aim path = .ok (.found place e)) :
    d.root.sight? place = some e.sight := by
  have hplace : d.root.at? place = some e := (locate_eq_ok_iff.mp hlocate).2.spot_isOn
  rw [sight?, hplace]
  rfl

/-- A file is read strictly: its bytes have to be text, and line ends become line feeds. -/
theorem readStrict_eq {bytes : Bytes} (hbytes : d.readBytes path = .ok bytes) :
    d.readStrict path = match Utf8.decodeStrict bytes with
      | .ok text => .ok (Lines.universal text)
      | .error fault => .error (.encoding fault) := by
  rw [readStrict, hbytes]
  rfl

/-- A text that is read strictly is one whose bytes the file holds, up to its line ends. -/
theorem exists_text_of_readStrict {bytes : Bytes} {read : String}
    (hbytes : d.readBytes path = .ok bytes) (hread : d.readStrict path = .ok read) :
    ∃ text, bytes = Utf8.encode text ∧ read = Lines.universal text := by
  rw [readStrict_eq hbytes] at hread
  cases hdecode : Utf8.decodeStrict bytes with
  | error fault =>
      rw [hdecode] at hread
      cases hread
  | ok text =>
      rw [hdecode] at hread
      exact ⟨text, (Utf8.encode_of_decodeStrict hdecode).symm, (Except.ok.inj hread).symm⟩

/-- Whether a path leads to something at a place. -/
def leadsTo (d : Disk) (path : String) (place : List String) : Bool :=
  match d.locate .entry path with
  | .ok (.found found _) => found = place
  | _ => false

end Cyclomatic.Disk
