import Cyclomatic.Event
import Cyclomatic.Scan.Select

/-! # Source files below a directory

The files of a directory come in the order of their names, before those of its
subdirectories. Links to directories are not followed; a link that leads
nowhere counts as a file that cannot be measured.
-/

namespace Cyclomatic

/-- A number without what is behind its point. -/
def Num.truncated : Num → String
  | .int i => toString i
  | .real x =>
      match x.toRatio? with
      | some (n, d) => toString (n.tdiv d)
      | none => x.toText

namespace Scan

/-- What a walk through a disk goes by: the base is the target as it was given. -/
structure Tour where
  settings : ScanSettings
  disk : Disk
  base : String

namespace Tour

variable (t : Tour)

def leadsToDirectory (path : String) : Entry → Bool
  | .directory _ => true
  | .file _ => false
  | .link _ => t.disk.isDirectory path

/-- The bytes of a file; a link is followed, and a directory has none of its own. What a walk
comes to is measured where it stands: its path is taken to be shorter than `Disk.pathLimit`, and
only that of a link is looked up. -/
def size (path : String) : Entry → Except Failure Nat
  | .file content => .ok content.length
  | .directory _ => .ok 0
  | .link _ => return match ← t.disk.entry path with
      | .file content => content.length
      | _ => 0

def ignores (path : String) : Traced Bool := .ofExcept (Scan.ignores t.settings t.disk path t.base)

/-- The names that are not ignored, each with what belongs to it. -/
def keep {α : Type} (top : String) : List (String × α) → Traced (List (String × α))
  | [] => return []
  | (name, a) :: rest => do
      let ignored ← t.ignores (Path.join top name)
      let kept ← keep top rest
      return if ignored then kept else (name, a) :: kept

/-- The size limit as notes show it. -/
def shownLimit : String := (t.settings.maxFileSize.number?.map (·.truncated)).getD ""

/-- Whether a file is small enough; a file that cannot be measured is not. -/
def measured (path : String) (e : Entry) : Traced Bool :=
  match t.size path e with
  | .ok size =>
      match (Value.nat size).compare .greater t.settings.maxFileSize with
      | .ok true => ⟨[.oversized path t.shownLimit], .ok false⟩
      | .ok false => return true
      | .error mismatch => .fail mismatch
  | .error failure => ⟨[.unmeasurable path failure.message], .ok false⟩

/-- The source files among the files of a directory. -/
def sources (top : String) : List (String × Entry) → Traced (List String)
  | [] => return []
  | (name, e) :: rest => do
      let path := Path.join top name
      if (Language.detect? path).isNone then sources top rest
      else if ← t.ignores path then sources top rest
      else if ← t.measured path e then return path :: (← sources top rest)
      else sources top rest

/-- One list after the other, as far as nothing fails. -/
def chain : List (Traced (List String)) → Traced (List String)
  | [] => return []
  | x :: xs => do
      let first ← x
      return first ++ (← chain xs)

/-- The files of a directory, with those below each of its subdirectories given. -/
def gather (top : String) (es : List (String × Entry))
    (below : List (String × Traced (List String))) : Traced (List String) := do
  let directories ← t.keep top below
  let files := es.filter fun (name, e) => !t.leadsToDirectory (Path.join top name) e
  let here ← t.sources top (sortNames files)
  return here ++ (← chain ((sortNames directories).map (·.2)))

mutual

/-- The source files below an entry under a path. -/
def under (top : String) : Entry → Traced (List String)
  | .directory es => t.gather top es (underAll top es)
  | .file _ | .link _ => return []

/-- The names that lead to directories, each with the source files below it. -/
def underAll (top : String) : List (String × Entry) → List (String × Traced (List String))
  | [] => []
  | (name, e) :: rest =>
      let path := Path.join top name
      if t.leadsToDirectory path e then (name, under path e) :: underAll top rest
      else underAll top rest

end

end Tour

/-- The source files that a target stands for: itself if it is a file. -/
def discover (settings : ScanSettings) (d : Disk) (target : String) : Traced (List String) := do
  let path := Path.tidy target
  match ← .ofExcept (d.probe path) with
  | some (.file _) => return [path]
  | some e => Tour.under ⟨settings, d, target⟩ path e
  | none => return []

end Scan

end Cyclomatic
