import Cyclomatic.Failure
import Cyclomatic.Path
import Cyclomatic.Text.Lines

/-! # A disk

A disk is a tree of files, links and directories, seen from a working
directory. A place is the list of names that leads to an entry from the root
without links; a path leads to a place through the links on its way.
-/

namespace Cyclomatic

inductive Entry where
  | file (content : Bytes)
  | link (target : String)
  | directory (entries : List (String × Entry))

structure Disk where
  root : Entry := .directory []
  cwd : String := "/"

namespace Entry

def entries : Entry → List (String × Entry)
  | .directory es => es
  | _ => []

def isDirectory : Entry → Bool
  | .directory _ => true
  | _ => false

def isFile : Entry → Bool
  | .file _ => true
  | _ => false

/-- The entry at a place. -/
def at? (e : Entry) : List String → Option Entry
  | [] => some e
  | name :: names => (e.entries.lookup name).bind (·.at? names)

/-- Give a name an entry: in its place if the name is there, else at the end. -/
def assign (name : String) (e : Entry) : List (String × Entry) → List (String × Entry)
  | [] => [(name, e)]
  | (n, old) :: rest => if n = name then (name, e) :: rest else (n, old) :: assign name e rest

/-- Put an entry at a place whose directory is there. -/
def put : Entry → List String → Entry → Entry
  | _, [], new => new
  | .directory es, name :: names, new =>
      .directory (assign name (((es.lookup name).getD (.directory [])).put names new) es)
  | e, _ :: _, _ => e

/-- Take out the entry at a place. -/
def take : Entry → List String → Entry
  | .directory es, [name] => .directory (es.filter (·.1 ≠ name))
  | .directory es, name :: names =>
      match es.lookup name with
      | some e => .directory (assign name (e.take names) es)
      | none => .directory es
  | e, _ => e

mutual

/-- The count of links in and below an entry. -/
def linkCount : Entry → Nat
  | .file _ => 0
  | .link _ => 1
  | .directory es => linkCountAll es

def linkCountAll : List (String × Entry) → Nat
  | [] => 0
  | (_, e) :: rest => linkCount e + linkCountAll rest

end

end Entry

/-- Names in the order of their code points. -/
def sortNames {α : Type} (xs : List (String × α)) : List (String × α) :=
  xs.mergeSort fun a b => !(b.1 < a.1)

/-- Where a path leads. -/
inductive Spot where
  | found (place : List String) (e : Entry)
  /-- Nothing has the name in a directory that is there. -/
  | vacant (directory : List String) (name : String)

/-- What a path is followed for. -/
inductive Aim where
  /-- The name at its end, also that of a link. -/
  | name
  /-- What it leads to. -/
  | entry
  /-- A file to write; with a slash at the end of a path or link there is none. -/
  | writing
  deriving DecidableEq

namespace Disk

/-- Names are at most this many bytes long. -/
def nameLimit : Nat := 255

/-- Paths are shorter than this many bytes. -/
def pathLimit : Nat := 4096

/-- More links than this on the way count as a circle. -/
def linkLimit : Nat := 40

def byteLength (s : String) : Nat := s.utf8ByteSize

/-- The steps of a path; an empty one at the end says that a directory must be there. -/
def steps (path : String) : List String :=
  let parts := Path.components path
  parts.dropLast.filter (!·.isEmpty) ++ parts.getLast?.toList

/-- Follow steps from a place. -/
def follow (root : Entry) (aim : Aim) (links : Nat) (place : List String) (names : List String) :
    Except FileError.Cause Spot :=
  match names with
  | [] =>
      match root.at? place with
      | some e => .ok (.found place e)
      | none => .error .missing
  | name :: rest =>
      match root.at? place with
      | some (.directory es) =>
          if name.isEmpty || name = "." then follow root aim links place rest
          else if name = ".." then follow root aim links place.dropLast rest
          else if aim = .writing && rest = [""] then .error .isDirectory
          else if nameLimit < byteLength name then .error .nameTooLong
          else
            match es.lookup name with
            | none => if rest.all (·.isEmpty) then .ok (.vacant place name) else .error .missing
            | some (.link target) =>
                if rest.isEmpty && aim = .name then .ok (.found (place ++ [name]) (.link target))
                else
                  match links with
                  | 0 => .error .tooManyLinks
                  | links + 1 =>
                      follow root aim links (if Path.isAbsolute target then [] else place)
                        (steps target ++ rest)
            | some _ => follow root aim links (place ++ [name]) rest
      | some _ => .error .notDirectory
      | none => .error .missing
termination_by (links, names.length)

def hasNull (path : String) : Bool := path.toList.contains '\x00'

/-- An error about a path. -/
def pathError (cause : FileError.Cause) (path : String) : Failure := .file { cause, path }

/-- Where a path leads, seen from the working directory. -/
def locate (d : Disk) (aim : Aim) (path : String) : Except Failure Spot :=
  if hasNull path then .error .nullInPath
  else if path.isEmpty then .error (pathError .missing path)
  else if pathLimit ≤ byteLength path then .error (pathError .nameTooLong path)
  else
    match follow d.root aim linkLimit [] (steps (Path.join d.cwd path)) with
    | .ok spot => .ok spot
    | .error cause => .error (pathError cause path)

/-- A path without the slashes at its end, unless it is all slashes. -/
def withoutSlash (path : String) : String :=
  let trimmed := (path.toList.reverse.dropWhile (· = '/')).reverse
  if trimmed.isEmpty then path else String.ofList trimmed

/-- The name that a path ends in, whatever it leads to; slashes after it do not count. -/
def locateName (d : Disk) (path : String) : Except Failure Spot :=
  match d.locate .name (withoutSlash path) with
  | .error (.file e) => .error (pathError e.cause path)
  | other => other

/-- The entry that a path leads to. -/
def entry (d : Disk) (path : String) : Except Failure Entry := do
  match ← d.locate .entry path with
  | .found _ e => return e
  | .vacant .. => throw (pathError .missing path)

/-- The entry a path leads to, if there is one; any fault counts as none. -/
def entry? (d : Disk) (path : String) : Option Entry :=
  match d.entry path with
  | .ok e => some e
  | .error _ => none

def exists? (d : Disk) (path : String) : Bool := (d.entry? path).isSome

def isFile (d : Disk) (path : String) : Bool := (d.entry? path).any (·.isFile)

def isDirectory (d : Disk) (path : String) : Bool := (d.entry? path).any (·.isDirectory)

/-- The entry a tidy path leads to, if there is one; a name that is too long is a fault. -/
def probe (d : Disk) (path : String) : Except Failure (Option Entry) :=
  match d.entry path with
  | .ok e => .ok (some e)
  | .error (.file e) => if e.cause = .nameTooLong then .error (.file e) else .ok none
  | .error _ => .ok none

/-! ## Contents -/

def readBytes (d : Disk) (path : String) : Except Failure Bytes := do
  match ← d.entry path with
  | .file content => return content
  | _ => throw (pathError .isDirectory path)

/-- The text of a file; bytes that are no text are replaced. -/
def readText (d : Disk) (path : String) : Except Failure String :=
  return Lines.universal (Utf8.decode (← d.readBytes path))

/-- The text of a file, all of whose bytes must be text. -/
def readStrict (d : Disk) (path : String) : Except Failure String := do
  match Utf8.decodeStrict (← d.readBytes path) with
  | .ok s => return Lines.universal s
  | .error fault => throw (.encoding fault)

def writeBytes (d : Disk) (path : String) (content : Bytes) : Except Failure Disk := do
  match ← d.locate .writing path with
  | .found place (.file _) => return { d with root := d.root.put place (.file content) }
  | .vacant directory name =>
      return { d with root := d.root.put (directory ++ [name]) (.file content) }
  | _ => throw (pathError .isDirectory path)

def writeText (d : Disk) (path text : String) : Except Failure Disk :=
  d.writeBytes path (Utf8.encode text)

/-! ## Directories -/

def makeDirectory (d : Disk) (path : String) : Except Failure Disk := do
  match ← d.locateName path with
  | .found .. => throw (pathError .exists path)
  | .vacant directory name =>
      return { d with root := d.root.put (directory ++ [name]) (.directory []) }

/-- A tidy path of a count of parts: the count falls when the last one is taken off. -/
def partsPath (path : String) (count : Nat) : String :=
  let text := Path.root path ++ Path.joinSlash ((Path.parts path).take count)
  if text.isEmpty then "." else text

/-- Make one directory; if there is one already, that is fine. -/
def ensureDirectory (d : Disk) (path : String) : Except Failure Disk :=
  match d.makeDirectory path with
  | .error (.file e) => if d.isDirectory path then .ok d else .error (.file e)
  | other => other

def isMissing : Failure → Bool
  | .file e => e.cause = .missing
  | _ => false

/-- The disk after a change; it stays as it is if the change fails. -/
def settle (d : Disk) : Except Failure Disk → Disk × Except Failure Unit
  | .ok made => (made, .ok ())
  | .error e => (d, .error e)

/-- The disk after a change that is made again, once what is above is there, if it fails because
that is missing. -/
def settleBelow (d : Disk) (above : Unit → Disk × Except Failure Unit)
    (again : Disk → Except Failure Disk) : Except Failure Disk → Disk × Except Failure Unit
  | .ok made => (made, .ok ())
  | .error e =>
      if isMissing e then
        match above () with
        | (d, .ok ()) => d.settle (again d)
        | failed => failed
      else (d, .error e)

/-- Make the directory of the first `count` parts of a path, and those above it as far as they
are missing. The disk keeps what was made before a fault. -/
def makeParts (d : Disk) (path : String) : Nat → Disk × Except Failure Unit
  | 0 => d.settle (d.ensureDirectory (partsPath path 0))
  | count + 1 =>
      d.settleBelow (fun _ => makeParts d path count)
        (·.ensureDirectory (partsPath path (count + 1)))
        (d.ensureDirectory (partsPath path (count + 1)))

/-- Make the directory that a path names, in its tidy form, and those above it. -/
def makeDirectories (d : Disk) (path : String) : Disk × Except Failure Unit :=
  d.makeParts path (Path.parts path).length

/-- What stands above the last component of a path, and that component; slashes at the end do
not count. -/
def splitLast (path : String) : String × String :=
  let above := Path.dirname path
  let last := Path.basename path
  if last.isEmpty then (Path.dirname above, Path.basename above) else (above, last)

/-- Make directories as `makePath` does; the fuel is the length of the path. -/
def makePathFrom : Nat → Disk → String → Disk × Except Failure Unit
  | 0, d, path => d.settle (d.ensureDirectory path)
  | fuel + 1, d, path =>
      let (above, last) := splitLast path
      if above.isEmpty || last.isEmpty || d.exists? above then d.settle (d.ensureDirectory path)
      else
        match makePathFrom fuel d above with
        | (d, .error e) => if isExists e then finish d last path else (d, .error e)
        | (d, .ok ()) => finish d last path
where
  isExists : Failure → Bool
    | .file e => e.cause = .exists
    | _ => false
  finish (d : Disk) (last path : String) : Disk × Except Failure Unit :=
    if last = "." then (d, .ok ()) else d.settle (d.ensureDirectory path)

/-- Make the directory that a path names as it is written, and first those above it that are
not there. -/
def makePath (d : Disk) (path : String) : Disk × Except Failure Unit :=
  makePathFrom path.length d path

/-! ## Links and removal -/

/-- Make a link at a path. Errors name the target first. -/
def makeLink (d : Disk) (path target : String) : Except Failure Disk :=
  let fail (cause : FileError.Cause) : Except Failure Disk :=
    .error (.file { cause, path := target, second := some path })
  if hasNull target || hasNull path then .error .nullInPath
  else if target.isEmpty then fail .missing
  else if pathLimit ≤ byteLength target then fail .nameTooLong
  else
    match d.locateName path with
    | .ok (.found ..) => fail .exists
    | .ok (.vacant directory name) =>
        if path ≠ withoutSlash path then fail .missing
        else .ok { d with root := d.root.put (directory ++ [name]) (.link target) }
    | .error (.file e) => fail e.cause
    | .error e => .error e

/-- Remove a file or a link, but no directory. -/
def remove (d : Disk) (path : String) : Except Failure Disk := do
  match ← d.locateName path with
  | .found _ (.directory _) => throw (pathError .isDirectory path)
  | .found place _ =>
      if path ≠ withoutSlash path then throw (pathError .notDirectory path)
      return { d with root := d.root.take place }
  | .vacant .. => throw (pathError .missing path)

/-! ## True paths -/

/-- What is still to do on the way to a true path: go to a name, or note that a link has been
followed to its end. -/
inductive Leg where
  | name (name : String)
  | arrived (link : List String)

/-- A path with legs after it as they are written: the rest of a link's target, then what follows
the link, and so on. An absolute piece takes the place of what is before it. -/
def unresolved (path : String) (piece : List String) : List Leg → String
  | [] => Path.join path (Path.joinSlash piece)
  | .name name :: rest => unresolved path (piece ++ [name]) rest
  | .arrived _ :: rest => unresolved (Path.join path (Path.joinSlash piece)) [] rest

/-- Follow legs to the path without links that they lead to; the part of it that is not there
is taken as written, and so is what comes after a link that leads back to itself. The links on
the way are kept, with the places that they lead to once these are known. -/
def trueFrom (root : Entry) (budget : Nat) (seen : List (List String × Option (List String)))
    (place : List String) (legs : List Leg) : Except Failure String :=
  match legs with
  | [] => .ok ("/" ++ Path.joinSlash place)
  | .arrived link :: rest => trueFrom root budget ((link, some place) :: seen) place rest
  | .name name :: rest =>
      if name.isEmpty || name = "." then trueFrom root budget seen place rest
      else if name = ".." then trueFrom root budget seen place.dropLast rest
      else if hasNull name then .error .nullInPath
      else
        let there := place ++ [name]
        let circle := Path.normal (unresolved ("/" ++ Path.joinSlash there) [] rest)
        match root.at? there, seen.lookup there with
        | some (.link _), some (some known) => trueFrom root budget seen known rest
        | some (.link target), none =>
            match budget with
            | 0 => .ok circle
            | budget + 1 =>
                trueFrom root budget ((there, none) :: seen)
                  (if Path.isAbsolute target then [] else place)
                  ((Path.components target).map .name ++ .arrived there :: rest)
        | some (.link _), some none => .ok circle
        | _, _ => trueFrom root budget seen there rest
termination_by (budget, legs.length)

/-- The path without links that a path leads to; a circle of links on it is a failure. -/
def truePath (d : Disk) (path : String) : Except Failure String := do
  let legs := (Path.components (Path.join d.cwd (Path.tidy path))).map Leg.name
  let found ← trueFrom d.root d.root.linkCount [] [] legs
  match d.entry found with
  | .error (.file e) =>
      if e.cause = .tooManyLinks then throw (.linkCircle found) else return found
  | .error .nullInPath => throw .nullInPath
  | _ => return found

/-! ## Listings -/

mutual

/-- Every entry below an entry, with its path: those of a directory before what is below them. -/
def listing (above : String) : Entry → List (String × Entry)
  | .directory es => (es.map fun (name, e) => (above ++ name, e)) ++ listingBelow above es
  | _ => []

def listingBelow (above : String) : List (String × Entry) → List (String × Entry)
  | [] => []
  | (name, e) :: rest => listing (above ++ name ++ "/") e ++ listingBelow above rest

end

/-- Every file and directory below the working directory, by its path, to which directories have a
slash; a link counts as what it leads to, and must lead somewhere. -/
def contents (d : Disk) : Except Failure (List (String × Entry)) := do
  let entries ← (listing "" (← d.entry ".")).mapM fun (path, e) => do
    let e ← match e with
      | .link _ => d.entry ("./" ++ path)
      | e => pure e
    return (if e.isDirectory then path ++ "/" else path, e)
  return sortNames entries

end Disk

/-- Whether an entry differs from the one that was in its place; directories differ by what is
below them. -/
def Entry.replaces : Entry → Option Entry → Bool
  | .directory _, some (.directory _) => false
  | .file new, some (.file old) => new ≠ old
  | .link new, some (.link old) => new ≠ old
  | _, _ => true

/-- What a later disk holds that an earlier one does not, a directory before what is below it. -/
def Disk.changes (earlier later : Disk) : List (String × Entry) :=
  (Disk.listing "/" later.root).filter fun (path, e) =>
    e.replaces (earlier.root.at? (Path.parts path))

end Cyclomatic
