/-! # File paths

Paths are texts divided by slashes. Two readings of a path are in use: as
written, where the last component is what follows the last slash; and as
parts, where empty components and single dots do not count.
-/

namespace Cyclomatic.Path

/-- The components between slashes, empty ones included. -/
def components (path : String) : List String :=
  (path.toList.splitOn '/').map String.ofList

def joinSlash (parts : List String) : String := "/".intercalate parts

/-- The slashes a path starts with: none, one, or exactly two. -/
def root (path : String) : String :=
  match (path.toList.takeWhile (· = '/')).length with
  | 0 => ""
  | 2 => "//"
  | _ => "/"

def isAbsolute (path : String) : Bool := path.toList.head? == some '/'

/-- Two paths one after the other; an absolute second path stands alone. -/
def join (base path : String) : String :=
  if isAbsolute path || base.isEmpty then path
  else if base.toList.getLast? == some '/' then base ++ path
  else base ++ "/" ++ path

/-- What follows the last slash. -/
def basename (path : String) : String := ((components path).getLast?).getD ""

/-- What precedes the last slash, without slashes at its end unless there is nothing else. -/
def dirname (path : String) : String :=
  let head := path.toList.reverse.dropWhile (· ≠ '/')
  let trimmed := head.dropWhile (· = '/')
  String.ofList (if trimmed.isEmpty then head else trimmed).reverse

/-- Take one component into a normal path, whose components are in reverse. -/
def normalStep (rooted : Bool) (acc : List String) (part : String) : List String :=
  if part = "" || part = "." then acc
  else if part = ".." then
    match acc with
    | [] => if rooted then [] else [".."]
    | top :: rest => if top = ".." then ".." :: acc else rest
  else part :: acc

/-- A path without empty components, single dots, and double dots after a component. -/
def normal (path : String) : String :=
  let start := root path
  let parts := ((components path).foldl (normalStep (!start.isEmpty)) []).reverse
  let text := start ++ joinSlash parts
  if text.isEmpty then "." else text

/-- The normal absolute form of a path, seen from a directory. -/
def absolute (cwd path : String) : String :=
  normal (if isAbsolute path then path else join cwd path)

def names (path : String) : List String := (components path).filter (!·.isEmpty)

def dropCommon : List String → List String → List String × List String
  | x :: xs, y :: ys => if x = y then dropCommon xs ys else (x :: xs, y :: ys)
  | xs, ys => (xs, ys)

/-- The way from a base to a path; there is none for the empty path. -/
def relative? (cwd path base : String) : Option String :=
  if path.isEmpty then none
  else
    let (up, down) := dropCommon (names (absolute cwd base)) (names (absolute cwd path))
    let parts := up.map (fun _ => "..") ++ down
    some (if parts.isEmpty then "." else joinSlash parts)

/-- The extension of the last component as written, with its dot: there must be
something other than dots before it. -/
def extension (path : String) : String :=
  let name := (basename path).toList
  let after := name.reverse.takeWhile (· ≠ '.')
  let before := name.take (name.length - after.length)
  match before.reverse with
  | '.' :: stem => if stem.all (· = '.') then "" else String.ofList ('.' :: after.reverse)
  | _ => ""

/-! ## Paths as parts -/

/-- The components that count. -/
def parts (path : String) : List String :=
  (components path).filter fun part => !part.isEmpty && part ≠ "."

/-- A path with only the parts that count. -/
def tidy (path : String) : String :=
  let text := root path ++ joinSlash (parts path)
  if text.isEmpty then "." else text

/-- The parts with the root, if there is one, as the first. -/
def rootedParts (path : String) : List String :=
  if (root path).isEmpty then parts path else root path :: parts path

/-- The last part, empty if there is none. -/
def name (path : String) : String := ((parts path).getLast?).getD ""

/-- The place of the dot that divides a name: neither first nor last. -/
def dot? (name : List Char) : Option Nat :=
  let after := (name.reverse.takeWhile (· ≠ '.')).length
  if after = 0 || name.length ≤ after + 1 then none else some (name.length - after - 1)

/-- The last part from its dividing dot on. -/
def suffix (path : String) : String :=
  let chars := (name path).toList
  match dot? chars with
  | some i => String.ofList (chars.drop i)
  | none => ""

/-- The last part up to its dividing dot. -/
def stem (path : String) : String :=
  let chars := (name path).toList
  match dot? chars with
  | some i => String.ofList (chars.take i)
  | none => String.ofList chars

/-- A tidy path one part further down. -/
def child (directory part : String) : String :=
  if isAbsolute part then tidy part
  else
    let base := tidy directory
    tidy (if base = "." then part else join base part)

/-- The tidy path without its last part; a root is its own parent. -/
def parent (path : String) : String :=
  let text := root path ++ joinSlash (parts path).dropLast
  if text.isEmpty then "." else text

end Cyclomatic.Path
