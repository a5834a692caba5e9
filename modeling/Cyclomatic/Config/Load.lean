import Cyclomatic.Config.Basic
import Cyclomatic.Files.Basic
import Cyclomatic.Value.Yaml.Document

/-! # Configuration files

A configuration file is named, or looked for in a directory and those above it.
Its suffix says whether it is JSON; any other file is read as YAML.
-/

namespace Cyclomatic.Config

/-- The names that are looked for, in order. -/
def fileNames : List String :=
  [".complexityscanner.yaml", ".complexityscanner.yml", ".complexityscanner.json"]

/-- The first of some paths at which something is. -/
def firstPresent (d : Disk) : List String → Except Failure (Option String)
  | [] => .ok none
  | path :: rest => do
      if (← d.probe path).isSome then return some path
      firstPresent d rest

/-- The file that a directory holds. -/
def inDirectory (d : Disk) (place : List String) : Except Failure (Option String) :=
  firstPresent d (fileNames.map fun name => "/" ++ Path.joinSlash (place ++ [name]))

/-- The nearest file, from a place up to the root. -/
def findFrom (d : Disk) : (reversed : List String) → Except Failure (Option String)
  | [] => inDirectory d []
  | name :: above => do
      match ← inDirectory d (name :: above).reverse with
      | some path => return some path
      | none => findFrom d above

/-- The nearest configuration file from a path on; a path of a file counts as its directory. -/
def find (d : Disk) (start : String) : Except Failure (Option String) := do
  let path ← d.truePath start
  let place := (Path.parts path).reverse
  match ← d.probe path with
  | some (.file _) => findFrom d (place.drop 1)
  | _ => findFrom d place

/-- Collections in JSON files may stand this deep inside each other. -/
def nestingLimit : Nat := 980

/-- Collections in YAML files may stand this deep inside each other. -/
def blockNestingLimit : Nat := 485

/-- The value that a file's text gives. -/
def readValue (path content : String) : Except Failure Value :=
  if Path.suffix path = ".json" then
    match Json.readWithin nestingLimit content with
    | .ok v => .ok v
    | .error e => .error (.json e)
  else
    match Yaml.read blockNestingLimit content with
    | .ok v => .ok v
    | .error e => .error (.yaml e)

/-- The mapping that a file holds; an empty file holds an empty one. -/
def loadEntries (d : Disk) (path : String) : Except Failure Entries := do
  let path := Path.tidy path
  if (← d.probe path).isNone then throw (.configMissing path)
  match ← readValue path (← d.readStrict path) with
  | .null => return []
  | .map entries => return entries
  | _ => throw (.configNotMap path)

/-- The configuration of a named file, or of the nearest one, or the standard one. -/
def load (d : Disk) (path : Option String) (start : String) : Except Failure Config := do
  let path ← match path with
    | some path => pure (some path)
    | none => find d start
  match path with
  | some path => ofEntries (← loadEntries d path)
  | none => return {}

end Cyclomatic.Config
