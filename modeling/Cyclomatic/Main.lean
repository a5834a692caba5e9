import Cyclomatic.Command.Run
import Cyclomatic.ParseTree.Table
import Std.Time

/-! # The program

The program reads the working directory, runs its command on what it has read,
writes what the command has changed, and prints what it has written. Parse trees
come from a file of records, one JSON object a line, which the environment
names.
-/

namespace Cyclomatic.Main

/-- The variable that names the file of parse trees. -/
def treesVariable : String := "CYCLOMATIC_TREES"

partial def readEntry (e : IO.FS.DirEntry) : IO (String × Entry) := do
  match (← e.path.symlinkMetadata).type with
  | .symlink => return (e.fileName, .link (toString (← IO.FS.realPath e.path)))
  | .dir =>
      let found ← e.path.readDir
      return (e.fileName, .directory (← found.toList.mapM readEntry))
  | _ => return (e.fileName, .file (← IO.FS.readBinFile e.path).toList)

/-- What stands at a path: a directory, a file, or nothing that can be read. -/
def readPath (path : String) : IO (Option Entry) := do
  try
    let found ← (← IO.FS.realPath path).readDir
    return some (.directory (← found.toList.mapM readEntry))
  catch _ =>
    try
      return some (.file (← IO.FS.readBinFile path).toList)
    catch _ => return none

/-- The paths that a command may look at: the working directory, what its arguments name, and
configuration files in the directories above. -/
def pathsToRead (cwd : String) (args : List String) : List String :=
  let above := (List.range (Path.parts cwd).length).flatMap fun count =>
    Config.fileNames.map fun name =>
      "/" ++ Path.joinSlash ((Path.parts cwd).take count ++ [name])
  above ++ args.map (Path.absolute cwd) ++ [cwd]

def readDisk (cwd : String) (args : List String) : IO Disk := do
  let mut root : Entry := .directory []
  for path in pathsToRead cwd args do
    if let some e ← readPath path then
      root := root.put (Path.parts path) e
  return { root, cwd }

def writeEntry (path : String) : Entry → IO Unit
  | .directory _ => IO.FS.createDirAll path
  | .file content => IO.FS.writeBinFile path ⟨content.toArray⟩
  | .link _ => return

def readTable : IO (List Entries) := do
  let some path ← IO.getEnv treesVariable | return []
  let lines := (← IO.FS.readFile path).splitOn "\n"
  return lines.filterMap fun line =>
    match Json.read line with
    | .ok (.map entries) => some entries
    | _ => none

def now : IO Moment := do
  let t := Std.Time.DateTime.ofTimestamp (← Std.Time.Timestamp.now) Std.Time.TimeZone.ZoneRules.UTC
  return ⟨t.year.toInt.toNat, t.month.toNat, t.day.toNat, t.hour.toNat, t.minute.toNat,
    t.second.toNat, t.nanosecond.toInt.toNat / 1000⟩

/-- A count of nanoseconds as seconds. -/
def seconds (nanoseconds : Nat) : Binary64 := Binary64.ofRatio false nanoseconds (Nat.pow 10 9)

end Cyclomatic.Main

open Cyclomatic in
def main (args : List String) : IO UInt32 := do
  let cwd := toString (← IO.currentDir)
  let start ← IO.monoNanosNow
  let disk ← Main.readDisk cwd args
  let stop ← IO.monoNanosNow
  let around : Command.Surroundings :=
    { grammar := Grammar.ofTable (← Main.readTable), now := ← Main.now
      clock := ⟨Main.seconds start, Main.seconds stop⟩
      terminal := ← (← IO.getStdout).isTty
      debug := (nonempty? (← IO.getEnv "DEBUG")).isSome }
  let outcome := Command.run around disk args
  for (path, e) in Disk.changes disk outcome.disk do
    Main.writeEntry path e
  IO.print outcome.output
  IO.eprint outcome.errors
  return ((outcome.code.getD 1).toNat).toUInt32
