import Cyclomatic.Files.Basic
import Cyclomatic.Glob
import Cyclomatic.Scan.Settings

/-! # Which files a scan takes

A path is ignored if a pattern fits it, seen from the base of the scan, or fits
its name, or names one of the directories on its way. If there are patterns for
what to include, one of them must fit every file.
-/

namespace Cyclomatic

/-- The items that a value gives one after the other: a text gives its characters, a mapping
its keys. -/
def Value.iterate : Value → Except Failure (List Value)
  | .list items => .ok items
  | .text s => .ok (s.toList.map fun c => .text (String.singleton c))
  | .map entries => .ok (entries.map (·.1))
  | v => .error (.notIterable v.kindName)

/-- A value that is used as a path or pattern must be text. -/
def Value.asPath : Value → Except Failure String
  | .text s => .ok s
  | v => .error (.notPath v.kindName)

namespace Scan

/-- A path as patterns see it. -/
structure Subject where
  /-- The way from the base of the scan. -/
  relative : String
  name : String
  parts : List String
  deriving DecidableEq, Repr

def Subject.of (cwd path base : String) : Except Failure Subject :=
  match Path.relative? cwd path base with
  | some relative => .ok ⟨relative, Path.basename path, Path.rootedParts relative⟩
  | none => .error .emptyPath

/-- Whether a pattern fits the path or its name. -/
def Subject.fits (s : Subject) (pattern : String) : Bool :=
  Glob.fits pattern s.relative || Glob.fits pattern s.name

/-- The directory pattern inside a pattern that ends in a slash and two stars. -/
def directoryPattern? (pattern : String) : Option String :=
  if pattern.endsWith "/**" then some (String.ofList (pattern.toList.dropLast.dropLast.dropLast))
  else none

/-- Whether an ignore pattern applies. -/
def Subject.ignoredBy (s : Subject) (pattern : String) : Bool :=
  s.fits pattern || (directoryPattern? pattern).any fun p => s.parts.any (Glob.fits p)

/-- Whether a test holds of some pattern; those after it are not looked at. -/
def anyPattern (test : String → Bool) : List Value → Except Failure Bool
  | [] => .ok false
  | v :: vs => do
      if test (← v.asPath) then return true
      anyPattern test vs

/-- Whether a path is ignored, seen from a base. -/
def ignores (settings : ScanSettings) (d : Disk) (path base : String) : Except Failure Bool := do
  let subject ← Subject.of d.cwd path base
  if ← anyPattern subject.ignoredBy (← settings.ignored.iterate) then return true
  if settings.included.truthy && d.isFile path then
    return !(← anyPattern subject.fits (← settings.included.iterate))
  return false

end Scan

end Cyclomatic
