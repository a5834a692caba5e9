import Cyclomatic.Text.Quoted

/-! # File errors

What the file system answers when it cannot do what it is asked, with the path
it was asked about, or the two paths.
-/

namespace Cyclomatic

inductive FileError.Cause where
  | missing
  | exists
  | notDirectory
  | isDirectory
  | nameTooLong
  | tooManyLinks
  deriving DecidableEq, Repr

namespace FileError.Cause

def number : Cause → Nat
  | .missing => 2
  | .exists => 17
  | .notDirectory => 20
  | .isDirectory => 21
  | .nameTooLong => 36
  | .tooManyLinks => 40

def describe : Cause → String
  | .missing => "No such file or directory"
  | .exists => "File exists"
  | .notDirectory => "Not a directory"
  | .isDirectory => "Is a directory"
  | .nameTooLong => "File name too long"
  | .tooManyLinks => "Too many levels of symbolic links"

end FileError.Cause

structure FileError where
  cause : FileError.Cause
  path : String
  /-- A second path that was to lead to the first. -/
  second : Option String := none
  deriving DecidableEq, Repr

def FileError.message (e : FileError) : String :=
  let second := match e.second with
    | some path => " -> " ++ Quoted.encode path
    | none => ""
  s!"[Errno {e.cause.number}] {e.cause.describe}: {Quoted.encode e.path}{second}"

end Cyclomatic
