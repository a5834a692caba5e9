import Cyclomatic.Value.Basic

/-! # Places and faults in block-structured text

A fault names the place where the text goes wrong and, where that helps, the
place where the construct around it starts. Its message shows both lines with a
pointer below them.
-/

namespace Cyclomatic.Yaml

def isBreak (c : Char) : Bool :=
  c = '\n' || c = '\r' || c = '\x85' || c = '\u2028' || c = '\u2029'

/-- A place in a text; all three counts start at zero. -/
structure Mark where
  line : Nat := 0
  column : Nat := 0
  index : Nat := 0
  deriving DecidableEq, Repr

/-- Why a text is not understood. -/
inductive Fault where
  /-- A character that no text may hold. -/
  | character (c : Char) (index : Nat)
  /-- What is wrong at a place, and what was being done. -/
  | problem (context : Option (String × Option Mark)) (text : String) (mark : Mark)
  /-- An escape by code that is no character. -/
  | code (n : Nat)
  /-- A whole number with too many digits. -/
  | digits (count : Nat)
  /-- Not a whole number to a base. -/
  | integer (base : Nat) (text : String)
  /-- Not a floating-point number. -/
  | real (text : String)
  | overflow (error : Overflow)
  /-- A number of no characters. -/
  | emptyNumber
  /-- Not a boolean. -/
  | truth (text : String)
  /-- Collections stand too deep inside each other. -/
  | nesting
  deriving DecidableEq, Repr

/-- The name that messages give the text. -/
def sourceName : String := "\"<unicode string>\""

namespace Mark

/-- The place one character further on the same line. -/
def next (m : Mark) : Mark := ⟨m.line, m.column + 1, m.index + 1⟩

/-- Longer stretches of a line are shown in part. -/
def shownLimit : Nat := 36

/-- The stretch nearest to a place, and whether something is left out. -/
def near (cs : List Char) : List Char × Bool :=
  let line := cs.takeWhile (!isBreak ·)
  if shownLimit < line.length then (line.take (shownLimit - 4), true) else (line, false)

def omission : String := " ... "

/-- The line of a place, and below it a pointer. -/
def snippet (text : List Char) (m : Mark) : String :=
  let (before, cutBefore) := near (text.take m.index).reverse
  let (after, cutAfter) := near (text.drop m.index)
  let head := if cutBefore then omission else ""
  let tail := if cutAfter then omission else ""
  let pointer := List.replicate (4 + head.length + before.length) ' '
  "    " ++ head ++ String.ofList (before.reverse ++ after) ++ tail ++ "\n" ++
    String.ofList pointer ++ "^"

def describe (text : List Char) (m : Mark) : String :=
  s!"  in {sourceName}, line {m.line + 1}, column {m.column + 1}:\n" ++ m.snippet text

end Mark

namespace Fault

/-- Codes from here on are not looked at. -/
def codeLimit : Nat := Nat.pow 2 31

/-- The lines on what was being done; its place is left out if it is that of the problem. -/
def contextLines (text : List Char) (mark : Mark) : Option (String × Option Mark) → List String
  | none => []
  | some (context, none) => [context]
  | some (context, some place) =>
      if place.line = mark.line && place.column = mark.column then [context]
      else [context, place.describe text]

def message (text : List Char) : Fault → String
  | .character c index =>
      let code := String.ofList (Quoted.hexDigits 4 c.toNat)
      s!"unacceptable character #x{code}: special characters are not allowed\n" ++
        s!"  in {sourceName}, position {index}"
  | .problem context what mark =>
      "\n".intercalate (contextLines text mark context ++ [what, mark.describe text])
  | .code n =>
      if n < codeLimit then "chr() arg not in range(0x110000)"
      else "Python int too large to convert to C int"
  | .digits count => Num.tooManyDigits count
  | .integer base literal => s!"invalid literal for int() with base {base}: " ++ Quoted.encode literal
  | .real literal => "could not convert string to float: " ++ Quoted.encode literal
  | .overflow error => error.message
  | .emptyNumber => "string index out of range"
  | .truth word => Quoted.encode word
  | .nesting => "maximum recursion depth exceeded"

end Fault

/-- A text that is not understood, and why. -/
structure ReadError where
  text : List Char
  fault : Fault

def ReadError.message (e : ReadError) : String := e.fault.message e.text

end Cyclomatic.Yaml
