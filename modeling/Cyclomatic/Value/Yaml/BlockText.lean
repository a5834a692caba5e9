import Cyclomatic.Value.Yaml.Cursor

/-! # Scalars in blocks

The lines of a block scalar stand further in than the block around it. They are
kept apart, or folded into one where none of them starts with a blank. Marks at
its start say how far in it stands and which line breaks at its end count.
-/

namespace Cyclomatic.Yaml

/-- Which line breaks at the end of a block scalar count. -/
inductive Chomping where
  | strip
  | clip
  | keep
  deriving DecidableEq, Repr

def blockContext : String := "while scanning a block scalar"

def chomping (c : Cursor) : Option Chomping × Cursor :=
  if c.peek = '+' then (some .keep, c.next)
  else if c.peek = '-' then (some .strip, c.next)
  else (none, c)

def indentation (start : Mark) (c : Cursor) : Except Fault (Option Nat × Cursor) :=
  if c.peek = '0' then
    c.stop blockContext start "expected indentation indicator in the range 1-9, but found 0"
  else if c.peek.isDigit then .ok (some (c.peek.toNat - 48), c.next)
  else .ok (none, c)

/-- The marks at the start of a block scalar, in either order. -/
def blockMarks (start : Mark) (c : Cursor) : Except Fault (Chomping × Option Nat × Cursor) := do
  let (first, c) := chomping c
  let (indent, c) ← indentation start c
  let (second, c) := if first.isNone && indent.isSome then chomping c else (none, c)
  if endsMark c.peek then return ((first.or second).getD .clip, indent, c)
  else c.expected blockContext start "chomping or indentation indicators"

/-- The empty lines at a place, and how far in the text after them or any blanks stand. -/
def leadingLines : Nat → List Char → Nat → Cursor → List Char × Nat × Cursor
  | 0, breaks, widest, c => (breaks, widest, c)
  | fuel + 1, breaks, widest, c =>
      let c := c.skipSpaces
      let widest := max widest c.column
      match c.lineBreak? with
      | some (b, after) => leadingLines fuel (breaks ++ [b]) widest after
      | none => (breaks, widest, c)

/-- Go in to a column at most, over blanks. -/
def skipTo (column : Nat) (c : Cursor) : Cursor :=
  c.forward (min (c.rest.takeWhile (· = ' ')).length (column - c.column))

/-- The empty lines at a place, and the place after them. -/
def emptyLines (column : Nat) : Nat → List Char → Cursor → List Char × Cursor
  | 0, breaks, c => (breaks, c)
  | fuel + 1, breaks, c =>
      let c := skipTo column c
      match c.lineBreak? with
      | some (b, after) => emptyLines column fuel (breaks ++ [b]) after
      | none => (breaks, c)

/-- The lines of a block scalar at a column: their text, the break after the last one, and the
empty lines that follow. The text has its last character first. -/
def blockLines (fold : Bool) (column : Nat) :
    Nat → (acc ending breaks : List Char) → Cursor → List Char × List Char × List Char × Cursor
  | 0, acc, ending, breaks, c => (acc, ending, breaks, c)
  | fuel + 1, acc, ending, breaks, c =>
      if c.column ≠ column || c.atEnd then (acc, ending, breaks, c)
      else
        let (line, after) := c.takeWhile (!isBreak ·)
        let (ending, after) := match after.lineBreak? with
          | some (b, after) => ([b], after)
          | none => ([], after)
        let acc := line.reverse ++ breaks.reverse ++ acc
        let (breaks, after) := emptyLines column fuel [] after
        if after.column ≠ column || after.atEnd then (acc, ending, breaks, after)
        else
          let joined := fold && ending = ['\n'] && !isBlank c.peek && !isBlank after.peek
          let link := if !joined then ending else if breaks.isEmpty then [' '] else []
          blockLines fold column fuel (link ++ acc) ending breaks after

/-- A block scalar with the sign that starts it; its lines stand at least at a column. The fuel is
more than the count of characters that are left. -/
def blockText (fold : Bool) (least fuel : Nat) (c : Cursor) : Except Fault (String × Cursor) := do
  let start := c.mark
  let (chomping, indent, c) ← blockMarks start c.next
  let c ← c.restOfLine blockContext start
  let (column, breaks, c) := match indent with
    | some n =>
        let column := least + n - 1
        (column, emptyLines column fuel [] c)
    | none =>
        let (breaks, widest, c) := leadingLines fuel [] 0 c
        (max least widest, breaks, c)
  let (text, ending, breaks, c) := blockLines fold column fuel [] [] breaks c
  let tail := match chomping with
    | .strip => []
    | .clip => ending
    | .keep => ending ++ breaks
  return (String.ofList (text.reverse ++ tail), c)

end Cyclomatic.Yaml
