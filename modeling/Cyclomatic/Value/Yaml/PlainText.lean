import Cyclomatic.Value.Yaml.Cursor

/-! # Scalars without quotes

A plain scalar is made of words with gaps between them. It ends at a comment, at
a colon with a blank behind it, at the marks of flow collections inside one, and
where the text goes back to the column of the block around it.
-/

namespace Cyclomatic.Yaml

def isFlowMark (c : Char) : Bool := c ∈ ",[]\x7b\x7d".toList

/-- The characters of a plain scalar up to a blank or to what ends it. -/
def word (inFlow : Bool) : List Char → List Char
  | [] => []
  | c :: cs =>
      let next := cs.headD '\x00'
      if endsWord c then []
      else if c = ':' && (endsWord next || (inFlow && isFlowMark next)) then []
      else if inFlow && (c = '?' || isFlowMark c) then []
      else c :: word inFlow cs

/-- The line breaks after a first one, with the blanks around them; none if a separator comes,
and then the place is that of the separator. -/
def plainBreaks : Nat → Cursor → Option (List Char) × Cursor
  | 0, c => (some [], c)
  | fuel + 1, c =>
      if c.atSeparator then (none, c)
      else
        let c := c.skipSpaces
        match c.lineBreak? with
        | some (first, after) =>
            let (more, after) := plainBreaks fuel after
            (more.map (first :: ·), after)
        | none => (some [], c)

/-- What stands between two words, folded, and whether a line ended. -/
structure Gap where
  text : List Char
  after : Cursor
  broke : Bool

def plainGap (fuel : Nat) (c : Cursor) : Gap :=
  let (blanks, c) := c.takeWhile (· = ' ')
  match c.lineBreak? with
  | some (first, after) =>
      match plainBreaks fuel after with
      | (some more, after) => ⟨folded first more, after, true⟩
      | (none, after) => ⟨[], after, true⟩
  | none => ⟨blanks, c, false⟩

/-- The words after a gap, as long as they stand no further out than a column. The text so far
has its last character first. -/
def plainFrom (inFlow : Bool) (column : Int) : Nat → List Char → Gap → List Char × Gap
  | 0, acc, gap => (acc, gap)
  | fuel + 1, acc, gap =>
      let w := word inFlow gap.after.rest
      if gap.after.peek = '#' || w.isEmpty then (acc, gap)
      else
        let acc := w.reverse ++ gap.text.reverse ++ acc
        let gap := plainGap fuel (gap.after.forward w.length)
        if gap.text.isEmpty || (!inFlow && (gap.after.column : Int) < column) then (acc, gap)
        else plainFrom inFlow column fuel acc gap

/-- A plain scalar: its text, the place after it, and whether its last line ended. The fuel is
more than the count of characters that are left. -/
def plainText (inFlow : Bool) (column : Int) (fuel : Nat) (c : Cursor) : String × Cursor × Bool :=
  let (text, gap) := plainFrom inFlow column fuel [] ⟨[], c, false⟩
  (String.ofList text.reverse, gap.after, gap.broke)

def startsPlain (inFlow : Bool) (c : Cursor) : Bool :=
  if c.peek ∈ "-?:,[]\x7b\x7d#&*!|>'\"%@".toList || c.peek = '\x60' || endsWord c.peek then
    !endsWord (c.peekAt 1) && (c.peek = '-' || (!inFlow && (c.peek = '?' || c.peek = ':')))
  else true

end Cyclomatic.Yaml
