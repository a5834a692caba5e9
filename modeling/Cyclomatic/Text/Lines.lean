/-! # Line ends

Two readings of line ends: text files turn every carriage return, alone or
before a line feed, into a line feed; listings break a text at every line
boundary that Unicode names.
-/

namespace Cyclomatic.Lines

/-- Every line end as one line feed. -/
def unify : List Char → List Char
  | [] => []
  | '\r' :: '\n' :: cs => '\n' :: unify cs
  | '\r' :: cs => '\n' :: unify cs
  | c :: cs => c :: unify cs

def universal (s : String) : String := String.ofList (unify s.toList)

/-- Characters that end a line. -/
def isBoundary (c : Char) : Bool :=
  let n := c.toNat
  (0x0A ≤ n && n ≤ 0x0D) || (0x1C ≤ n && n ≤ 0x1E) || n == 0x85 || n == 0x2028 || n == 0x2029

/-- The lines of a text, the line read so far in reverse; a text that ends in a
line end has no further empty line. -/
def splitFrom (line : List Char) : List Char → List (List Char)
  | [] => if line.isEmpty then [] else [line.reverse]
  | '\r' :: '\n' :: cs => line.reverse :: splitFrom [] cs
  | c :: cs => if isBoundary c then line.reverse :: splitFrom [] cs else splitFrom (c :: line) cs

def split (s : String) : List String := (splitFrom [] s.toList).map String.ofList

end Cyclomatic.Lines
