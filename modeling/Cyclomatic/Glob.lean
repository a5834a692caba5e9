/-! # File name patterns

A star stands for any text, a question mark for any character, and brackets for
one character of a set; slashes are not special. A bracket that is not closed
stands for itself, and a range whose ends are in the wrong order is empty.
-/

namespace Cyclomatic.Glob

inductive Piece where
  | star
  | any
  | literal (c : Char)
  /-- One character in some range, or in none of them. -/
  | set (negated : Bool) (ranges : List (Char × Char))
  deriving DecidableEq, Repr

def Piece.accepts (c : Char) : Piece → Bool
  | .star => false
  | .any => true
  | .literal d => c = d
  | .set negated ranges => negated != ranges.any fun (low, high) => low ≤ c && c ≤ high

/-! ## Sets -/

/-- What stands between brackets, and the rest; the opening bracket has been read. A closing
bracket at the start belongs to the set. -/
def bracketed? (cs : List Char) : Option (List Char × List Char) :=
  let bang := cs.takeWhile (· = '!') |>.take 1
  let afterBang := cs.drop bang.length
  let first := afterBang.takeWhile (· = ']') |>.take 1
  let afterFirst := afterBang.drop first.length
  let inner := afterFirst.takeWhile (· ≠ ']')
  match afterFirst.drop inner.length with
  | ']' :: rest => some (bang ++ first ++ inner, rest)
  | _ => none

/-- Cut a set at the hyphens that make ranges: not among the first `skip` characters, nor
among the two after such a hyphen. -/
def cut (skip : Nat) (chunk : List Char) : List Char → List (List Char)
  | [] => [chunk]
  | c :: cs =>
      if c = '-' && skip = 0 then chunk :: cut 2 [] cs
      else cut (skip - 1) (chunk ++ [c]) cs

/-- A hyphen at the end of a set stands for itself. -/
def closeLast : List (List Char) → List (List Char)
  | [a, []] => [a ++ ['-']]
  | a :: rest => a :: closeLast rest
  | [] => []

/-- Take out the ranges whose ends are in the wrong order. -/
def dropEmpty : List (List Char) → List (List Char)
  | [] => []
  | a :: rest =>
      match dropEmpty rest with
      | [] => [a]
      | b :: more =>
          match a.getLast?, b.head? with
          | some low, some high =>
              if high < low then (a.dropLast ++ b.drop 1) :: more else a :: b :: more
          | _, _ => a :: b :: more

def single (c : Char) : Char × Char := (c, c)

/-- The ranges of the chunks between hyphens: each hyphen joins the characters beside it, and
stands for itself if nothing is before it. -/
def ranges : List (List Char) → List (Char × Char)
  | [] => []
  | a :: rest => go a rest
where
  go (a : List Char) : List (List Char) → List (Char × Char)
    | [] => a.map single
    | b :: more =>
        match a.getLast?, b.head? with
        | some low, some high => a.dropLast.map single ++ (low, high) :: go (b.drop 1) more
        | _, _ => a.map single ++ single '-' :: go b more

def setOf (inner : List Char) : Piece :=
  let skip := if inner.head? = some '!' then 2 else 1
  match dropEmpty (closeLast (cut skip [] inner)) with
  | ('!' :: a) :: more => .set true (ranges (a :: more))
  | chunks => .set false (ranges chunks)

/-! ## Patterns -/

/-- Read a pattern; the fuel is its length. -/
def parseFrom : Nat → List Char → List Piece
  | 0, _ => []
  | _ + 1, [] => []
  | fuel + 1, '*' :: cs => .star :: parseFrom fuel cs
  | fuel + 1, '?' :: cs => .any :: parseFrom fuel cs
  | fuel + 1, '[' :: cs =>
      match bracketed? cs with
      | some (inner, rest) => setOf inner :: parseFrom fuel rest
      | none => .literal '[' :: parseFrom fuel cs
  | fuel + 1, c :: cs => .literal c :: parseFrom fuel cs

def parse (pattern : String) : List Piece :=
  let cs := pattern.toList
  parseFrom cs.length cs

/-- What may be left of a pattern once a star has taken nothing more. -/
def openings : List Piece → List (List Piece)
  | .star :: ps => (.star :: ps) :: openings ps
  | ps => [ps]

/-- What may be left of a pattern after a character. -/
def after (c : Char) : List Piece → List (List Piece)
  | [] => []
  | .star :: ps => openings (.star :: ps)
  | p :: ps => if p.accepts c then openings ps else []

/-- The patterns of which at least one must fit what is left, each of them once. -/
def step (c : Char) (states : List (List Piece)) : List (List Piece) :=
  (states.flatMap (after c)).eraseDups

def accepts (pattern : List Piece) (cs : List Char) : Bool :=
  (cs.foldl (fun states c => step c states) (openings pattern)).contains []

/-- Whether a whole text fits a pattern. -/
def fits (pattern text : String) : Bool := accepts (parse pattern) text.toList

end Cyclomatic.Glob
