/-! # Styled text

Output for a terminal is a list of lines, each a list of spans. A span may be
painted: in colour it stands between the code of its ink and the code that ends
every ink, and without colour it is its bare text.
-/

namespace Cyclomatic

inductive Ink where
  | plain
  | bold
  | dim
  | red
  | green
  | yellow
  | cyan
  deriving DecidableEq, Repr

namespace Ink

def code : Ink → String
  | .plain => ""
  | .bold => "\x1b[1m"
  | .dim => "\x1b[2m"
  | .red => "\x1b[91m"
  | .green => "\x1b[92m"
  | .yellow => "\x1b[93m"
  | .cyan => "\x1b[96m"

/-- The code that ends every ink. -/
def reset : String := "\x1b[0m"

end Ink

structure Span where
  text : String
  ink : Option Ink := none
  deriving DecidableEq, Repr

abbrev Styled := List Span

def Span.render (colour : Bool) (s : Span) : String :=
  match s.ink, colour with
  | some ink, true => ink.code ++ s.text ++ Ink.reset
  | _, _ => s.text

namespace Styled

def bare (text : String) : Styled := [⟨text, none⟩]

def painted (ink : Ink) (text : String) : Styled := [⟨text, some ink⟩]

def blank : Styled := bare ""

/-- A line of one repeated character. -/
def rule (c : Char) (width : Nat) : Styled := painted .dim (String.ofList (List.replicate width c))

def render (colour : Bool) (line : Styled) : String := String.join (line.map (·.render colour))

/-- Lines with line feeds between them. -/
def renderLines (colour : Bool) (lines : List Styled) : String :=
  "\n".intercalate (lines.map (render colour))

end Styled

/-- A text filled up with blanks on its right. -/
def padRight (width : Nat) (s : String) : String :=
  s ++ String.ofList (List.replicate (width - s.length) ' ')

/-- A text filled up with blanks on its left. -/
def padLeft (width : Nat) (s : String) : String :=
  String.ofList (List.replicate (width - s.length) ' ') ++ s

/-- At most `limit` characters of a text, the last of them a suffix if it is cut. A suffix
longer than the limit takes the place of as many characters at the end. -/
def truncate (limit : Int) (suffix s : String) : String :=
  if (s.length : Int) ≤ limit then s
  else
    let keep := limit - suffix.length
    let count := if keep < 0 then (s.length : Int) + keep else keep
    String.ofList (s.toList.take count.toNat) ++ suffix

def truncationMark : String := "..."

end Cyclomatic
