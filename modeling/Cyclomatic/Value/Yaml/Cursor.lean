import Cyclomatic.Value.Json
import Cyclomatic.Value.Yaml.Mark

/-! # Reading a text from place to place

A cursor stands at a place and holds the text from there on. The end of the
text counts as a null character, which no text may hold.
-/

namespace Cyclomatic.Yaml

/-- Characters that a text may hold. -/
def isAllowed (c : Char) : Bool :=
  let n := c.toNat
  n == 9 || n == 10 || n == 13 || (0x20 ≤ n && n ≤ 0x7E) || n == 0x85 ||
    (0xA0 ≤ n && n ≤ 0xD7FF) || (0xE000 ≤ n && n ≤ 0xFFFD) || 0x10000 ≤ n

def isBlank (c : Char) : Bool := c = ' ' || c = '\t'

def endsLine (c : Char) : Bool := c = '\x00' || isBreak c

/-- What may follow a mark on its line: a blank, or the end of the line. -/
def endsMark (c : Char) : Bool := c = ' ' || endsLine c

def endsWord (c : Char) : Bool := isBlank c || endsLine c

/-- What is left to read, and where it starts. -/
structure Cursor where
  rest : List Char
  mark : Mark := {}

namespace Cursor

def line (c : Cursor) : Nat := c.mark.line
def column (c : Cursor) : Nat := c.mark.column
def index (c : Cursor) : Nat := c.mark.index

def peek (c : Cursor) : Char := c.rest.headD '\x00'

def peekAt (n : Nat) (c : Cursor) : Char := (c.rest.drop n).headD '\x00'

def atEnd (c : Cursor) : Bool := c.rest.isEmpty

def next (c : Cursor) : Cursor :=
  match c.rest with
  | [] => c
  | ch :: rest =>
      if isBreak ch && !(ch = '\r' && rest.head? = some '\n') then
        ⟨rest, ⟨c.line + 1, 0, c.index + 1⟩⟩
      else ⟨rest, ⟨c.line, if ch = '\ufeff' then c.column else c.column + 1, c.index + 1⟩⟩

def forward (c : Cursor) : Nat → Cursor
  | 0 => c
  | n + 1 => c.next.forward n

/-- The characters at the cursor that have a property, and the place after them. -/
def takeWhile (p : Char → Bool) (c : Cursor) : List Char × Cursor :=
  let cs := c.rest.takeWhile p
  (cs, c.forward cs.length)

def skipWhile (p : Char → Bool) (c : Cursor) : Cursor := (c.takeWhile p).2

def skipSpaces (c : Cursor) : Cursor := c.skipWhile (· = ' ')

/-- A line break at the cursor, as the text it stands for, and the place after it. -/
def lineBreak? (c : Cursor) : Option (Char × Cursor) :=
  match c.rest with
  | '\r' :: '\n' :: _ => some ('\n', c.forward 2)
  | ch :: _ =>
      if ch = '\u2028' || ch = '\u2029' then some (ch, c.next)
      else if isBreak ch then some ('\n', c.next)
      else none
  | [] => none

/-- Three dashes or dots that stand alone. -/
def atTriple (ch : Char) (c : Cursor) : Bool :=
  c.peek = ch && c.peekAt 1 = ch && c.peekAt 2 = ch && endsWord (c.peekAt 3)

def atSeparator (c : Cursor) : Bool := c.atTriple '-' || c.atTriple '.'

/-! ## Faults -/

/-- The character at the cursor as messages show it. -/
def shown (c : Cursor) : String := Quoted.encode (String.singleton c.peek)

/-- Something is wrong at the cursor, in a construct that starts at another place. -/
def stop {α : Type} (context : String) (start : Mark) (problem : String) (c : Cursor) :
    Except Fault α :=
  .error (.problem (some (context, some start)) problem c.mark)

/-- Something else should stand at the cursor. -/
def expected {α : Type} (context : String) (start : Mark) (what : String) (c : Cursor) :
    Except Fault α :=
  c.stop context start s!"expected {what}, but found {c.shown}"

/-- The start of the next line, if only blanks and a comment stand before it. -/
def restOfLine (context : String) (start : Mark) (c : Cursor) : Except Fault Cursor :=
  let c := c.skipSpaces
  let c := if c.peek = '#' then c.skipWhile (!isBreak ·) else c
  if endsLine c.peek then .ok ((c.lineBreak?.map (·.2)).getD c)
  else c.expected context start "a comment or a line break"

end Cursor

/-- A line break and those after it as a folded text: one alone is a blank. -/
def folded (first : Char) (more : List Char) : List Char :=
  if first ≠ '\n' then first :: more else if more.isEmpty then [' '] else more

end Cyclomatic.Yaml
