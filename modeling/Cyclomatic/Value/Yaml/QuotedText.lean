import Cyclomatic.Value.Yaml.Cursor

/-! # Scalars in quotes

Between single quotes only a doubled quote is special; between double quotes a
backslash starts an escape. A line break counts as a blank, and further ones as
themselves.
-/

namespace Cyclomatic.Yaml

def escapes : List (Char × Char) :=
  [('0', '\x00'), ('a', '\x07'), ('b', '\x08'), ('t', '\t'), ('\t', '\t'), ('n', '\n'),
   ('v', '\x0b'), ('f', '\x0c'), ('r', '\r'), ('e', '\x1b'), (' ', ' '), ('"', '"'), ('\\', '\\'),
   ('/', '/'), ('N', '\x85'), ('_', '\xa0'), ('L', '\u2028'), ('P', '\u2029')]

/-- The count of hexadecimal digits that a letter announces. -/
def codeLength? : Char → Option Nat
  | 'x' => some 2
  | 'u' => some 4
  | 'U' => some 8
  | _ => none

def quotedContext : String := "while scanning a quoted scalar"

def doubleContext : String := "while scanning a double-quoted scalar"

/-- The character of a code that is written with a count of digits. -/
def codeChar (start : Mark) (length : Nat) (c : Cursor) : Except Fault (Char × Cursor) :=
  let digits := (c.rest.take length).map Json.hexValue?
  let known := (digits.takeWhile (·.isSome)).filterMap id
  if known.length < length then
    let found := (c.forward known.length).shown
    c.stop doubleContext start
      s!"expected escape sequence of {length} hexadecimal numbers, but found {found}"
  else
    let n := known.foldl (fun n d => n * 16 + d) 0
    if n < 0x110000 then .ok (Char.ofNat n, c.forward length) else .error (.code n)

/-- The line breaks after a first one, with the blanks around them. -/
def quotedBreaks (start : Mark) : Nat → Cursor → Except Fault (List Char × Cursor)
  | 0, c => .ok ([], c)
  | fuel + 1, c =>
      if c.atSeparator then c.stop quotedContext start "found unexpected document separator"
      else
        let c := c.skipWhile isBlank
        match c.lineBreak? with
        | some (first, after) => do
            let (more, after) ← quotedBreaks start fuel after
            return (first :: more, after)
        | none => .ok ([], c)

/-- The text of an escape, after its backslash. An escaped line break stands for nothing. -/
def escape (start : Mark) (fuel : Nat) (c : Cursor) : Except Fault (List Char × Cursor) :=
  match escapes.lookup c.peek, codeLength? c.peek, c.lineBreak? with
  | some ch, _, _ => .ok ([ch], c.next)
  | none, some length, _ => do
      let (ch, after) ← codeChar start length c.next
      return ([ch], after)
  | none, none, some (_, after) => quotedBreaks start fuel after
  | none, none, none =>
      c.stop doubleContext start ("found unknown escape character " ++ c.shown)

/-- The text up to the closing quote, and the place after that; the text so far has its last
character first. -/
def quotedFrom (double : Bool) (start : Mark) :
    Nat → List Char → Cursor → Except Fault (List Char × Cursor)
  | 0, _, c => c.stop quotedContext start "found unexpected end of stream"
  | fuel + 1, acc, c =>
      if c.atEnd then c.stop quotedContext start "found unexpected end of stream"
      else if isBlank c.peek || isBreak c.peek then
        let (blanks, c) := c.takeWhile isBlank
        match c.lineBreak? with
        | some (first, after) => do
            let (more, after) ← quotedBreaks start fuel after
            quotedFrom double start fuel ((folded first more).reverse ++ acc) after
        | none => quotedFrom double start fuel (blanks ++ acc) c
      else if !double && c.peek = '\'' then
        if c.peekAt 1 = '\'' then quotedFrom double start fuel ('\'' :: acc) (c.forward 2)
        else .ok (acc.reverse, c.next)
      else if double && c.peek = '"' then .ok (acc.reverse, c.next)
      else if double && c.peek = '\\' then do
        let (chars, after) ← escape start fuel c.next
        quotedFrom double start fuel (chars.reverse ++ acc) after
      else quotedFrom double start fuel (c.peek :: acc) c.next

/-- A scalar in quotes, with its quotes. The fuel is more than the count of characters that are
left. -/
def quoted (double : Bool) (fuel : Nat) (c : Cursor) : Except Fault (String × Cursor) := do
  let (text, after) ← quotedFrom double c.mark fuel [] c.next
  return (String.ofList text, after)

end Cyclomatic.Yaml
