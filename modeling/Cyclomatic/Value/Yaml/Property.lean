import Cyclomatic.Text.Utf8
import Cyclomatic.Value.Yaml.Cursor
import Cyclomatic.Value.Yaml.Token

/-! # Names, tags and directives

A node may have a name, by which aliases refer to it, and a tag, which says what
it stands for. A tag is written out, or short with a handle in front that a
directive explains.
-/

namespace Cyclomatic.Yaml.Property

def isNameChar (c : Char) : Bool := c.isAlphanum || c = '-' || c = '_'

/-- A name, which one of some characters must follow. -/
def name (context : String) (start : Mark) (follows : Char → Bool) (c : Cursor) :
    Except Fault (String × Cursor) :=
  let (cs, after) := c.takeWhile isNameChar
  if cs.isEmpty || !follows after.peek then
    after.expected context start "alphabetic or numeric character"
  else .ok (String.ofList cs, after)

def endsName (c : Char) : Bool := endsWord c || c ∈ "?:,]\x7d%@".toList || c = '\x60'

/-- The name after the sign of an alias or an anchor. -/
def reference (sort : String) (c : Cursor) : Except Fault (String × Cursor) :=
  name ("while scanning an " ++ sort) c.mark endsName c.next

/-! ## Tags -/

def isUriChar (c : Char) : Bool := c.isAlphanum || c ∈ "-;/?:@&=+$,_.!~*'()[]%".toList

/-- The bytes of escapes by a percent sign and two digits. -/
def escapedBytes (context : String) (start : Mark) : Nat → Cursor → Except Fault (Bytes × Cursor)
  | 0, c => .ok ([], c)
  | fuel + 1, c =>
      if c.peek ≠ '%' then .ok ([], c)
      else
        let digits := c.next
        match Json.hexValue? digits.peek, Json.hexValue? (digits.peekAt 1) with
        | some a, some b => do
            let (bytes, after) ← escapedBytes context start fuel (digits.forward 2)
            return (UInt8.ofNat (a * 16 + b) :: bytes, after)
        | a, _ =>
            let found := if a.isSome then digits.next.shown else digits.shown
            digits.stop context start
              ("expected URI escape sequence of 2 hexadecimal numbers, but found " ++ found)

/-- The rest of an identifier in a tag. -/
def uriFrom (context : String) (start : Mark) : Nat → Cursor → Except Fault (List Char × Cursor)
  | 0, c => .ok ([], c)
  | fuel + 1, c =>
      let (cs, after) := c.takeWhile fun ch => isUriChar ch && ch ≠ '%'
      if after.peek ≠ '%' then .ok (cs, after)
      else do
        let (bytes, rest) ← escapedBytes context start after.rest.length after
        match Utf8.decodeStrict bytes with
        | .ok text =>
            let (more, rest) ← uriFrom context start fuel rest
            return (cs ++ text.toList ++ more, rest)
        | .error f => after.stop context start f.message

def uri (sort : String) (start : Mark) (c : Cursor) : Except Fault (String × Cursor) := do
  if !isUriChar c.peek then c.expected ("while parsing a " ++ sort) start "URI"
  let (cs, after) ← uriFrom ("while scanning a " ++ sort) start (c.rest.length + 1) c
  return (String.ofList cs, after)

/-- A handle: an exclamation mark alone, or a name between two of them. -/
def handle (sort : String) (start : Mark) (c : Cursor) : Except Fault (String × Cursor) :=
  let context := "while scanning a " ++ sort
  if c.peek ≠ '!' then c.expected context start "'!'"
  else if c.peekAt 1 = ' ' then .ok ("!", c.next)
  else
    let (cs, after) := c.next.takeWhile isNameChar
    if after.peek ≠ '!' then after.expected context start "'!'"
    else .ok (String.ofList ('!' :: cs ++ ['!']), after.next)

/-- A tag with its sign, as a handle and what follows it. -/
def tagParts (c : Cursor) : Except Fault ((Option String × String) × Cursor) := do
  let start := c.mark
  if c.peekAt 1 = '<' then
    let (text, after) ← uri "tag" start (c.forward 2)
    if after.peek ≠ '>' then after.expected "while parsing a tag" start "'>'"
    return ((none, text), after.next)
  else if endsWord (c.peekAt 1) then return ((none, "!"), c.next)
  else
    let word := (c.rest.drop 1).takeWhile (!endsMark ·)
    let (short, after) ← if '!' ∈ word then handle "tag" start c else pure ("!", c.next)
    let (text, after) ← uri "tag" start after
    return ((some short, text), after)

def tag (c : Cursor) : Except Fault (Token × Cursor) := do
  let ((handle, suffix), after) ← tagParts c
  if endsMark after.peek then return (.tag handle suffix, after)
  else after.expected "while scanning a tag" c.mark "' '"

/-! ## Directives -/

def directiveContext : String := "while scanning a directive"

/-- The number of a version. -/
def versionNumber (start : Mark) (c : Cursor) : Except Fault (Nat × Cursor) :=
  let (cs, after) := c.takeWhile Char.isDigit
  if cs.isEmpty then c.expected directiveContext start "a digit"
  else if Num.digitLimit < cs.length then .error (.digits cs.length)
  else .ok (cs.foldl (fun n d => n * 10 + (d.toNat - 48)) 0, after)

def version (start : Mark) (c : Cursor) : Except Fault (Directive × Cursor) := do
  let (major, c) ← versionNumber start c.skipSpaces
  if c.peek ≠ '.' then c.expected directiveContext start "a digit or '.'"
  let (minor, c) ← versionNumber start c.next
  if !endsMark c.peek then c.expected directiveContext start "a digit or ' '"
  return (.version major minor, c)

def handleMeaning (start : Mark) (c : Cursor) : Except Fault (Directive × Cursor) := do
  let (name, c) ← handle "directive" start c.skipSpaces
  if c.peek ≠ ' ' then c.expected directiveContext start "' '"
  let (meaning, c) ← uri "directive" start c.skipSpaces
  if !endsMark c.peek then c.expected directiveContext start "' '"
  return (.handle name meaning, c)

/-- A directive, to the end of its line. -/
def directive (c : Cursor) : Except Fault (Token × Cursor) := do
  let start := c.mark
  let (word, after) ← name directiveContext start endsMark c.next
  let (d, after) ← match word with
    | "YAML" => version start after
    | "TAG" => handleMeaning start after
    | _ => pure (.other word, after.skipWhile (!isBreak ·))
  return (.directive d, ← after.restOfLine directiveContext start)

end Cyclomatic.Yaml.Property
