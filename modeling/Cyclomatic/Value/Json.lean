import Cyclomatic.Value.Basic

/-! # JSON text

A reader for JSON text that also takes `NaN`, `Infinity` and `-Infinity`, and a
writer that escapes everything outside ASCII. Of equal keys in an object the
last one counts. Whole numbers must not be too long, nor collections too deep.
-/

namespace Cyclomatic.Json

/-- Why a text is not JSON. -/
inductive Fault where
  | value
  | key
  | colon
  | comma
  | unterminated
  | control
  | escape
  | codeEscape
  | extra
  | mark
  /-- A whole number has too many digits. -/
  | digits (count : Nat)
  /-- A collection stands too deep inside others. -/
  | nesting (collection : String)
  deriving DecidableEq, Repr

def Fault.message : Fault → String
  | .value => "Expecting value"
  | .key => "Expecting property name enclosed in double quotes"
  | .colon => "Expecting ':' delimiter"
  | .comma => "Expecting ',' delimiter"
  | .unterminated => "Unterminated string starting at"
  | .control => "Invalid control character at"
  | .escape => "Invalid \\escape"
  | .codeEscape => "Invalid \\uXXXX escape"
  | .extra => "Extra data"
  | .mark => "Unexpected UTF-8 BOM (decode using utf-8-sig)"
  | .digits count => Num.tooManyDigits count
  | .nesting collection =>
      s!"maximum recursion depth exceeded while decoding a JSON {collection} from a unicode string"

/-- Whether a fault is in the form of the text, so that its place is told. -/
def Fault.isFormal : Fault → Bool
  | .digits _ | .nesting _ => false
  | _ => true

/-- A fault and the text that is left where it was found. -/
structure Stuck where
  fault : Fault
  rest : List Char

def isBlank (c : Char) : Bool := c = ' ' || c = '\t' || c = '\n' || c = '\r'

def skip (cs : List Char) : List Char := cs.dropWhile isBlank

def hexValue? (c : Char) : Option Nat :=
  if '0' ≤ c && c ≤ '9' then some (c.toNat - '0'.toNat)
  else if 'a' ≤ c && c ≤ 'f' then some (c.toNat - 'a'.toNat + 10)
  else if 'A' ≤ c && c ≤ 'F' then some (c.toNat - 'A'.toNat + 10)
  else none

def hex4? : List Char → Option (Nat × List Char)
  | a :: b :: c :: d :: rest => do
      let a ← hexValue? a
      let b ← hexValue? b
      let c ← hexValue? c
      let d ← hexValue? d
      return (((a * 16 + b) * 16 + c) * 16 + d, rest)
  | _ => none

def isHigh (n : Nat) : Bool := 0xD800 ≤ n && n < 0xDC00

def isLow (n : Nat) : Bool := 0xDC00 ≤ n && n < 0xE000

def joinPair (high low : Nat) : Char :=
  Char.ofNat (0x10000 + (high - 0xD800) * 0x400 + (low - 0xDC00))

/-- The character of one unit; half a pair on its own has no character. -/
def unitChar (n : Nat) : Char := if isHigh n || isLow n then '\ufffd' else Char.ofNat n

/-- The unit of a code escape after its `\u`; something must follow its four digits. -/
def codeUnit (cs : List Char) : Except Stuck (Nat × List Char) :=
  match hex4? cs with
  | some (n, c :: rest) => .ok (n, c :: rest)
  | _ => .error ⟨.codeEscape, 'u' :: cs⟩

/-- The character of a code escape, together with a second one that completes a pair. -/
def codeChar (cs : List Char) : Except Stuck (Char × List Char) := do
  let (n, rest) ← codeUnit cs
  match isHigh n, rest with
  | true, '\\' :: 'u' :: more =>
      if (more.drop 4).isEmpty then return (unitChar n, rest)
      let (m, rest') ← codeUnit more
      return if isLow m then (joinPair n m, rest') else (unitChar n, rest)
  | _, _ => return (unitChar n, rest)

def simpleEscape? : Char → Option Char
  | '"' => some '"'
  | '\\' => some '\\'
  | '/' => some '/'
  | 'b' => some '\x08'
  | 'f' => some '\x0c'
  | 'n' => some '\n'
  | 'r' => some '\r'
  | 't' => some '\t'
  | _ => none

/-- The characters of a string up to its closing quote. The whole string is
kept to report where an unterminated one starts. -/
def stringFrom (whole : List Char) : Nat → List Char → List Char → Except Stuck (String × List Char)
  | 0, _, _ => .error ⟨.unterminated, whole⟩
  | fuel + 1, acc, cs =>
      match cs with
      | [] => .error ⟨.unterminated, whole⟩
      | '"' :: rest => .ok (String.ofList acc.reverse, rest)
      | '\\' :: [] => .error ⟨.unterminated, whole⟩
      | '\\' :: 'u' :: rest => do
          let (c, rest') ← codeChar rest
          stringFrom whole fuel (c :: acc) rest'
      | '\\' :: c :: rest =>
          match simpleEscape? c with
          | some e => stringFrom whole fuel (e :: acc) rest
          | none => .error ⟨.escape, cs⟩
      | c :: rest =>
          if c.toNat < 0x20 then .error ⟨.control, cs⟩ else stringFrom whole fuel (c :: acc) rest

/-- A string after its opening quote. -/
def string (fuel : Nat) (rest : List Char) : Except Stuck (String × List Char) :=
  stringFrom ('"' :: rest) fuel [] rest

def digitsValue (cs : List Char) : Nat :=
  cs.foldl (fun n c => n * 10 + (c.toNat - '0'.toNat)) 0

def isDigit (c : Char) : Bool := '0' ≤ c && c ≤ '9'

/-- The whole part of a number: a zero, or digits that start with none. -/
def whole? (cs : List Char) : Option (List Char × List Char) :=
  match cs with
  | '0' :: rest => some (['0'], rest)
  | c :: _ => if isDigit c then some (cs.takeWhile isDigit, cs.dropWhile isDigit) else none
  | [] => none

/-- The digits after a point, if there are any. -/
def fraction (cs : List Char) : List Char × List Char :=
  match cs with
  | '.' :: rest =>
      let digits := rest.takeWhile isDigit
      if digits.isEmpty then ([], cs) else (digits, rest.dropWhile isDigit)
  | _ => ([], cs)

/-- An exponent with its sign, if there is a complete one. -/
def exponent? (cs : List Char) : Option (Int × List Char) :=
  let read (negative : Bool) (rest : List Char) : Option (Int × List Char) :=
    let digits := rest.takeWhile isDigit
    if digits.isEmpty then none
    else
      let n : Int := digitsValue digits
      some (if negative then -n else n, rest.dropWhile isDigit)
  match cs with
  | c :: rest =>
      if c = 'e' || c = 'E' then
        match rest with
        | '-' :: more => read true more
        | '+' :: more => read false more
        | _ => read false rest
      else none
  | [] => none

/-- The fault of a whole number, which may have a sign. -/
def digitFault? : Num → List Char → Option Fault
  | .int _, cs =>
      let count := ((if cs.head? = some '-' then cs.drop 1 else cs).takeWhile isDigit).length
      if Num.digitLimit < count then some (.digits count) else none
  | .real _, _ => none

/-- A number; with a fraction or an exponent it is a floating one. -/
def number? (cs : List Char) : Option (Num × List Char) := do
  let (negative, body) := match cs with
    | '-' :: rest => (true, rest)
    | _ => (false, cs)
  let (whole, rest) ← whole? body
  let (places, rest) := fraction rest
  match exponent? rest with
  | some (e, rest) =>
      return (.real (Binary64.ofDecimal negative (digitsValue (whole ++ places)) (e - places.length)), rest)
  | none =>
      if places.isEmpty then
        let n : Int := digitsValue whole
        return (.int (if negative then -n else n), rest)
      else
        return (.real (Binary64.ofDecimal negative (digitsValue (whole ++ places)) (-places.length)), rest)

def dropText? : List Char → List Char → Option (List Char)
  | [], cs => some cs
  | w :: ws, c :: cs => if w = c then dropText? ws cs else none
  | _ :: _, [] => none

/-- The words that stand for a value. -/
def words : List (String × Value) :=
  [("null", .null), ("true", .bool true), ("false", .bool false), ("NaN", .num (.real .nan)),
   ("Infinity", .num (.real (.infinite false))), ("-Infinity", .num (.real (.infinite true)))]

def word? (cs : List Char) : Option (Value × List Char) :=
  words.findSome? fun (w, v) => (dropText? w.toList cs).map (v, ·)

mutual

/-- A value at the start of the text; collections may stand `depth` deep in it. -/
def value : (fuel depth : Nat) → List Char → Except Stuck (Value × List Char)
  | 0, _, cs => .error ⟨.value, cs⟩
  | fuel + 1, depth, cs =>
      match cs, depth with
      | '"' :: rest, _ => do
          let (s, rest) ← string fuel rest
          return (.text s, rest)
      | '\x7b' :: _, 0 => .error ⟨.nesting "object", cs⟩
      | '\x7b' :: rest, depth + 1 =>
          match skip rest with
          | '\x7d' :: rest => .ok (.map [], rest)
          | rest => members fuel depth [] rest
      | '[' :: _, 0 => .error ⟨.nesting "array", cs⟩
      | '[' :: rest, depth + 1 =>
          match skip rest with
          | ']' :: rest => .ok (.list [], rest)
          | rest => items fuel depth [] rest
      | _, _ =>
          match word? cs with
          | some found => .ok found
          | none =>
              match number? cs with
              | some (n, rest) =>
                  match digitFault? n cs with
                  | some fault => .error ⟨fault, cs⟩
                  | none => .ok (.num n, rest)
              | none => .error ⟨.value, cs⟩

/-- The items of a list up to its closing bracket. -/
def items : (fuel depth : Nat) → List Value → List Char → Except Stuck (Value × List Char)
  | 0, _, _, cs => .error ⟨.value, cs⟩
  | fuel + 1, depth, acc, cs => do
      let (v, rest) ← value fuel depth cs
      match skip rest with
      | ']' :: rest => return (.list (v :: acc).reverse, rest)
      | ',' :: rest => items fuel depth (v :: acc) (skip rest)
      | rest => .error ⟨.comma, rest⟩

/-- The members of a map up to its closing brace. -/
def members : (fuel depth : Nat) → Entries → List Char → Except Stuck (Value × List Char)
  | 0, _, _, cs => .error ⟨.value, cs⟩
  | fuel + 1, depth, acc, cs =>
      match cs with
      | '"' :: rest => do
          let (k, rest) ← string fuel rest
          match skip rest with
          | ':' :: rest =>
              let (v, rest) ← value fuel depth (skip rest)
              let acc := acc.insert (.text k) v
              match skip rest with
              | '\x7d' :: rest => return (.map acc, rest)
              | ',' :: rest => members fuel depth acc (skip rest)
              | rest => .error ⟨.comma, rest⟩
          | rest => .error ⟨.colon, rest⟩
      | _ => .error ⟨.key, cs⟩

end

/-- A fault with its place: the count of characters before it. -/
structure ReadError where
  fault : Fault
  line : Nat
  column : Nat
  offset : Nat
  deriving DecidableEq, Repr

def ReadError.message (e : ReadError) : String :=
  if e.fault.isFormal then
    s!"{e.fault.message}: line {e.line} column {e.column} (char {e.offset})"
  else e.fault.message

def ReadError.at (whole : List Char) (stuck : Stuck) : ReadError :=
  let offset := whole.length - stuck.rest.length
  let before := whole.take offset
  let column := (before.reverse.takeWhile (· ≠ '\n')).length + 1
  ⟨stuck.fault, before.count '\n' + 1, column, offset⟩

/-- The value that a whole text stands for, if its collections are at most `depth` deep. -/
def readWithin (depth : Nat) (s : String) : Except ReadError Value :=
  let whole := s.toList
  let result : Except Stuck Value := do
    if whole.head? = some '\ufeff' then throw ⟨.mark, whole⟩
    let (v, rest) ← value (2 * whole.length + 2) depth (skip whole)
    match skip rest with
    | [] => return v
    | rest => throw ⟨.extra, rest⟩
  result.mapError (ReadError.at whole)

/-- The value that a whole text stands for, however deep its collections are. -/
def read (s : String) : Except ReadError Value := readWithin s.length s

/-! ## Writing -/

def unitEscape (n : Nat) : List Char := '\\' :: 'u' :: Quoted.hexDigits 4 n

def escapeChar (c : Char) : List Char :=
  if c = '"' then ['\\', '"']
  else if c = '\\' then ['\\', '\\']
  else if c = '\n' then ['\\', 'n']
  else if c = '\r' then ['\\', 'r']
  else if c = '\t' then ['\\', 't']
  else if c = '\x08' then ['\\', 'b']
  else if c = '\x0c' then ['\\', 'f']
  else
    let n := c.toNat
    if 0x20 ≤ n && n < 0x7F then [c]
    else if n < 0x10000 then unitEscape n
    else
      let m := n - 0x10000
      unitEscape (0xD800 + m / 0x400) ++ unitEscape (0xDC00 + m % 0x400)

def quote (s : String) : String := String.ofList ('"' :: s.toList.flatMap escapeChar ++ ['"'])

def numberText : Num → String
  | .int i => toString i
  | .real .nan => "NaN"
  | .real (.infinite negative) => if negative then "-Infinity" else "Infinity"
  | .real x => x.toText

/-- How items are laid out: on one line, or one a line with some blanks for
each level of nesting. -/
inductive Layout where
  | compact
  | lines (indent : Nat)
  deriving DecidableEq, Repr

def Layout.ofIndent : Option Int → Layout
  | none => .compact
  | some i => .lines i.toNat

def Layout.break (layout : Layout) (level : Nat) : String :=
  match layout with
  | .compact => ""
  | .lines indent => "\n" ++ String.ofList (List.replicate (indent * level) ' ')

def Layout.separator (layout : Layout) (level : Nat) : String :=
  match layout with
  | .compact => ", "
  | .lines _ => "," ++ layout.break level

/-- Items between brackets; no items leave nothing between them. -/
def enclose (layout : Layout) (level : Nat) (opening closing : String) (parts : List String) : String :=
  if parts.isEmpty then opening ++ closing
  else
    opening ++ layout.break (level + 1) ++ (layout.separator (level + 1)).intercalate parts ++
      layout.break level ++ closing

/-- A key as text: words and numbers are written as they are as values. -/
def keyText : Value → String
  | .text s => s
  | .null => "null"
  | .bool b => if b then "true" else "false"
  | .num n => numberText n
  | v => v.display

mutual

def writeAt (layout : Layout) (level : Nat) : Value → String
  | .null => "null"
  | .bool b => if b then "true" else "false"
  | .num n => numberText n
  | .text s => quote s
  | .list xs => enclose layout level "[" "]" (writeItems layout (level + 1) xs)
  | .map es => enclose layout level "\x7b" "\x7d" (writeMembers layout (level + 1) es)

def writeItems (layout : Layout) (level : Nat) : List Value → List String
  | [] => []
  | x :: xs => writeAt layout level x :: writeItems layout level xs

def writeMembers (layout : Layout) (level : Nat) : List (Value × Value) → List String
  | [] => []
  | (k, v) :: es =>
      (quote (keyText k) ++ ": " ++ writeAt layout level v) :: writeMembers layout level es

end

def write (layout : Layout) (v : Value) : String := writeAt layout 0 v

end Cyclomatic.Json
