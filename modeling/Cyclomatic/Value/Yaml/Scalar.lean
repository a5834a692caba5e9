import Cyclomatic.Text.Numeral
import Cyclomatic.Value.Json
import Cyclomatic.Value.Yaml.Mark

/-! # What scalars stand for

A tag says what a node stands for. A scalar without quotes and without a tag is
null, a boolean or a number if it has the form of one, and else its own text.
-/

namespace Cyclomatic.Yaml

inductive Tag where
  | null
  | bool
  | int
  | real
  | text
  /-- The key of an entry that gives the entries of other mappings. -/
  | merge
  /-- The key of an entry that stands for its whole mapping. -/
  | value
  | sequence
  | mapping
  | other (name : String)
  deriving DecidableEq, Repr

namespace Tag

/-- The start of the names of tags that are known. -/
def space : String := "tag:yaml.org,2002:"

def known : List (String × Tag) :=
  [("null", .null), ("bool", .bool), ("int", .int), ("float", .real), ("str", .text),
   ("merge", .merge), ("value", .value), ("seq", .sequence), ("map", .mapping)]

def ofName (name : String) : Tag :=
  ((known.find? fun (n, _) => space ++ n = name).map (·.2)).getD (.other name)

def name : Tag → String
  | .other name => name
  | t => space ++ ((known.find? fun (_, u) => u = t).map (·.1)).getD ""

end Tag

/-! ## Forms -/

def isNull (s : String) : Bool := s ∈ ["", "~", "null", "Null", "NULL"]

/-- The words for booleans, in lower case. -/
def bool? (s : String) : Option Bool :=
  if s ∈ ["yes", "true", "on"] then some true
  else if s ∈ ["no", "false", "off"] then some false
  else none

/-- A word in lower case, or with a first letter or all letters in upper case. -/
def isBool (s : String) : Bool :=
  let lower := lowerText s
  let capital := match lower.toList with
    | c :: cs => String.ofList (upperChar c :: cs)
    | [] => ""
  (bool? lower).isSome && (s = lower || s = capital || s = upperText s)

def isDigitOrBar (c : Char) : Bool := c.isDigit || c = '_'

/-- A run of digits of a base and underscores with at least one character. -/
def isRun (base : Nat) (cs : List Char) : Bool :=
  !cs.isEmpty && cs.all fun c => c = '_' || (Json.hexValue? c).any (· < base)

/-- One or two digits below sixty. -/
def isSixtieth : List Char → Bool
  | [a] => a.isDigit
  | [a, b] => '0' ≤ a && a ≤ '5' && b.isDigit
  | _ => false

def isInteger (cs : List Char) : Bool :=
  match (Numeral.sign cs).2 with
  | '0' :: 'b' :: ds => isRun 2 ds
  | '0' :: 'x' :: ds => isRun 16 ds
  | ['0'] => true
  | '0' :: ds => isRun 8 ds
  | c :: ds =>
      match (c :: ds).splitOn ':' with
      | first :: rest => c.isDigit && first.all isDigitOrBar && rest.all isSixtieth
      | [] => false
  | [] => false

/-- An exponent with its sign, or nothing at all. -/
def isExponent : List Char → Bool
  | [] => true
  | e :: s :: ds =>
      (e = 'e' || e = 'E') && (s = '-' || s = '+') && !ds.isEmpty && ds.all Char.isDigit
  | _ => false

/-- A number with a point: digits on one side of it at least, then an exponent. -/
def isDecimal (cs : List Char) : Bool :=
  let digits := (Numeral.sign cs).2
  let whole := digits.takeWhile isDigitOrBar
  match digits.dropWhile isDigitOrBar with
  | '.' :: rest =>
      let fraction := rest.takeWhile isDigitOrBar
      let startsWell := whole.head?.any Char.isDigit ||
        (whole.isEmpty && digits.length = cs.length && fraction.head?.any Char.isDigit)
      startsWell && isExponent (rest.dropWhile isDigitOrBar)
  | _ => false

/-- A number to the base sixty with a point. -/
def isSexagesimal (cs : List Char) : Bool :=
  let digits := (Numeral.sign cs).2
  let whole := digits.takeWhile (· ≠ '.')
  let fraction := digits.drop (whole.length + 1)
  match whole.splitOn ':' with
  | first :: part :: rest =>
      whole.length < digits.length && fraction.all isDigitOrBar &&
        first.head?.any Char.isDigit && first.all isDigitOrBar && (part :: rest).all isSixtieth
  | _ => false

def isSpecial (cs : List Char) : Bool :=
  String.ofList (Numeral.sign cs).2 ∈ [".inf", ".Inf", ".INF"] ||
    String.ofList cs ∈ [".nan", ".NaN", ".NAN"]

/-- The tag of a scalar by its form. -/
def Tag.ofPlain (s : String) : Tag :=
  let cs := s.toList
  if isNull s then .null
  else if isBool s then .bool
  else if isDecimal cs || isSexagesimal cs || isSpecial cs then .real
  else if isInteger cs then .int
  else if s = "<<" then .merge
  else if s = "=" then .value
  else .text

/-! ## Values -/

/-- The value of a digit in bases up to thirty-six. -/
def digitValue? (c : Char) : Option Nat :=
  let lower := lowerChar c
  if 'a' ≤ lower && lower ≤ 'z' then some (lower.toNat - 87) else Numeral.digit? c

/-- The letter that may follow a zero in front of digits to a base. -/
def baseLetter? : Nat → Option Char
  | 2 => some 'b'
  | 8 => some 'o'
  | 16 => some 'x'
  | _ => none

def withoutLetter (base : Nat) : List Char → List Char
  | '0' :: c :: cs => if baseLetter? base = some (lowerChar c) then cs else '0' :: c :: cs
  | cs => cs

/-- A whole number to a base; blanks around it do not count. -/
def literal (base : Nat) (cs : List Char) : Except Fault Int :=
  let (negative, digits) := Numeral.sign (Numeral.trim cs)
  let values := (withoutLetter base digits).map digitValue?
  if values.isEmpty || !values.all (·.any (· < base)) then .error (.integer base (String.ofList cs))
  else if base = 10 && Num.digitLimit < values.length then .error (.digits values.length)
  else
    let n := (values.filterMap id).foldl (fun n d => n * base + d) 0
    .ok (if negative then -(n : Int) else n)

/-- A whole number without its sign. -/
def unsigned : List Char → Except Fault Int
  | [] => .error .emptyNumber
  | ['0'] => .ok 0
  | '0' :: 'b' :: cs => literal 2 cs
  | '0' :: 'x' :: cs => literal 16 cs
  | '0' :: cs => literal 8 ('0' :: cs)
  | cs => do
      let parts ← (cs.splitOn ':').mapM (literal 10)
      return parts.foldl (fun n part => n * 60 + part) 0

/-- The whole number that a text gives; underscores in it do not count. -/
def integerValue (s : String) : Except Fault Int := do
  let cs := s.toList.filter (· ≠ '_')
  let (negative, digits) := Numeral.sign cs
  let i ← unsigned digits
  return if negative then -i else i

def realLiteral (cs : List Char) : Except Fault Binary64 :=
  let s := String.ofList cs
  match Numeral.real? s with
  | some x => .ok x
  | none => .error (.real s)

/-- Numbers to the base sixty, the last one first, added to a total one by one. -/
def addPlaces (base : Nat) (total : Binary64) : List Binary64 → Except Fault Binary64
  | [] => .ok total
  | x :: rest => do
      let factor ← (Num.int base).toBinary64.mapError .overflow
      addPlaces (base * 60) (total.add (x.mul factor)) rest

/-- The floating-point number that a text gives; underscores in it do not count. -/
def realValue (s : String) : Except Fault Binary64 := do
  let cs := (lowerText s).toList.filter (· ≠ '_')
  if cs.isEmpty then throw .emptyNumber
  let (negative, digits) := Numeral.sign cs
  let x ←
    if digits = ".inf".toList then pure (.infinite false)
    else if digits = ".nan".toList then pure .nan
    else if ':' ∈ digits then do
      let parts ← (digits.splitOn ':').mapM realLiteral
      addPlaces 1 .zero parts.reverse
    else realLiteral digits
  return if negative then x.neg else x

def boolValue (s : String) : Except Fault Bool :=
  match bool? (lowerText s) with
  | some b => .ok b
  | none => .error (.truth (lowerText s))

/-- The value of a scalar that has a tag for scalars. -/
def scalarValue (s : String) : Tag → Except Fault Value
  | .null => .ok .null
  | .bool => .bool <$> boolValue s
  | .int => .int <$> integerValue s
  | .real => (fun x => .num (.real x)) <$> realValue s
  | _ => .ok (.text s)

end Cyclomatic.Yaml
