import Cyclomatic.Number.Basic
import Cyclomatic.Text.Ascii

/-! # Numerals

Numbers as people write them on a command line: blanks around them do not
count, digits may be of any script, and an underscore may stand between two
digits.
-/

namespace Cyclomatic.Numeral

/-- The zeros of the decimal digits of all scripts; nine more digits follow each. -/
def zeros : List Nat :=
  [0x30, 0x660, 0x6F0, 0x7C0, 0x966, 0x9E6, 0xA66, 0xAE6, 0xB66, 0xBE6, 0xC66, 0xCE6, 0xD66, 0xDE6,
   0xE50, 0xED0, 0xF20, 0x1040, 0x1090, 0x17E0, 0x1810, 0x1946, 0x19D0, 0x1A80, 0x1A90, 0x1B50,
   0x1BB0, 0x1C40, 0x1C50, 0xA620, 0xA8D0, 0xA900, 0xA9D0, 0xA9F0, 0xAA50, 0xABF0, 0xFF10, 0x104A0,
   0x10D30, 0x11066, 0x110F0, 0x11136, 0x111D0, 0x112F0, 0x11450, 0x114D0, 0x11650, 0x116C0,
   0x11730, 0x118E0, 0x11950, 0x11C50, 0x11D50, 0x11DA0, 0x16A60, 0x16AC0, 0x16B50, 0x1D7CE,
   0x1D7D8, 0x1D7E2, 0x1D7EC, 0x1D7F6, 0x1E140, 0x1E2F0, 0x1E950, 0x1FBF0]

def digit? (c : Char) : Option Nat :=
  (zeros.find? fun z => z ≤ c.toNat && c.toNat < z + 10).map (c.toNat - ·)

def isDigit (c : Char) : Bool := (digit? c).isSome

/-- Blanks that may stand around a numeral: the common ones of ASCII, and those of any script
beyond it. -/
def isBlank (c : Char) : Bool :=
  let n := c.toNat
  c = ' ' || (9 ≤ n && n ≤ 13) || n == 0x85 || n == 0xA0 || n == 0x1680 ||
    (0x2000 ≤ n && n ≤ 0x200A) || n == 0x2028 || n == 0x2029 || n == 0x202F || n == 0x205F ||
    n == 0x3000

/-- A text without the blanks around it. -/
def trim (cs : List Char) : List Char :=
  ((cs.dropWhile isBlank).reverse.dropWhile isBlank).reverse

/-- Take off a sign: whether it is a minus, and the rest. -/
def sign : List Char → Bool × List Char
  | '-' :: cs => (true, cs)
  | '+' :: cs => (false, cs)
  | cs => (false, cs)

/-- The digits of a run with single underscores between them; at least one digit. -/
def run? : List Char → Option (List Nat)
  | [] => none
  | [c] => (digit? c).map ([·])
  | c :: '_' :: cs => do
      let d ← digit? c
      return d :: (← run? cs)
  | c :: cs => do
      let d ← digit? c
      return d :: (← run? cs)

def number (ds : List Nat) : Nat := ds.foldl (fun n d => n * 10 + d) 0

def integer? (s : String) : Option Int := do
  let (negative, cs) := sign (trim s.toList)
  let ds ← run? cs
  if Num.digitLimit < ds.length then none
  else return if negative then -(number ds : Int) else number ds

/-- A run of digits, or nothing. -/
def runOrNone? (cs : List Char) : Option (List Nat) := if cs.isEmpty then some [] else run? cs

def exponent? : List Char → Option Int
  | [] => some 0
  | _ :: cs =>
      let (negative, ds) := sign cs
      (run? ds).map fun ds => if negative then -(number ds : Int) else number ds

def special? (s : String) : Option Binary64 :=
  if s = "inf" || s = "infinity" then some (.infinite false)
  else if s = "nan" then some .nan
  else none

def negate : Binary64 → Binary64
  | .infinite _ => .infinite true
  | x => x

def real? (s : String) : Option Binary64 := do
  let (negative, cs) := sign (trim s.toList)
  match special? (lowerText (String.ofList cs)) with
  | some x => return if negative then negate x else x
  | none =>
      let isMark (c : Char) : Bool := c = 'e' || c = 'E'
      let mantissa := cs.takeWhile (!isMark ·)
      let exponent ← exponent? (cs.drop mantissa.length)
      let whole ← runOrNone? (mantissa.takeWhile (· ≠ '.'))
      let fraction ← runOrNone? ((mantissa.dropWhile (· ≠ '.')).drop 1)
      if whole.isEmpty && fraction.isEmpty then none
      else return Binary64.ofDecimal negative (number (whole ++ fraction)) (exponent - fraction.length)

end Cyclomatic.Numeral
