import Cyclomatic.Number.Binary64

/-! # Decimal text of numbers

A number is written with the fewest significant digits that read back as the
same number, or with a fixed count of digits after the point. Both are exact:
they compare fractions of natural numbers.
-/

namespace Cyclomatic

/-- The decimal `0.d₁…dₙ · 10 ^ point`, its digits as one natural number. -/
structure Decimal where
  digits : Nat
  count : Nat
  point : Int
  deriving DecidableEq, Repr

namespace Decimal

def digitChars (n : Nat) : List Char := Nat.toDigits 10 n

/-- `digits · 10 ^ exponent` as a fraction. -/
def ratio (digits : Nat) (exponent : Int) : Nat × Nat :=
  if exponent < 0 then (digits, Nat.pow 10 (-exponent).toNat)
  else (digits * Nat.pow 10 exponent.toNat, 1)

/-- The place of the point of `num / den`: the `p` with `10 ^ (p - 1) ≤ num / den < 10 ^ p`. -/
def pointOf (num den : Nat) : Int :=
  if den ≤ num then (digitChars (num / den)).length
  else
    let length := (digitChars (den / num)).length
    if den ≤ num * Nat.pow 10 (length - 1) then 2 - (length : Int) else 1 - (length : Int)

/-- The decimals of `count` digits next to `num / den`, the nearer one first. -/
def neighbours (num den : Nat) (count : Nat) : List Decimal :=
  let point := pointOf num den
  let (n, d) := ratio num (count - point)
  let (n, d) := (n, d * den)
  let below := n / d
  let above := below + 1
  let mk (digits : Nat) : Decimal :=
    if digits = Nat.pow 10 count then ⟨Nat.pow 10 (count - 1), count, point + 1⟩
    else ⟨digits, count, point⟩
  let twice := 2 * (n % d)
  if twice < d || (twice == d && below % 2 == 0) then [mk below, mk above] else [mk above, mk below]

/-- The number nearest to a decimal. -/
def toBinary64 (negative : Bool) (x : Decimal) : Binary64 :=
  let (n, d) := ratio x.digits (x.point - x.count)
  Binary64.ofRatio negative n d

/-- Seventeen digits always suffice to read a number back. -/
def maxDigits : Nat := 17

/-- The shortest decimal that reads back as the number, the nearest of those. -/
def shortest (significand : Nat) (exponent : Int) : Decimal :=
  let (n, d) := Binary64.magnitude significand exponent
  let readsBack (x : Decimal) : Bool := x.toBinary64 false == .finite false significand exponent
  let counts := (List.range maxDigits).map (· + 1)
  match counts.findSome? fun count => (neighbours n d count).find? readsBack with
  | some x => x
  | none => ⟨0, 1, 1⟩

def padLeft (width : Nat) (fill : Char) (cs : List Char) : List Char :=
  List.replicate (width - cs.length) fill ++ cs

/-- Exponents from `-4` to `15` are written positionally. -/
def positional (point : Int) : Bool := -4 < point && point ≤ 16

/-- The digits with their point: always one digit on either side of it, or a
signed exponent of at least two digits. -/
def chars (x : Decimal) : List Char :=
  let digits := padLeft x.count '0' (digitChars x.digits)
  if positional x.point then
    if x.point ≤ 0 then
      ['0', '.'] ++ List.replicate (-x.point).toNat '0' ++ digits
    else
      let whole := x.point.toNat
      let left := digits.take whole
      let right := digits.drop whole
      left ++ List.replicate (whole - left.length) '0' ++ ['.'] ++ if right.isEmpty then ['0'] else right
  else
    let exponent := x.point - 1
    let mantissa := match digits with
      | [] => []
      | [d] => [d]
      | d :: rest => d :: '.' :: rest
    mantissa ++ ['e', if exponent < 0 then '-' else '+'] ++ padLeft 2 '0' (digitChars exponent.natAbs)

/-- Drop the zeros at the end of the digits, keeping one digit. -/
def trim (x : Decimal) : Decimal :=
  go x.count x
where
  go : Nat → Decimal → Decimal
    | 0, x => x
    | fuel + 1, x =>
        if x.digits % 10 == 0 && 1 < x.count then go fuel ⟨x.digits / 10, x.count - 1, x.point⟩ else x

end Decimal

namespace Binary64

def signed (negative : Bool) (cs : List Char) : String :=
  String.ofList (if negative then '-' :: cs else cs)

/-- The shortest text that reads back as the number. -/
def toText : Binary64 → String
  | .nan => "nan"
  | .infinite negative => if negative then "-inf" else "inf"
  | .finite negative significand exponent =>
      if significand = 0 then signed negative ['0', '.', '0']
      else signed negative (Decimal.shortest significand exponent).trim.chars

/-- The text with exactly `places` digits after the point, rounded from the
exact value, a tie to the even digit. -/
def toFixed (places : Nat) : Binary64 → String
  | .nan => "nan"
  | .infinite negative => if negative then "-inf" else "inf"
  | .finite negative significand exponent =>
      let (n, d) := magnitude significand exponent
      let scaled := roundDiv (n * Nat.pow 10 places) d
      let digits := Decimal.padLeft (places + 1) '0' (Decimal.digitChars scaled)
      let whole := digits.take (digits.length - places)
      let rest := digits.drop (digits.length - places)
      signed negative (if rest.isEmpty then whole else whole ++ '.' :: rest)

/-- Decimal exponents beyond this are out of range whatever the digits are. -/
def decimalRange : Int := 400

/-- The number nearest to `digits · 10 ^ exponent`. -/
def ofDecimal (negative : Bool) (digits : Nat) (exponent : Int) : Binary64 :=
  if digits = 0 then .finite negative 0 leastExponent
  else
    let point := exponent + (Decimal.digitChars digits).length
    if decimalRange < point then .infinite negative
    else if point < -decimalRange then .finite negative 0 leastExponent
    else
      let (n, d) := Decimal.ratio digits exponent
      ofRatio negative n d

end Binary64

end Cyclomatic
