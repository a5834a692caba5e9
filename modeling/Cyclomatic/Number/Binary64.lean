/-! # Binary floating-point numbers

A number is held exactly, as a signed significand times a power of two. Every
operation takes the exact rational result and rounds it once, to the nearest
number, a tie to the even significand.
-/

namespace Cyclomatic

/-- A double-precision number. In a finite one the significand is below
`2 ^ 53`, and at least `2 ^ 52` unless the exponent is the least one. -/
inductive Binary64 where
  | finite (negative : Bool) (significand : Nat) (exponent : Int)
  | infinite (negative : Bool)
  | nan
  deriving DecidableEq, Repr, Inhabited

namespace Binary64

def leastExponent : Int := -1074

def greatestExponent : Int := 971

def significandLimit : Nat := Nat.pow 2 53

def zero : Binary64 := .finite false 0 leastExponent

/-- The quotient rounded to the nearest natural number, a half to the even one. -/
def roundDiv (num den : Nat) : Nat :=
  let quotient := num / den
  let twice := 2 * (num % den)
  if twice < den then quotient
  else if den < twice then quotient + 1
  else quotient + quotient % 2

/-- `num / den` divided by `2 ^ exponent`, again as a fraction. -/
def scale (num den : Nat) (exponent : Int) : Nat × Nat :=
  if exponent < 0 then (num * Nat.pow 2 (-exponent).toNat, den)
  else (num, den * Nat.pow 2 exponent.toNat)

/-- The least exponent at which the whole part of `num / den` is a significand. -/
def exponentFor (num den : Nat) : Int :=
  let guess : Int := (num.log2 : Int) - den.log2 - 53
  let (n, d) := scale num den guess
  max leastExponent (if n / d < significandLimit then guess else guess + 1)

/-- The number nearest to `num / den`, infinite when the quotient is out of range. -/
def ofRatio (negative : Bool) (num den : Nat) : Binary64 :=
  if num = 0 then .finite negative 0 leastExponent
  else
    let exponent := exponentFor num den
    let (n, d) := scale num den exponent
    let rounded := roundDiv n d
    let (significand, exponent) :=
      if rounded = significandLimit then (significandLimit / 2, exponent + 1) else (rounded, exponent)
    if greatestExponent < exponent then .infinite negative
    else .finite negative significand exponent

def ofInt (i : Int) : Binary64 := ofRatio (decide (i < 0)) i.natAbs 1

/-- The magnitude of a finite number as a fraction. -/
def magnitude (significand : Nat) (exponent : Int) : Nat × Nat :=
  scale significand 1 (-exponent)

def isZero : Binary64 → Bool
  | .finite _ significand _ => significand == 0
  | _ => false

/-- A number as a signed fraction. -/
def toRatio? : Binary64 → Option (Int × Nat)
  | .finite negative significand exponent =>
      let (n, d) := magnitude significand exponent
      some (if negative then -(n : Int) else n, d)
  | _ => none

/-- The difference, rounded once. -/
def sub (x y : Binary64) : Binary64 :=
  match x, y with
  | .nan, _ | _, .nan => .nan
  | .infinite a, .infinite b => if a = b then .nan else .infinite a
  | .infinite a, _ => .infinite a
  | _, .infinite b => .infinite (!b)
  | .finite a _ _, .finite b _ _ =>
      match x.toRatio?, y.toRatio? with
      | some (n, d), some (n', d') =>
          let num := n * d' - n' * d
          if num = 0 then .finite (a && !b) 0 leastExponent
          else ofRatio (decide (num < 0)) num.natAbs (d * d')
      | _, _ => .nan

def neg : Binary64 → Binary64
  | .finite negative significand exponent => .finite (!negative) significand exponent
  | .infinite negative => .infinite (!negative)
  | .nan => .nan

/-- The sum, rounded once. -/
def add (x y : Binary64) : Binary64 := x.sub y.neg

/-- The product, rounded once. -/
def mul (x y : Binary64) : Binary64 :=
  match x, y with
  | .nan, _ | _, .nan => .nan
  | .infinite a, .infinite b => .infinite (a != b)
  | .infinite a, .finite b significand _ | .finite b significand _, .infinite a =>
      if significand = 0 then .nan else .infinite (a != b)
  | .finite a s e, .finite b t f =>
      let (n, d) := magnitude s e
      let (n', d') := magnitude t f
      ofRatio (a != b) (n * n') (d * d')

def double : Binary64 → Binary64
  | .finite negative significand exponent =>
      let (n, d) := magnitude significand exponent
      ofRatio negative (2 * n) d
  | x => x

/-- The number nearest to the decimal with `places` digits after the point that
is nearest to `x`. -/
def roundPlaces (places : Nat) : Binary64 → Binary64
  | .finite negative significand exponent =>
      let (n, d) := magnitude significand exponent
      let unit := Nat.pow 10 places
      ofRatio negative (roundDiv (n * unit) d) unit
  | x => x

end Binary64

end Cyclomatic
