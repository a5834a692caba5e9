import Cyclomatic.Number.Decimal

/-! # Numbers

A number is an integer of any size or a binary floating-point number. The two
kinds compare by their exact values.
-/

namespace Cyclomatic

inductive Num where
  | int (i : Int)
  | real (x : Binary64)
  deriving DecidableEq, Repr, Inhabited

/-- Why a number has no floating-point value. -/
inductive Overflow where
  | quotient
  | integer
  deriving DecidableEq, Repr

def Overflow.message : Overflow → String
  | .quotient => "integer division result too large for a float"
  | .integer => "int too large to convert to float"

namespace Num

/-- Whole numbers that are read have at most this many digits. -/
def digitLimit : Nat := 4300

def tooManyDigits (count : Nat) : String :=
  s!"Exceeds the limit ({digitLimit} digits) for integer string conversion: value has {count} " ++
    "digits; use sys.set_int_max_str_digits() to increase the limit"

/-- Where a number stands on the extended line. -/
inductive Point where
  | below
  | at (num : Int) (den : Nat)
  | above

def point? : Num → Option Point
  | .int i => some (.at i 1)
  | .real .nan => none
  | .real (.infinite negative) => some (if negative then .below else .above)
  | .real x => x.toRatio?.map fun (n, d) => .at n d

/-- The order of two numbers by exact value; a NaN is not comparable. -/
def compare? (a b : Num) : Option Ordering :=
  match a.point?, b.point? with
  | some p, some q =>
      match p, q with
      | .below, .below | .above, .above => some .eq
      | .below, _ | _, .above => some .lt
      | .above, _ | _, .below => some .gt
      | .at n d, .at n' d' => some (compare (n * d') (n' * d))
  | _, _ => none

def lt (a b : Num) : Bool := a.compare? b == some .lt

def le (a b : Num) : Bool := a.compare? b == some .lt || a.compare? b == some .eq

def same (a b : Num) : Bool := a.compare? b == some .eq

def zero : Num := .int 0

def isZero (a : Num) : Bool := a.same zero

def toText : Num → String
  | .int i => toString i
  | .real x => x.toText

/-- The nearest floating-point number; an integer may be too large to have one. -/
def toBinary64 : Num → Except Overflow Binary64
  | .int i =>
      match Binary64.ofInt i with
      | .infinite _ => .error .integer
      | x => .ok x
  | .real x => .ok x

/-- The text with a fixed count of digits after the point. -/
def toFixed (places : Nat) (a : Num) : Except Overflow String :=
  return (← a.toBinary64).toFixed places

/-- Round to a count of digits after the point; an integer stays as it is. -/
def roundPlaces (places : Nat) : Num → Num
  | .int i => .int i
  | .real x => .real (x.roundPlaces places)

def double : Num → Num
  | .int i => .int (2 * i)
  | .real x => .real x.double

/-- The exact quotient of two integers, rounded once. -/
def quotient (total : Int) (count : Nat) : Except Overflow Num :=
  match Binary64.ofRatio (decide (total < 0)) total.natAbs count with
  | .infinite _ => .error .quotient
  | x => .ok (.real x)

end Num

end Cyclomatic
