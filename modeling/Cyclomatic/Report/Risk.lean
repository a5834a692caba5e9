import Cyclomatic.Failure

/-! # Risk levels

A function's complexity puts it on one of three levels by two thresholds, of
which the higher level's is looked at first.
-/

namespace Cyclomatic

inductive Risk where
  | low
  | high
  | veryHigh
  deriving DecidableEq, Repr

namespace Risk

def all : List Risk := [.low, .high, .veryHigh]

def toText : Risk → String
  | .low => "low"
  | .high => "high"
  | .veryHigh => "very_high"

def ofText? (s : String) : Option Risk := all.find? (·.toText == s)

def rank : Risk → Nat
  | .low => 0
  | .high => 1
  | .veryHigh => 2

def defaultHigh : Int := 11

def defaultVeryHigh : Int := 21

/-- The level of a complexity under thresholds of any kind. -/
def judge (complexity high veryHigh : Value) : Except Failure Risk := do
  if ← orFail (complexity.compare .atLeast veryHigh) then return .veryHigh
  if ← orFail (complexity.compare .atLeast high) then return .high
  return .low

/-- The level of a complexity under the default thresholds. -/
def ofComplexity (complexity : Int) : Risk :=
  if defaultVeryHigh ≤ complexity then .veryHigh
  else if defaultHigh ≤ complexity then .high
  else .low

end Risk

end Cyclomatic
