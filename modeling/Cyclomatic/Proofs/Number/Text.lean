import Cyclomatic.Number.Basic

/-! # The characters of numbers

The text of a number has digits, signs, points, the mark of an exponent and the
letters of the words for what is no finite number. A character that is none of
these is not in it.
-/

namespace Cyclomatic

/-- The characters that numbers are written with. -/
def isNumeric (c : Char) : Bool :=
  c.isDigit || ['+', '-', '.', 'a', 'e', 'f', 'i', 'n'].contains c

/-- Characters that are all of them characters of numbers. -/
def Numeric (cs : List Char) : Prop := ∀ c ∈ cs, isNumeric c = true

instance (cs : List Char) : Decidable (Numeric cs) :=
  List.decidableBAll _ cs

namespace Numeric

variable {cs ds : List Char} {c : Char}

/-- A character that no number is written with is in no number. -/
theorem not_mem (hcs : Numeric cs) (hc : isNumeric c = false) : c ∉ cs := by
  intro hmem
  rw [hcs c hmem] at hc
  cases hc

theorem nil : Numeric [] := List.forall_mem_nil _

theorem cons (hc : isNumeric c = true) (hcs : Numeric cs) : Numeric (c :: cs) :=
  List.forall_mem_cons.mpr ⟨hc, hcs⟩

theorem append (hcs : Numeric cs) (hds : Numeric ds) : Numeric (cs ++ ds) :=
  List.forall_mem_append.mpr ⟨hcs, hds⟩

theorem take (hcs : Numeric cs) (n : Nat) : Numeric (cs.take n) :=
  fun c hc => hcs c (List.mem_of_mem_take hc)

theorem drop (hcs : Numeric cs) (n : Nat) : Numeric (cs.drop n) :=
  fun c hc => hcs c (List.mem_of_mem_drop hc)

theorem zeros (n : Nat) : Numeric (List.replicate n '0') := by
  intro c hc
  rw [List.eq_of_mem_replicate hc]
  rfl

theorem padLeft (hcs : Numeric cs) (width : Nat) : Numeric (Decimal.padLeft width '0' cs) :=
  (zeros _).append hcs

/-- A sign in front leaves a number a number. -/
theorem signed (hcs : Numeric cs) (negative : Bool) :
    Numeric (Binary64.signed negative cs).toList := by
  rw [Binary64.signed, String.toList_ofList]
  cases negative
  · exact hcs
  · exact cons rfl hcs

end Numeric

/-- Counts are written in digits. -/
theorem numeric_toDigits (n : Nat) : Numeric (Nat.toDigits 10 n) := by
  intro c hc
  rw [isNumeric, Nat.isDigit_of_mem_toDigits (by decide) (by decide) hc, Bool.true_or]

theorem numeric_repr (n : Nat) : Numeric (Nat.repr n).toList := by
  rw [Nat.toList_repr]
  exact numeric_toDigits n

theorem numeric_toString (i : Int) : Numeric (toString i).toList := by
  cases i with
  | ofNat n => exact numeric_repr n
  | negSucc n =>
      change Numeric ("-" ++ Nat.repr n.succ).toList
      rw [String.toList_append]
      exact Numeric.append (by decide) (numeric_repr n.succ)

/-- Decimals are written in digits, with a point or an exponent. -/
theorem Decimal.numeric_chars (x : Decimal) : Numeric x.chars := by
  have hdigits : Numeric (padLeft x.count '0' (digitChars x.digits)) :=
    (numeric_toDigits _).padLeft _
  unfold chars
  dsimp only
  split
  · split
    · exact (Numeric.append (by decide) (.zeros _)).append hdigits
    · refine (((hdigits.take _).append (.zeros _)).append (by decide)).append ?_
      split
      · decide
      · exact hdigits.drop _
  · have hsign : isNumeric (if x.point - 1 < 0 then '-' else '+') = true := by split <;> rfl
    refine (Numeric.append ?_ (.cons rfl (.cons hsign .nil))).append
      ((numeric_toDigits _).padLeft _)
    split
    next => exact .nil
    next d heq => rwa [heq] at hdigits
    next d rest _ heq =>
      rw [heq] at hdigits
      obtain ⟨hd, hrest⟩ := List.forall_mem_cons.mp hdigits
      exact .cons hd (.cons rfl hrest)

namespace Binary64

theorem numeric_infinite (negative : Bool) :
    Numeric (if negative then "-inf" else "inf").toList := by
  cases negative <;> decide

/-- Floating-point numbers are written as numbers, the infinite ones and the one that is none
included. -/
theorem numeric_toText (x : Binary64) : Numeric x.toText.toList := by
  unfold toText
  split
  next => decide
  next negative => exact numeric_infinite negative
  next negative significand exponent =>
    split
    · exact Numeric.signed (by decide) negative
    · exact (Decimal.numeric_chars _).signed negative

/-- With fixed places a floating-point number is written as a number too. -/
theorem numeric_toFixed (places : Nat) (x : Binary64) : Numeric (x.toFixed places).toList := by
  unfold toFixed
  split
  next => decide
  next negative => exact numeric_infinite negative
  next negative significand exponent =>
    dsimp only
    refine Numeric.signed ?_ negative
    have hdigits := (numeric_toDigits (roundDiv ((magnitude significand exponent).1 *
      Nat.pow 10 places) (magnitude significand exponent).2)).padLeft (places + 1)
    split
    · exact hdigits.take _
    · exact (hdigits.take _).append (.cons rfl (hdigits.drop _))

end Binary64

namespace Num

/-- Numbers of both kinds are written as numbers. -/
theorem numeric_toText (a : Num) : Numeric a.toText.toList := by
  cases a with
  | int i => exact numeric_toString i
  | real x => exact x.numeric_toText

/-- A number that has a text with fixed places is written as a number there. -/
theorem numeric_of_toFixed {a : Num} {places : Nat} {text : String}
    (htext : a.toFixed places = .ok text) : Numeric text.toList := by
  unfold toFixed at htext
  cases hx : a.toBinary64 with
  | error e =>
      rw [hx] at htext
      cases htext
  | ok x =>
      rw [hx] at htext
      obtain rfl := Except.ok.inj htext
      exact x.numeric_toFixed places

end Num

end Cyclomatic
