/-! # Walks with an explicit stack

A walk takes the top of its stack, gives it out, and pushes what comes next in
its place. It ends because what comes next is smaller in total than what was
taken.
-/

namespace Cyclomatic

section

variable {α β : Type} (size : α → Nat)

/-- What the sizes of some items come to. -/
@[simp] def total : List α → Nat
  | [] => 0
  | a :: as => size a + total as

@[simp] theorem total_append (as bs : List α) :
    total size (as ++ bs) = total size as + total size bs := by
  induction as with
  | nil => simp
  | cons a as ih => simp [ih, Nat.add_assoc]

theorem total_map (f : β → α) (bs : List β) :
    total size (bs.map f) = total (fun b => size (f b)) bs := by
  induction bs with
  | nil => rfl
  | cons b bs ih => simp [ih]

end

/-- What follows each item of a walk, with a measure that bounds it. -/
structure Descent (α : Type) where
  next : α → List α
  size : α → Nat
  shrinks : ∀ a, total size (next a) < size a

namespace Descent

variable {α : Type} (d : Descent α)

/-- The items that a walk gives out from a stack, the top first. -/
def walkFrom : List α → List α
  | [] => []
  | a :: stack => a :: walkFrom (d.next a ++ stack)
termination_by stack => total d.size stack
decreasing_by
  have := d.shrinks a
  simp only [total_append, total]
  omega

def walk (a : α) : List α := d.walkFrom [a]

end Descent

end Cyclomatic
