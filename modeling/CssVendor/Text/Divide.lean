/-!
# Dividing a list from the left

A list is divided into consecutive pieces by a step that looks at all that is
left, says what the piece at its head is, and how many elements belong to it.
The rest of the piece is then passed over one element at a time, so that the
recursion follows the list; `divide_cons` is the equation to reason with.
-/

namespace CssVendor.Text

variable {α β : Type}

/-- What `step` finds in the list after its first `pending` elements, which
belong to a piece already found. -/
def divideFrom (step : List α → β × Nat) : Nat → List α → List β
  | _, [] => []
  | pending + 1, _ :: xs => divideFrom step pending xs
  | 0, x :: xs =>
      let (piece, length) := step (x :: xs)
      piece :: divideFrom step (length - 1) xs

/-- The pieces that `step` finds in a list. A piece that claims no element is
given one. -/
def divide (step : List α → β × Nat) (xs : List α) : List β :=
  divideFrom step 0 xs

theorem divideFrom_eq (step : List α → β × Nat) (pending : Nat)
    (xs : List α) :
    divideFrom step pending xs = divide step (xs.drop pending) := by
  induction xs generalizing pending with
  | nil => cases pending <;> simp [divideFrom, divide]
  | cons x xs ih =>
      cases pending with
      | zero => rfl
      | succ pending => rw [divideFrom, ih]; rfl

@[simp] theorem divide_nil (step : List α → β × Nat) :
    divide step [] = [] := rfl

/-- The first piece, and then the pieces of what it leaves. -/
theorem divide_cons (step : List α → β × Nat) (x : α) (xs : List α) :
    divide step (x :: xs) =
      (step (x :: xs)).1 :: divide step (xs.drop ((step (x :: xs)).2 - 1)) := by
  rw [← divideFrom_eq]; rfl

end CssVendor.Text
