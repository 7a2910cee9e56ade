import Wordcode.Machine.Input

/-! Cutting a sequence into lines. A piece runs up to and including its terminator, so
the pieces put together give the sequence back. -/

namespace Wordcode

/-- Divides a list just behind the first item that `stop` holds of. -/
def cut {α : Type} (stop : α → Bool) : List α → List α × List α
  | [] => ([], [])
  | x :: xs =>
    if stop x then
      ([x], xs)
    else
      match cut stop xs with
      | (piece, rest) => (x :: piece, rest)

/-- Divides a list behind every item that `stop` holds of. -/
def pieces {α : Type} (stop : α → Bool) : List α → List (List α)
  | [] => []
  | x :: xs =>
    if stop x then
      [x] :: pieces stop xs
    else
      match pieces stop xs with
      | [] => [[x]]
      | piece :: rest => (x :: piece) :: rest

/-- A piece of text without its line feed and without a carriage return right before that.
A piece with no line feed is kept as it is. -/
def stripLine (piece : List Char) : List Char :=
  if piece.getLast? = some '\n' then dropFinal '\r' piece.dropLast else piece

/-- The lines of a text. A final line feed starts no line. -/
def textLines (text : String) : List String :=
  (pieces (· = '\n') text.toList).map fun piece => String.ofList (stripLine piece)

theorem cut_append {α : Type} (stop : α → Bool) (xs : List α) :
    (cut stop xs).1 ++ (cut stop xs).2 = xs := by
  induction xs with
  | nil => rfl
  | cons x xs ih =>
    simp only [cut]
    split
    · rfl
    · simpa using ih

theorem flatten_pieces {α : Type} (stop : α → Bool) (xs : List α) :
    (pieces stop xs).flatten = xs := by
  induction xs with
  | nil => rfl
  | cons x xs ih =>
    simp only [pieces]
    split
    · simp [ih]
    · split <;> rename_i h <;> rw [h] at ih <;> simp_all

/-- The first piece is what `cut` takes off. -/
theorem pieces_cons {α : Type} (stop : α → Bool) (x : α) (xs : List α) :
    pieces stop (x :: xs) = (cut stop (x :: xs)).1 :: pieces stop (cut stop (x :: xs)).2 := by
  induction xs generalizing x with
  | nil => by_cases h : stop x = true <;> simp [pieces, cut, h]
  | cons y ys ih =>
    by_cases h : stop x = true
    · simp [pieces, cut, h]
    · rw [pieces]
      simp only [h, ↓reduceIte, ih y, Bool.false_eq_true]
      conv => rhs; rw [cut]
      simp [h]

end Wordcode
