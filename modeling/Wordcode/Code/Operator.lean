import Wordcode.Code.Opcode

/-! The seven operations that combine two values into a third. -/

namespace Wordcode

inductive Operator where
  | eq | gt | add | mul | mod | and | or
  deriving DecidableEq, Repr

namespace Operator

def opcode : Operator → Opcode
  | eq => .eq
  | gt => .gt
  | add => .add
  | mul => .mul
  | mod => .mod
  | and => .and
  | or => .or

/-- Comparisons give one for true and zero for false; a remainder by zero has no value. -/
def eval? (op : Operator) (x y : Word) : Option Word :=
  match op with
  | eq => some (if x = y then 1 else 0)
  | gt => some (if y < x then 1 else 0)
  | add => some (reduce (x.toNat + y.toNat))
  | mul => some (reduce (x.toNat * y.toNat))
  | mod => if y = 0 then none else some (reduce (x % y).toNat)
  | and => some (reduce (x &&& y).toNat)
  | or => some (reduce (x ||| y).toNat)

theorem eval?_eq_none_iff {op : Operator} {x y : Word} :
    op.eval? x y = none ↔ op = .mod ∧ y = 0 := by
  cases op <;> simp [eval?]

theorem eval?_lt {op : Operator} {x y z : Word} (h : op.eval? x y = some z) :
    z.toNat < wordModulus := by
  cases op <;> simp only [eval?, Option.some.injEq] at h
  case eq | gt => subst h; split <;> decide
  case mod =>
    split at h
    · cases h
    · cases h; exact reduce_lt _
  all_goals subst h; exact reduce_lt _

/-- The number an operation computes before it is reduced. -/
def raw (op : Operator) (x y : Nat) : Nat :=
  match op with
  | eq => if x = y then 1 else 0
  | gt => if y < x then 1 else 0
  | add => x + y
  | mul => x * y
  | mod => x % y
  | and => x &&& y
  | or => x ||| y

/-- What is stored is the reduced number. -/
theorem eq_reduce_raw {op : Operator} {x y z : Word} (h : op.eval? x y = some z) :
    z = reduce (op.raw x.toNat y.toNat) := by
  cases op <;> simp only [eval?, Option.some.injEq] at h
  case eq =>
    simp only [raw, UInt16.toNat_inj]
    rw [← h]
    split <;> rfl
  case gt =>
    simp only [raw, ← UInt16.lt_iff_toNat_lt]
    rw [← h]
    split <;> rfl
  case mod =>
    split at h
    · cases h
    · rw [← Option.some.inj h, UInt16.toNat_mod]
      rfl
  case add | mul => rw [← h, raw]; push_cast; rfl
  case and => rw [← h, UInt16.toNat_and]; rfl
  case or => rw [← h, UInt16.toNat_or]; rfl

end Operator

end Wordcode
