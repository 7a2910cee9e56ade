import Wordcode.Code.Instr
import Wordcode.Machine.Storage

/-! Reading code out of memory: the instruction at an address, and the next address
that holds an opcode. -/

namespace Wordcode.Memory

/-- The instruction that starts at `pc`. Its operand words are read in order, so the first
one past the end of memory is the one reported. -/
def fetch (mem : Memory) (pc : Nat) : Except Fault Instr := do
  let w ← mem.read pc
  match Opcode.ofWord? w with
  | none => throw (.invalidOpcode w.toNat)
  | some op =>
    match op.form with
    | .bare i => return i
    | .unary make => return make (← mem.read (pc + 1))
    | .binary make => return make (← mem.read (pc + 1)) (← mem.read (pc + 2))
    | .ternary make =>
      return make (← mem.read (pc + 1)) (← mem.read (pc + 2)) (← mem.read (pc + 3))

/-- Looks at `count` addresses from `start` on for an opcode. -/
def seek (mem : Memory) : (count start : Nat) → Option Nat
  | 0, _ => none
  | count + 1, start =>
    if h : start < memorySize then
      if Opcode.isOpcode (mem.get ⟨start, h⟩) then some start else seek mem count (start + 1)
    else
      none

/-- The first address at or after `start` whose word is an opcode. -/
def nextOpcode (mem : Memory) (start : Nat) : Option Nat :=
  mem.seek (memorySize - start) start

theorem seek_eq_some_iff {mem : Memory} {count start a : Nat} :
    mem.seek count start = some a ↔
      start ≤ a ∧ a < start + count ∧
        (∃ h : a < memorySize, Opcode.isOpcode (mem.get ⟨a, h⟩) = true) ∧
        ∀ b (h : b < memorySize), start ≤ b → b < a → Opcode.isOpcode (mem.get ⟨b, h⟩) = false := by
  induction count generalizing start with
  | zero => simp [seek]; omega
  | succ count ih =>
    unfold seek
    split
    · rename_i hs
      split
      · rename_i hop
        constructor
        · rintro ⟨⟩
          exact ⟨Nat.le_refl _, by omega, ⟨hs, hop⟩, fun b _ h₁ h₂ => by omega⟩
        · rintro ⟨h₁, -, ⟨ha, -⟩, hmin⟩
          rcases Nat.eq_or_lt_of_le h₁ with rfl | hlt
          · rfl
          · rw [hmin start hs (Nat.le_refl _) hlt] at hop
            cases hop
      · rename_i hop
        rw [ih]
        constructor
        · rintro ⟨h₁, h₂, h₃, hmin⟩
          refine ⟨by omega, by omega, h₃, fun b hb h₄ h₅ => ?_⟩
          rcases Nat.eq_or_lt_of_le h₄ with rfl | hlt
          · simpa using hop
          · exact hmin b hb hlt h₅
        · rintro ⟨h₁, h₂, ⟨ha, hop'⟩, hmin⟩
          have hne : start ≠ a := by
            rintro rfl
            exact hop hop'
          exact ⟨by omega, by omega, ⟨ha, hop'⟩, fun b hb h₄ h₅ => hmin b hb (by omega) h₅⟩
    · rename_i hs
      constructor
      · intro h
        cases h
      · rintro ⟨h₁, -, ⟨ha, -⟩, -⟩
        omega

/-- `nextOpcode` finds the least address from `start` on that holds an opcode. -/
theorem nextOpcode_eq_some_iff {mem : Memory} {start a : Nat} :
    mem.nextOpcode start = some a ↔
      start ≤ a ∧
        (∃ h : a < memorySize, Opcode.isOpcode (mem.get ⟨a, h⟩) = true) ∧
        ∀ b (h : b < memorySize), start ≤ b → b < a → Opcode.isOpcode (mem.get ⟨b, h⟩) = false := by
  unfold nextOpcode
  rw [seek_eq_some_iff]
  constructor
  · rintro ⟨h₁, -, h₃, h₄⟩
    exact ⟨h₁, h₃, h₄⟩
  · rintro ⟨h₁, ⟨ha, hop⟩, h₄⟩
    exact ⟨h₁, by omega, ⟨ha, hop⟩, h₄⟩

end Wordcode.Memory
