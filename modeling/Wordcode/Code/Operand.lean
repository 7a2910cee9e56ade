import Wordcode.Code.Word
import Wordcode.Fault

/-! Operand words. Below the modulus a word means itself, the next eight words name
registers, and the rest mean nothing. A destination is never decoded: only its
register number counts, and that wraps. -/

namespace Wordcode

inductive Operand where
  | literal (n : Fin wordModulus)
  | register (r : Register)
  deriving DecidableEq, Repr

namespace Operand

def decode (raw : Word) : Except Fault Operand :=
  if h : raw.toNat < wordModulus then
    .ok (literal ⟨raw.toNat, h⟩)
  else if h : raw.toNat - wordModulus < registerCount then
    .ok (register ⟨raw.toNat - wordModulus, h⟩)
  else
    .error (.invalidOperand raw.toNat)

/-- The word that is written for an operand. -/
def encode : Operand → Word
  | literal n => UInt16.ofNat n
  | register r => UInt16.ofNat (wordModulus + r)

/-- The register that an instruction with this destination word writes. -/
def target (raw : Word) : Register :=
  .wrap raw.toNat

/-- A literal shows as its number, a register as `R` and its number. -/
def text : Operand → String
  | literal n => toString n.val
  | register r => "R" ++ toString r.val

/-- The operand with its kind. -/
def inspect : Operand → String
  | literal n => "Literal(" ++ toString n.val ++ ")"
  | register r => "Register(" ++ toString r.val ++ ")"

theorem decode_encode (x : Operand) : decode x.encode = .ok x := by
  cases x with
  | literal n =>
    have hn : n.val < 32768 := n.isLt
    have h : (encode (literal n)).toNat = n.val :=
      UInt16.toNat_ofNat_of_lt (Nat.lt_trans hn (by decide))
    simp [decode, h]
  | register r =>
    have hr : r.val < 8 := r.isLt
    have h : (encode (register r)).toNat = wordModulus + r.val :=
      UInt16.toNat_ofNat_of_lt (by change 32768 + r.val < 65536; omega)
    simp [decode, h]

/-- Decoding fails on the words above the last register name and on no other. -/
theorem decode_eq_error_iff {raw : Word} {f : Fault} :
    decode raw = .error f ↔ 32776 ≤ raw.toNat ∧ f = .invalidOperand raw.toNat := by
  unfold decode
  split
  · rename_i h
    change raw.toNat < 32768 at h
    simp
    omega
  · split
    · rename_i h
      change raw.toNat - 32768 < 8 at h
      simp
      omega
    · rename_i h
      change ¬ raw.toNat - 32768 < 8 at h
      simp only [Except.error.injEq]
      constructor
      · rintro rfl
        exact ⟨by omega, rfl⟩
      · rintro ⟨_, rfl⟩
        rfl

end Operand

end Wordcode
