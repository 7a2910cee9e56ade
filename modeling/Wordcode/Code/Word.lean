/-! Words, addresses and register names. A stored word has sixteen bits; results
are kept modulo `2 ^ 15`, which is also the number of addresses. The eight stored
words just above the modulus are how a program names a register. -/

namespace Wordcode

abbrev Word := UInt16

/-- The number of values an instruction can compute. -/
abbrev wordModulus : Nat := 32768

abbrev memorySize : Nat := 32768

abbrev registerCount : Nat := 8

/-- The place of one word of memory. -/
abbrev Address := Fin memorySize

abbrev Register := Fin registerCount

/-- Register numbers wrap around: number eight is register zero. -/
def Register.wrap (n : Nat) : Register :=
  ⟨n % registerCount, Nat.mod_lt n (by decide)⟩

/-- The result of an instruction: the remainder modulo `wordModulus`, never negative. -/
def reduce (n : Int) : Word :=
  UInt16.ofNat (n % wordModulus).toNat

theorem toNat_reduce (n : Int) : (reduce n).toNat = (n % 32768).toNat := by
  have : (n % 32768).toNat < 2 ^ 16 := by omega
  exact (UInt16.toNat_ofNat').trans (Nat.mod_eq_of_lt this)

theorem reduce_lt (n : Int) : (reduce n).toNat < wordModulus := by
  rw [toNat_reduce]
  change _ < 32768
  omega

/-- A value already in range is kept. -/
theorem reduce_of_lt {w : Word} (h : w.toNat < wordModulus) : reduce w.toNat = w := by
  apply UInt16.toNat_inj.mp
  rw [toNat_reduce]
  change w.toNat < 32768 at h
  omega

end Wordcode
