import Mathlib.Algebra.Order.Ring.Int
import Wordcode.Proofs.Host.Supply

/-! Arithmetic on fifteen bits. An instruction computes a whole number from its operands and keeps
the remainder modulo `2 ^ 15`. On the values a reachable machine can have, the number is small and
the remainder is what the operation on bit vectors of that width gives, whichever registers the
operands and the destination name. -/

namespace Wordcode

/-! ## Operations on whole numbers and on bits -/

namespace Operator

/-- The operation on values below `2 ^ 15`. Only a sum and a product have to be reduced. -/
def exact (op : Operator) (x y : Nat) : Nat :=
  match op with
  | eq => if x = y then 1 else 0
  | gt => if y < x then 1 else 0
  | add => (x + y) % 2 ^ 15
  | mul => (x * y) % 2 ^ 15
  | mod => x % y
  | and => x &&& y
  | or => x ||| y

/-- The operation on bit vectors. -/
def bits (op : Operator) (a b : BitVec 15) : BitVec 15 :=
  match op with
  | eq => if a = b then 1 else 0
  | gt => if b < a then 1 else 0
  | add => a + b
  | mul => a * b
  | mod => a % b
  | and => a &&& b
  | or => a ||| b

theorem toNat_bits (op : Operator) (a b : BitVec 15) :
    (op.bits a b).toNat = op.exact a.toNat b.toNat := by
  cases op with
  | eq => simp only [bits, exact, ← BitVec.toNat_inj]; split <;> rfl
  | gt => simp only [bits, exact, BitVec.lt_def]; split <;> rfl
  | add => exact BitVec.toNat_add a b
  | mul => exact BitVec.toNat_mul a b
  | mod => exact BitVec.toNat_umod
  | and => exact BitVec.toNat_and a b
  | or => exact BitVec.toNat_or a b

variable {op : Operator} {x y : Nat}

/-- On values that fit, numbers and bits are computed alike. -/
theorem exact_eq_toNat_bits (hx : x < 32768) (hy : y < 32768) :
    op.exact x y = (op.bits (BitVec.ofNat 15 x) (BitVec.ofNat 15 y)).toNat := by
  rw [toNat_bits, BitVec.toNat_ofNat, BitVec.toNat_ofNat, Nat.mod_eq_of_lt hx,
    Nat.mod_eq_of_lt hy]

theorem exact_lt (hx : x < 32768) (hy : y < 32768) : op.exact x y < 32768 := by
  rw [exact_eq_toNat_bits hx hy]
  exact BitVec.isLt _

theorem raw_lt (hx : x < 32768) (hy : y < 32768) : op.raw x y < 2 ^ 30 := by
  have hsmall : op.exact x y < 2 ^ 30 := Nat.lt_trans (exact_lt hx hy) (by decide)
  cases op with
  | add =>
    simp only [raw]
    omega
  | mul =>
    have hproduct : x * y < 32768 * 32768 := Nat.mul_lt_mul'' hx hy
    exact hproduct
  | eq | gt | mod | and | or => exact hsmall

theorem raw_mod (hx : x < 32768) (hy : y < 32768) : op.raw x y % 32768 = op.exact x y := by
  have hsmall : op.exact x y % 32768 = op.exact x y := Nat.mod_eq_of_lt (exact_lt hx hy)
  cases op with
  | add | mul => rfl
  | eq | gt | mod | and | or => exact hsmall

theorem toNat_of_eval? {x y z : Word} (hx : x.toNat < 32768) (hy : y.toNat < 32768)
    (h : op.eval? x y = some z) : z.toNat = op.exact x.toNat y.toNat := by
  rw [eq_reduce_raw h, toNat_reduce, ← raw_mod hx hy]
  omega

theorem divisor_pos {x y z : Word} (h : mod.eval? x y = some z) : 0 < y.toNat := by
  refine Nat.pos_of_ne_zero fun hzero => ?_
  obtain rfl : y = 0 := UInt16.toNat_inj.mp hzero
  rw [eval?_eq_none_iff.mpr ⟨rfl, rfl⟩] at h
  cases h

end Operator

/-- A negative number below the modulus is reduced to its complement. -/
theorem toNat_reduce_not {x : Nat} (hx : x < 32768) :
    (reduce (-x - 1)).toNat = 32767 - x ∧ 32767 - x = (~~~ BitVec.ofNat 15 x).toNat := by
  refine ⟨?_, ?_⟩
  · rw [toNat_reduce]
    omega
  · rw [BitVec.toNat_not, BitVec.toNat_ofNat, Nat.mod_eq_of_lt hx]

/-! ## What a register holds afterwards -/

/-- An instruction that was fetched and neither faults nor reads input completes by the rules, and
its effect is all that happens to the registers. -/
theorem Machine.acts_of_fetch {m : Machine} {i : Instr} (hf : m.memory.fetch m.pc = .ok i)
    (hi : ∀ dst, i ≠ .input dst) (hfault : ∀ f, m.step.event ≠ some (.fault f)) :
    ∃ e flow, m.Acts i e flow ∧ m.step.machine.registers = (m.apply e).registers := by
  have ht := m.step_trial
  generalize m.step.event = event at ht hfault
  generalize m.step.machine = after at ht
  cases ht with
  | fault => exact absurd rfl (hfault _)
  | wait hwaits =>
    obtain ⟨hf', hplan⟩ := attempt_eq_waits_iff.mp hwaits
    cases hf.symm.trans hf'
    obtain ⟨dst, place, hinput, -⟩ := plan_eq_wait_iff.mp hplan
    exact absurd hinput (hi dst)
  | complete hf' ha hfollow =>
    cases hf.symm.trans hf'
    exact ⟨_, _, ha, congrArg (fun n => n.registers) hfollow.frame⟩

namespace Session

/-- One instruction leaves this word in the register that the destination names, and all other
registers as they were. -/
def Stores (s : Session) (dst w : Word) : Prop :=
  ∀ r : Register, (s.execute 1).2.machine.registers.get r =
    if r.val = dst.toNat % 8 then w else s.machine.registers.get r

theorem stores_of_acts {s : Session} (hrun : s.machine.status = .running) {e : Effect}
    (hregisters : s.machine.step.machine.registers = (s.machine.apply e).registers) {dst w : Word}
    (he : e.register = some (Operand.target dst, w)) : s.Stores dst w := by
  intro r
  rw [machine_execute_one hrun, hregisters, Machine.registers_apply, he]
  dsimp only
  by_cases hr : Operand.target dst = r
  · subst hr
    rw [Registers.get_set_self]
    exact (if_pos rfl).symm
  · rw [Registers.get_set_of_ne _ hr, if_neg]
    intro hval
    exact hr (Fin.ext hval.symm)

/-- **The arithmetic of a reachable machine is exact on fifteen bits.** The operands are evaluated
before anything is stored, so they may name the destination; no number on the way leaves the range
of 64 bits. -/
theorem arithmetic_exact {s : Session} (h : Reachable s) (hrun : s.machine.status = .running)
    (hfault : ∀ f, (s.execute 1).1 ≠ some (.fault f)) :
    (∀ op dst lhs rhs,
      s.machine.memory.fetch s.machine.pc = .ok (.compute op dst lhs rhs) →
      ∃ x y z, s.machine.value lhs = .ok x ∧ s.machine.value rhs = .ok y ∧
        x.toNat < 32768 ∧ y.toNat < 32768 ∧ s.Stores dst z ∧
        z.toNat = op.exact x.toNat y.toNat ∧
        z.toNat = (op.bits (BitVec.ofNat 15 x.toNat) (BitVec.ofNat 15 y.toNat)).toNat ∧
        (op = .mod → 0 < y.toNat ∧ z.toNat < y.toNat) ∧
        z = reduce (op.raw x.toNat y.toNat) ∧ op.raw x.toNat y.toNat < 2 ^ 63) ∧
    (∀ dst src, s.machine.memory.fetch s.machine.pc = .ok (.not dst src) →
      ∃ x z, s.machine.value src = .ok x ∧ x.toNat < 32768 ∧ s.Stores dst z ∧
        z.toNat = 32767 - x.toNat ∧ z.toNat = (~~~ BitVec.ofNat 15 x.toNat).toNat ∧
        z = reduce (-x.toNat - 1) ∧ -2 ^ 63 ≤ (-x.toNat - 1 : Int) ∧
        (-x.toNat - 1 : Int) < 2 ^ 63) := by
  obtain ⟨image, hb⟩ := h.bounded
  rw [event_execute_one hrun] at hfault
  refine ⟨?_, ?_⟩
  · intro op dst lhs rhs hf
    obtain ⟨e, flow, ha, hregisters⟩ := Machine.acts_of_fetch hf (fun _ => nofun) hfault
    cases ha with
    | @compute _ _ _ _ x y z hx hy hz =>
      have hxlt := hb.value_lt hx
      have hylt := hb.value_lt hy
      have hexact := Operator.toNat_of_eval? hxlt hylt hz
      refine ⟨x, y, z, hx, hy, hxlt, hylt, stores_of_acts hrun hregisters rfl, hexact,
        hexact.trans (Operator.exact_eq_toNat_bits hxlt hylt), ?_, Operator.eq_reduce_raw hz,
        Nat.lt_trans (Operator.raw_lt hxlt hylt) (by decide)⟩
      rintro rfl
      have hpos := Operator.divisor_pos hz
      rw [hexact]
      exact ⟨hpos, Nat.mod_lt _ hpos⟩
  · intro dst src hf
    obtain ⟨e, flow, ha, hregisters⟩ := Machine.acts_of_fetch hf (fun _ => nofun) hfault
    cases ha with
    | @not _ _ x hx =>
      have hxlt := hb.value_lt hx
      obtain ⟨hnot, hbits⟩ := toNat_reduce_not hxlt
      exact ⟨x, _, hx, hxlt, stores_of_acts hrun hregisters rfl, hnot, hnot.trans hbits, rfl,
        by omega, by omega⟩

/-- An instruction that completes by the rules does not fault. -/
theorem execute_one_ne_fault {s : Session} {m : Machine} (hs : s.machine = m)
    (hrun : m.status = .running) {i : Instr} {e : Effect} {flow : Flow}
    (hf : m.memory.fetch m.pc = .ok i) (ha : m.Acts i e flow) (f : Fault) :
    (s.execute 1).1 ≠ some (.fault f) := by
  rw [(execute_one_of_rules hs hrun hf ha).1]
  exact (Machine.follow_follows _ i flow).event_ne_fault f

/-- Complements a register in place and then squares it in place; the complement has a destination
that would be no operand. -/
def inPlaceImage : List Word := [14, 65535, 32775, 10, 32775, 32775, 32775]

/-- The complement of zero is the greatest value, and the square of that leaves one. -/
theorem arithmetic_exact_in_place :
    ∃ s, Reachable s ∧ s.Stores 65535 32767 ∧ (s.execute 1).2.Stores 32775 1 := by
  obtain ⟨mem, s, hboot, hs, -, hfetch⟩ :=
    boot_of_le { threshold := .warn } inPlaceImage .flat (by decide)
  have h₀ : mem.fetch 0 = .ok (.not 65535 32775) := hfetch ⟨_, rfl⟩
  have h₃ : mem.fetch 3 = .ok (.compute .mul 32775 32775 32775) := hfetch ⟨_, rfl⟩
  have hreach : Reachable s := hboot ▸ .boot _ _ _
  have hreach' := hreach.execute 1
  -- the complement
  have hx : s.machine.value 32775 = .ok 0 := by
    rw [hs]
    exact Machine.value_eq_ok_iff.mpr ⟨by decide, rfl⟩
  have hacts : s.machine.Acts (.not 65535 32775) _ _ := .not hx
  rw [hs] at hacts
  obtain ⟨-, ht⟩ := execute_one_of_rules hs rfl h₀ hacts
  simp only [Machine.follow] at ht
  rw [Machine.proceed_of_fetch h₃] at ht
  have hnot := (arithmetic_exact hreach (by rw [hs]) (execute_one_ne_fault hs rfl h₀ hacts)).2
    65535 32775 (by rw [hs]; exact h₀)
  obtain ⟨x, z, hx', -, hstores, hz, -⟩ := hnot
  cases hx.symm.trans hx'
  have hcomplement : 32767 - (0 : Word).toNat = (32767 : Word).toNat := by decide
  obtain rfl : z = 32767 := UInt16.toNat_inj.mp (hz.trans hcomplement)
  -- the square
  refine ⟨s, hreach, hstores, ?_⟩
  have hseven : Register.wrap ((32775 : Word).toNat - 32768) = 7 := by decide
  have hy : (s.execute 1).2.machine.value 32775 = .ok 32767 := by
    refine Machine.value_eq_ok_iff.mpr ⟨by decide, ?_⟩
    rw [Machine.denote, if_neg (by decide), hseven, hstores 7]
    rfl
  generalize (s.execute 1).2 = t at ht hy hreach' ⊢
  have hacts' : t.machine.Acts (.compute .mul 32775 32775 32775) _ _ := .compute hy hy rfl
  rw [ht] at hacts'
  have hmul := (arithmetic_exact hreach' (by rw [ht]; rfl)
    (execute_one_ne_fault ht rfl h₃ hacts')).1 .mul 32775 32775 32775 (by rw [ht]; exact h₃)
  obtain ⟨y, y', w, hy', hy'', -, -, hstores', hw, -⟩ := hmul
  cases hy.symm.trans hy'
  cases hy.symm.trans hy''
  have hsquare : Operator.mul.exact (32767 : Word).toNat (32767 : Word).toNat = (1 : Word).toNat := by
    decide
  obtain rfl : w = 1 := UInt16.toNat_inj.mp (hw.trans hsquare)
  exact hstores'

end Session

end Wordcode
