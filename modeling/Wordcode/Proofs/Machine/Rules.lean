import Wordcode.Machine.Step

/-! What an instruction does, as rules. `Machine.plan` works it out by evaluating operands
one after the other; `Acts` has one rule for each way in which an instruction can complete,
and `plan_eq_act_iff` says that the two agree. Whatever holds along every rule holds of
every completed instruction, so later proofs split on rules and never open `plan`. -/

namespace Wordcode

/-! ## Computations that may fail -/

section

variable {ε α β : Type}

theorem bind_eq_ok_iff {x : Except ε α} {k : α → Except ε β} {b : β} :
    (x >>= k) = .ok b ↔ ∃ a, x = .ok a ∧ k a = .ok b := by
  cases x <;> simp [bind, Except.bind]

@[simp] theorem pure_eq_ok_iff {a b : α} : (pure a : Except ε α) = .ok b ↔ a = b := by
  simp [pure, Except.pure]

@[simp] theorem throw_ne_ok {a : α} {e : ε} : (throw e : Except ε α) ≠ .ok a := by
  simp [throw, throwThe, MonadExceptOf.throw]

end

@[simp] theorem Stack.top_eq_ok_iff {st : Stack} {detail : String} {w : Word} :
    st.top detail = .ok w ↔ st.top? = some w := by
  unfold Stack.top
  cases st.top? <;> simp

namespace Machine

/-! ## Operand values -/

/-- What a valid operand word stands for: itself, or the contents of the register it names. -/
def denote (m : Machine) (raw : Word) : Word :=
  if raw.toNat < 32768 then raw else m.registers.get (Register.wrap (raw.toNat - 32768))

/-- Evaluating an operand fails above the last register name and nowhere else. -/
theorem value_eq (m : Machine) (raw : Word) :
    m.value raw =
      if raw.toNat < 32776 then .ok (m.denote raw) else .error (.invalidOperand raw.toNat) := by
  simp only [value, Registers.value, Operand.decode, denote]
  split
  · rename_i h
    change raw.toNat < 32768 at h
    simp [bind, Except.bind, pure, Except.pure, show raw.toNat < 32776 by omega]
  · rename_i h
    change ¬ raw.toNat < 32768 at h
    split
    · rename_i hr
      change raw.toNat - 32768 < 8 at hr
      have hw : Register.wrap (raw.toNat - 32768) = ⟨raw.toNat - 32768, hr⟩ :=
        Fin.ext (Nat.mod_eq_of_lt hr)
      simp [bind, Except.bind, pure, Except.pure, show raw.toNat < 32776 by omega, hw]
    · rename_i hr
      change ¬ raw.toNat - 32768 < 8 at hr
      simp [bind, Except.bind, show ¬ raw.toNat < 32776 by omega]

theorem value_eq_ok_iff {m : Machine} {raw x : Word} :
    m.value raw = .ok x ↔ raw.toNat < 32776 ∧ m.denote raw = x := by
  rw [value_eq]
  by_cases h : raw.toNat < 32776
  · simp [h]
  · simp [h]

/-! ## The rules -/

/-- The ways in which an instruction completes, with what it changes and where control goes. -/
inductive Acts (m : Machine) : Instr → Effect → Flow → Prop where
  | halt : Acts m .halt {} .halt
  | noop : Acts m .noop {} .next
  | set {dst src x : Word} : m.value src = .ok x →
      Acts m (.set dst src) { register := some (Operand.target dst, reduce x.toNat) } .next
  | push {src x : Word} : m.value src = .ok x →
      Acts m (.push src) { stack := .push x } .next
  | pop {dst w : Word} : m.stack.top? = some w →
      Acts m (.pop dst)
        { register := some (Operand.target dst, reduce w.toNat), stack := .drop } .next
  | compute {op : Operator} {dst lhs rhs x y z : Word} : m.value lhs = .ok x →
      m.value rhs = .ok y → op.eval? x y = some z →
      Acts m (.compute op dst lhs rhs) { register := some (Operand.target dst, z) } .next
  | not {dst src x : Word} : m.value src = .ok x →
      Acts m (.not dst src)
        { register := some (Operand.target dst, reduce (-x.toNat - 1)) } .next
  | jump {target t : Word} : m.value target = .ok t → Acts m (.jump target) {} (.jump t)
  | taken {sense : Bool} {cond target x t : Word} : m.value cond = .ok x →
      (x != 0) = sense → m.value target = .ok t →
      Acts m (.branch sense cond target) {} (.jump t)
  | passed {sense : Bool} {cond target x : Word} : m.value cond = .ok x →
      (x != 0) ≠ sense → Acts m (.branch sense cond target) {} .next
  | load {dst addr a w : Word} : m.value addr = .ok a → m.memory.read a.toNat = .ok w →
      Acts m (.load dst addr) { register := some (Operand.target dst, reduce w.toNat) } .next
  | store {addr src a w : Word} {place : Address} : m.value addr = .ok a →
      m.value src = .ok w → Memory.locate a.toNat = .ok place →
      Acts m (.store addr src) { cell := some (place, w) } .next
  | call {target t : Word} : m.value target = .ok t →
      Acts m (.call target) { stack := .push (m.returnAddress (.call target)) } (.jump t)
  | ret {w : Word} : m.stack.top? = some w → Acts m .ret { stack := .drop } (.jump w)
  | out {src x : Word} : m.value src = .ok x → Acts m (.out src) {} (.print (charOfWord x))
  | inputRegister {dst : Word} {r : Register} {c : Char} :
      Operand.decode dst = .ok (.register r) → m.input.next? = some c →
      Acts m (.input dst) { register := some (r, reduce c.toNat), reads := true } .next
  | inputCell {dst : Word} {a : Fin wordModulus} {c : Char} :
      Operand.decode dst = .ok (.literal a) → m.input.next? = some c →
      Acts m (.input dst) { cell := some (a, reduce c.toNat), reads := true } .next

/-- Working an instruction out and following the rules come to the same. -/
theorem plan_eq_act_iff {m : Machine} {i : Instr} {e : Effect} {flow : Flow} :
    m.plan i = .ok (.act e flow) ↔ Acts m i e flow := by
  constructor
  · intro h
    cases i <;>
      simp only [plan, bind_eq_ok_iff, pure_eq_ok_iff, Plan.assign, Plan.act.injEq,
        Stack.top_eq_ok_iff] at h
    case halt | noop => obtain ⟨rfl, rfl⟩ := h; constructor
    case set | push | pop | not | jump | call | ret | out =>
      obtain ⟨x, hx, rfl, rfl⟩ := h
      constructor
      exact hx
    case load =>
      obtain ⟨a, ha, w, hw, rfl, rfl⟩ := h
      exact .load ha hw
    case store =>
      obtain ⟨a, ha, w, hw, place, hp, rfl, rfl⟩ := h
      exact .store ha hw hp
    case compute =>
      obtain ⟨x, hx, y, hy, h⟩ := h
      split at h
      · rename_i z hz
        simp only [pure_eq_ok_iff, Plan.act.injEq] at h
        obtain ⟨rfl, rfl⟩ := h
        exact .compute hx hy hz
      · exact absurd h throw_ne_ok
    case branch sense cond target =>
      obtain ⟨x, hx, h⟩ := h
      split at h
      · rename_i ht
        simp only [bind_eq_ok_iff, pure_eq_ok_iff, Plan.act.injEq] at h
        obtain ⟨t, hv, rfl, rfl⟩ := h
        exact .taken hx ht hv
      · rename_i ht
        simp only [pure_eq_ok_iff, Plan.act.injEq] at h
        obtain ⟨rfl, rfl⟩ := h
        exact .passed hx ht
    case input dst =>
      obtain ⟨place, hp, h⟩ := h
      split at h
      · rename_i c hc
        cases place <;> simp only [pure_eq_ok_iff, Plan.act.injEq] at h <;>
          obtain ⟨rfl, rfl⟩ := h
        · exact .inputCell hp hc
        · exact .inputRegister hp hc
      · split at h
        · exact absurd h throw_ne_ok
        · simp at h
  · intro h
    cases h <;> simp_all [plan, bind, Except.bind, pure, Except.pure, Plan.assign, Stack.top]

/-- An instruction waits only if it reads a character and none is pending. -/
theorem plan_eq_wait_iff {m : Machine} {i : Instr} :
    m.plan i = .ok .wait ↔
      ∃ dst place, i = .input dst ∧ Operand.decode dst = .ok place ∧ m.input.next? = none ∧
        m.input.closed = false := by
  constructor
  · intro h
    cases i <;>
      simp only [plan, bind_eq_ok_iff, pure_eq_ok_iff, Plan.assign, reduceCtorEq, and_false,
        exists_false] at h
    case compute =>
      obtain ⟨x, -, y, -, h⟩ := h
      split at h
      · simp at h
      · exact absurd h throw_ne_ok
    case branch =>
      obtain ⟨x, -, h⟩ := h
      split at h <;>
        simp only [bind_eq_ok_iff, pure_eq_ok_iff, reduceCtorEq, and_false, exists_false] at h
    case input dst =>
      obtain ⟨place, hp, h⟩ := h
      split at h
      · cases place <;> simp at h
      · rename_i hc
        split at h
        · exact absurd h throw_ne_ok
        · rename_i hopen
          exact ⟨dst, place, rfl, hp, hc, by simpa using hopen⟩
  · rintro ⟨dst, place, rfl, hp, hc, hopen⟩
    simp [plan, bind, Except.bind, pure, Except.pure, hp, hc, hopen]

theorem attempt_eq_completes_iff {m : Machine} {i : Instr} {e : Effect} {flow : Flow} :
    m.attempt = .completes i e flow ↔ m.memory.fetch m.pc = .ok i ∧ Acts m i e flow := by
  rw [← plan_eq_act_iff]
  unfold attempt
  split
  · rename_i hf
    simp [hf]
  · rename_i j hf
    constructor
    · intro h
      split at h <;> simp_all
    · rintro ⟨hi, h⟩
      obtain rfl : j = i := by simpa [hf] using hi
      rw [h]

end Machine

end Wordcode
