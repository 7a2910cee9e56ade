import Wordcode.Proofs.Machine.Trial

/-! The bounds a machine keeps while it runs. A register holds a value below the modulus
because every result is reduced or comes from an operand that is; the stack may hold one
word more, the address just behind the last word, which only a call in the last two words
of memory leaves there; the program counter gets there only by returning. Memory words that
differ from the image were computed, so they are values and never name a register. -/

namespace Wordcode

namespace Machine

structure Bounded (image : List Word) (m : Machine) : Prop where
  registers : ∀ r, (m.registers.get r).toNat < 32768
  stack : ∀ w ∈ m.stack.words, w.toNat ≤ 32768
  pc : m.pc ≤ 32768
  memory : ∀ a : Address, m.memory.get a = image.getD a 21 ∨ (m.memory.get a).toNat < 32768

/-! ## Values -/

theorem Bounded.denote_lt {image : List Word} {m : Machine} (h : Bounded image m) (raw : Word) :
    (m.denote raw).toNat < 32768 := by
  unfold denote
  split
  · assumption
  · exact h.registers _

theorem Bounded.value_lt {image : List Word} {m : Machine} (h : Bounded image m) {raw x : Word}
    (hx : m.value raw = .ok x) : x.toNat < 32768 := by
  obtain ⟨-, hd⟩ := value_eq_ok_iff.mp hx
  rw [← hd]
  exact h.denote_lt raw

/-- The address a call leaves on the stack is stored without loss. It is one past the last
address only for a call in the last two words. -/
theorem toNat_returnAddress {m : Machine} {target : Word}
    (hf : m.memory.fetch m.pc = .ok (.call target)) :
    (m.returnAddress (.call target)).toNat = (m.nextAddress (m.pc + 2)).getD (m.pc + 2) ∧
      (m.returnAddress (.call target)).toNat ≤ 32768 ∧
      ((m.returnAddress (.call target)).toNat = 32768 → m.pc = 32766) := by
  have hsize : m.pc + 2 ≤ 32768 := Memory.fetch_size_le hf
  have hreturn : (m.nextAddress (m.pc + 2)).getD (m.pc + 2) ≤ 32768 ∧
      ((m.nextAddress (m.pc + 2)).getD (m.pc + 2) = 32768 → m.pc = 32766) := by
    cases hn : m.nextAddress (m.pc + 2) with
    | none => exact ⟨hsize, fun he => by simp only [Option.getD_none] at he; omega⟩
    | some a =>
      have ha : a < 32768 := (nextAddress_lt hn).2
      exact ⟨Nat.le_of_lt ha, fun he => by simp only [Option.getD_some] at he; omega⟩
  have hexact : (m.returnAddress (.call target)).toNat =
      (m.nextAddress (m.pc + 2)).getD (m.pc + 2) := by
    refine UInt16.toNat_ofNat_of_lt ?_
    change (m.nextAddress (m.pc + 2)).getD (m.pc + 2) < 65536
    omega
  rw [hexact]
  exact ⟨rfl, hreturn⟩

/-! ## What an instruction may store -/

section Acts

variable {image : List Word} {m : Machine} {i : Instr} {e : Effect} {flow : Flow}

/-- A register gets a value below the modulus. -/
theorem Acts.register_lt (ha : Acts m i e flow) {r : Register} {w : Word}
    (he : e.register = some (r, w)) : w.toNat < 32768 := by
  cases ha <;> simp only [Option.some.injEq, Prod.mk.injEq, reduceCtorEq] at he <;>
    obtain ⟨-, rfl⟩ := he
  case compute hz => exact Operator.eval?_lt hz
  all_goals exact reduce_lt _

theorem Acts.cell_lt (h : Bounded image m) (ha : Acts m i e flow) {a : Address} {w : Word}
    (he : e.cell = some (a, w)) : w.toNat < 32768 := by
  cases ha <;> simp only [Option.some.injEq, Prod.mk.injEq, reduceCtorEq] at he <;>
    obtain ⟨-, rfl⟩ := he
  case store hw _ => exact h.value_lt hw
  case inputCell => exact reduce_lt _

/-- Only a call pushes the address behind the last word, and only from the last two. -/
theorem Acts.push_le (h : Bounded image m) (hf : m.memory.fetch m.pc = .ok i)
    (ha : Acts m i e flow) {w : Word} (he : e.stack = .push w) :
    w.toNat ≤ 32768 ∧ (w.toNat = 32768 → (∃ target, i = .call target) ∧ m.pc = 32766) := by
  cases ha <;> simp only [StackChange.push.injEq, reduceCtorEq] at he <;> subst he
  case push hx =>
    have hlt := h.value_lt hx
    exact ⟨Nat.le_of_lt hlt, fun he => by omega⟩
  case call target _ _ =>
    obtain ⟨-, hle, hlast⟩ := toNat_returnAddress hf
    exact ⟨hle, fun he => ⟨⟨target, rfl⟩, hlast he⟩⟩

/-- Only a return leads behind the last word. -/
theorem Acts.jump_le (h : Bounded image m) {t : Word} (ha : Acts m i e (.jump t)) :
    t.toNat ≤ 32768 ∧ (t.toNat = 32768 → i = .ret) := by
  cases ha with
  | jump ht | taken _ _ ht | call ht =>
    have hlt := h.value_lt ht
    exact ⟨Nat.le_of_lt hlt, fun he => by omega⟩
  | ret ht => exact ⟨h.stack t (List.mem_of_mem_head? ht), fun _ => rfl⟩

end Acts

/-! ## The bounds are kept -/

section Kept

variable {image : List Word} {m : Machine}

theorem Bounded.boot (image : List Word) (advance : Advance) :
    Bounded image (Machine.boot image advance) where
  registers r := by
    change (Registers.zero.get r).toNat < 32768
    simp
  stack w hw := by cases hw
  pc := Nat.zero_le _
  memory a := .inl (Memory.get_ofImage image a)

/-- The bounds speak of storage and program counter only. -/
theorem Bounded.congr (h : Bounded image m) {n : Machine} (hm : n.memory = m.memory)
    (hr : n.registers = m.registers) (hs : n.stack = m.stack) (hp : n.pc ≤ 32768) :
    Bounded image n where
  registers := hr ▸ h.registers
  stack := hs ▸ h.stack
  pc := hp
  memory := hm ▸ h.memory

theorem Bounded.apply (h : Bounded image m) {i : Instr} {e : Effect} {flow : Flow}
    (hf : m.memory.fetch m.pc = .ok i) (ha : Acts m i e flow) : Bounded image (m.apply e) where
  registers r := by
    rw [registers_apply]
    cases he : e.register with
    | none => exact h.registers r
    | some rw =>
      obtain ⟨q, w⟩ := rw
      by_cases hq : q = r
      · subst hq
        simpa using ha.register_lt he
      · simpa [Registers.get_set_of_ne _ hq] using h.registers r
  stack w hw := by
    rw [stack_apply] at hw
    cases he : e.stack <;> simp only [he, StackChange.apply] at hw
    · exact h.stack w hw
    · rcases List.mem_cons.mp hw with rfl | hw
      · exact (ha.push_le h hf he).1
      · exact h.stack w hw
    · exact h.stack w (List.mem_of_mem_tail hw)
  pc := h.pc
  memory a := by
    rw [memory_apply]
    cases he : e.cell with
    | none => exact h.memory a
    | some aw =>
      obtain ⟨b, w⟩ := aw
      by_cases hb : b = a
      · subst hb
        exact .inr (by simpa using ha.cell_lt h he)
      · simpa [Memory.get_set_of_ne _ hb] using h.memory a

theorem Bounded.step (h : Bounded image m) : Bounded image m.step.machine := by
  generalize hm : m.step.machine = after
  generalize he : m.step.event = event
  have ht : Trial m after event := hm ▸ he ▸ step_trial m
  cases ht with
  | fault => exact h.congr rfl rfl rfl h.pc
  | wait => exact h
  | complete hf ha hfollow =>
    have hk := h.apply hf ha
    cases hfollow with
    | jump t => exact hk.congr rfl rfl rfl (ha.jump_le h).1
    | next hn | print hn => exact hk.congr rfl rfl rfl (Nat.le_of_lt (nextAddress_lt hn).2)
    | halt | last | lastPrint => exact hk.congr rfl rfl rfl h.pc

end Kept

end Machine

end Wordcode
