import Wordcode.Proofs.Machine.Encoding

/-! What one step can lead to. `Follows` says where control goes behind an instruction and
which event that raises; `Trial` joins it with the rules of `Acts` into the three ways in
which trying an instruction turns out. `step_trial` is the one place where `Machine.step`
is opened: an invariant of the machine is checked along these rules. -/

namespace Wordcode

/-- The fault an attempt ends in, if it does. -/
def Attempt.fault? : Attempt → Option Fault
  | .unfetched f | .refused _ f => some f
  | .waits _ | .completes .. => none

namespace Machine

/-! ## The changes, field by field -/

theorem memory_apply (m : Machine) (e : Effect) :
    (m.apply e).memory = match e.cell with
      | some (a, w) => m.memory.set a w
      | none => m.memory := rfl

theorem registers_apply (m : Machine) (e : Effect) :
    (m.apply e).registers = match e.register with
      | some (r, w) => m.registers.set r w
      | none => m.registers := rfl

@[simp] theorem stack_apply (m : Machine) (e : Effect) :
    (m.apply e).stack = e.stack.apply m.stack := rfl

/-! ## Going on behind an instruction -/

/-- Where control goes behind the instruction `i`, with the machine that results and the
event it raises. -/
inductive Follows (m : Machine) (i : Instr) : Flow → Machine → Option Event → Prop where
  | jump (t : Word) : Follows m i (.jump t) (m.goTo t.toNat) none
  | halt : Follows m i .halt { m with status := .halted } (some .halted)
  | next {a : Nat} : m.nextAddress (m.pc + i.size) = some a → Follows m i .next (m.goTo a) none
  | last : m.nextAddress (m.pc + i.size) = none →
      Follows m i .next { m with status := .halted } (some .halted)
  | print {c : Char} {a : Nat} : m.nextAddress (m.pc + i.size) = some a →
      Follows m i (.print c) (m.goTo a) (some (.print c))
  | lastPrint {c : Char} : m.nextAddress (m.pc + i.size) = none →
      Follows m i (.print c) { m with status := .halted } (some (.print c))

theorem follow_follows (m : Machine) (i : Instr) (flow : Flow) :
    Follows m i flow (m.follow i flow).machine (m.follow i flow).event := by
  cases flow with
  | jump t => exact .jump t
  | halt => exact .halt
  | next =>
    simp only [follow, proceed]
    split
    · rename_i a ha
      exact .next ha
    · rename_i ha
      exact .last ha
  | print c =>
    simp only [follow, proceed]
    split
    · rename_i a ha
      exact .print ha
    · rename_i ha
      exact .lastPrint ha

/-- A character is reported whether or not there is an instruction behind its own. -/
theorem Follows.event_of_print {m after : Machine} {i : Instr} {c : Char} {event : Option Event}
    (h : Follows m i (.print c) after event) : event = some (.print c) := by
  cases h <;> rfl

/-- Behind an instruction only the program counter and the status change. -/
theorem Follows.frame {m after : Machine} {i : Instr} {flow : Flow} {event : Option Event}
    (h : Follows m i flow after event) :
    after = { m with pc := after.pc, status := after.status } := by
  cases h <;> rfl

/-- The next address, wherever the advance finds it, is an address of memory. -/
theorem nextAddress_lt {m : Machine} {start a : Nat} (h : m.nextAddress start = some a) :
    start ≤ a ∧ a < memorySize := by
  unfold nextAddress at h
  split at h
  · split at h
    · cases h
      exact ⟨Nat.le_refl _, ‹_›⟩
    · cases h
  · obtain ⟨hle, ⟨hlt, -⟩, -⟩ := Memory.nextOpcode_eq_some_iff.mp h
    exact ⟨hle, hlt⟩

/-- Where an instruction stands right behind another, it is the next one under either advance. -/
theorem proceed_of_fetch {m : Machine} {i j : Instr} (hf : m.memory.fetch (m.pc + i.size) = .ok j)
    (printed : Option Char) :
    m.proceed i printed =
      { machine := m.goTo (m.pc + i.size), event := printed.map .print } := by
  have hnext : m.nextAddress (m.pc + i.size) = some (m.pc + i.size) := by
    unfold nextAddress
    cases m.advance with
    | scan => exact Memory.nextOpcode_of_fetch hf
    | flat =>
      have hsize := Memory.fetch_size_le hf
      have hpos := j.size_pos
      exact if_pos (by omega)
  unfold proceed
  rw [hnext]

/-! ## One step -/

/-- How trying the instruction at the program counter turns out. -/
inductive Trial (m : Machine) : Machine → Option Event → Prop where
  | fault {f : Fault} : m.attempt.fault? = some f →
      Trial m (m.fail f) (some (.fault (f.located m.pc)))
  | wait {i : Instr} : m.attempt = .waits i → Trial m m (some .input)
  | complete {i : Instr} {e : Effect} {flow : Flow} {after : Machine} {event : Option Event} :
      m.memory.fetch m.pc = .ok i → Acts m i e flow →
      Follows (m.apply e).tick i flow after event → Trial m after event

theorem step_follows {m : Machine} {i : Instr} {e : Effect} {flow : Flow}
    (h : m.attempt = .completes i e flow) :
    Follows (m.apply e).tick i flow m.step.machine m.step.event := by
  unfold step
  rw [h]
  exact follow_follows _ i flow

theorem step_of_rules (m : Machine) {i : Instr} {e : Effect} {flow : Flow}
    (hf : m.memory.fetch m.pc = .ok i) (ha : Acts m i e flow) :
    m.step = ((m.apply e).tick.follow i flow).after (.traced m.pc i) := by
  simp only [step, attempt_eq_completes_iff.mpr ⟨hf, ha⟩]

theorem step_trial (m : Machine) : Trial m m.step.machine m.step.event := by
  cases h : m.attempt with
  | unfetched f =>
    have hf : m.attempt.fault? = some f := by rw [h]; rfl
    simp only [step, h]
    exact .fault hf
  | refused i f =>
    have hf : m.attempt.fault? = some f := by rw [h]; rfl
    simp only [step, h]
    exact .fault hf
  | waits i =>
    simp only [step, h]
    exact .wait h
  | completes i e flow =>
    obtain ⟨hf, ha⟩ := attempt_eq_completes_iff.mp h
    exact .complete hf ha (step_follows h)

/-! ## Steps by their event -/

theorem Follows.event_ne_fault {m after : Machine} {i : Instr} {flow : Flow}
    {event : Option Event} (h : Follows m i flow after event) (f : Fault) :
    event ≠ some (.fault f) := by
  cases h <;> simp

/-- A fault is raised exactly by an attempt that ends in one, and it tells where. -/
theorem event_eq_fault_iff {m : Machine} {f : Fault} :
    m.step.event = some (.fault f) ↔ m.attempt.fault?.map (·.located m.pc) = some f := by
  cases h : m.attempt with
  | unfetched g | refused i g => simp [step, h, abort, Turn.after, Attempt.fault?]
  | waits i => simp [step, h, Attempt.fault?]
  | completes i e flow =>
    have hne := (step_follows h).event_ne_fault f
    simp [hne, Attempt.fault?]

/-- A fault changes the status and nothing else. -/
theorem machine_step_of_fault {m : Machine} {f : Fault} (h : m.step.event = some (.fault f)) :
    m.step.machine = { m with status := .faulted f } := by
  have ht := step_trial m
  rw [h] at ht
  generalize m.step.machine = after at ht ⊢
  cases ht with
  | fault => rfl
  | complete _ _ hfollow => exact absurd rfl (hfollow.event_ne_fault f)

/-- An instruction that raises no event was completed and counted. -/
theorem cycles_step_of_none {m : Machine} (h : m.step.event = none) :
    m.step.machine.cycles = m.cycles + 1 := by
  have ht := step_trial m
  rw [h] at ht
  generalize m.step.machine = after at ht ⊢
  cases ht with
  | complete _ _ hfollow => cases hfollow <;> rfl

end Machine

end Wordcode
