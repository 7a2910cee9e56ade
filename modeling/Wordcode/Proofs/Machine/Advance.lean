import Mathlib.Order.Nat
import Wordcode.Proofs.Machine.Bounds

/-! How the two advances find the next instruction, said without the search. A scanning
machine goes on at the least address that holds an opcode, a flat one right behind the
instruction. Where an opcode stands right behind an instruction the two cannot be told
apart: `step_scanning` says so for one step. -/

namespace Wordcode

namespace Memory

/-- An opcode stands at this address. -/
def OpcodeAt (mem : Memory) (a : Nat) : Prop :=
  ∃ w, mem.read a = .ok w ∧ w.toNat ≤ 21

theorem opcodeAt_iff {mem : Memory} {a : Nat} :
    mem.OpcodeAt a ↔ ∃ h : a < memorySize, Opcode.isOpcode (mem.get ⟨a, h⟩) = true := by
  simp only [OpcodeAt, read_eq_ok_iff, Opcode.isOpcode_iff]
  constructor
  · rintro ⟨w, ⟨h, rfl⟩, hw⟩
    exact ⟨h, hw⟩
  · rintro ⟨h, hw⟩
    exact ⟨_, ⟨h, rfl⟩, hw⟩

theorem opcodeAt_of_fetch {mem : Memory} {pc : Nat} {i : Instr} (h : mem.fetch pc = .ok i) :
    mem.OpcodeAt pc :=
  ⟨_, (fetch_eq_ok_iff.mp h).1, i.opcode.toNat_code_le⟩

/-- The search finds the least address that holds an opcode. -/
theorem nextOpcode_eq_some_iff_isLeast {mem : Memory} {start a : Nat} :
    mem.nextOpcode start = some a ↔ IsLeast {b | start ≤ b ∧ mem.OpcodeAt b} a := by
  rw [nextOpcode_eq_some_iff]
  constructor
  · rintro ⟨hle, hop, hmin⟩
    refine ⟨⟨hle, opcodeAt_iff.mpr hop⟩, ?_⟩
    rintro b ⟨hb, hopb⟩
    obtain ⟨hlt, hword⟩ := opcodeAt_iff.mp hopb
    by_contra hba
    rw [hmin b hlt hb (Nat.lt_of_not_le hba)] at hword
    cases hword
  · rintro ⟨⟨hle, hop⟩, hmin⟩
    refine ⟨hle, opcodeAt_iff.mp hop, ?_⟩
    intro b hlt hb hba
    by_contra hword
    have hopb : mem.OpcodeAt b := opcodeAt_iff.mpr ⟨hlt, by simpa using hword⟩
    exact absurd (hmin ⟨hb, hopb⟩) (Nat.not_le.mpr hba)

open Classical in
/-- The search fails only if there is nothing to find. -/
theorem nextOpcode_eq_none_iff {mem : Memory} {start : Nat} :
    mem.nextOpcode start = none ↔ ∀ b, start ≤ b → ¬ mem.OpcodeAt b := by
  constructor
  · intro hnone b hb hop
    have hfound : ∃ b, start ≤ b ∧ mem.OpcodeAt b := ⟨b, hb, hop⟩
    rw [nextOpcode_eq_some_iff_isLeast.mpr (Nat.isLeast_find hfound)] at hnone
    cases hnone
  · intro hno
    cases hn : mem.nextOpcode start with
    | none => rfl
    | some a =>
      obtain ⟨⟨ha, hop⟩, -⟩ := nextOpcode_eq_some_iff_isLeast.mp hn
      exact absurd hop (hno a ha)

end Memory

namespace Machine

/-! ## Where a call returns to -/

/-- The address at which the caller goes on after the call at the program counter: the least
one behind the call that holds an opcode, if the machine scans and there is one, and otherwise
the address right behind the call, be it one of memory or not. -/
def ReturnPoint (m : Machine) (a : Nat) : Prop :=
  match m.advance with
  | .flat => a = m.pc + 2
  | .scan =>
    IsLeast {b | m.pc + 2 ≤ b ∧ m.memory.OpcodeAt b} a ∨
      (∀ b, m.pc + 2 ≤ b → ¬ m.memory.OpcodeAt b) ∧ a = m.pc + 2

theorem returnPoint_iff_of_flat {m : Machine} {a : Nat} (hflat : m.advance = .flat) :
    m.ReturnPoint a ↔ a = m.pc + 2 := by
  simp only [ReturnPoint, hflat]

theorem returnPoint_returnAddress {m : Machine} {target : Word}
    (hf : m.memory.fetch m.pc = .ok (.call target)) :
    m.ReturnPoint (m.returnAddress (.call target)).toNat := by
  rw [(toNat_returnAddress hf).1]
  unfold ReturnPoint nextAddress
  cases m.advance with
  | flat =>
    dsimp only
    split <;> rfl
  | scan =>
    dsimp only
    cases hn : m.memory.nextOpcode (m.pc + 2) with
    | some a => exact .inl (Memory.nextOpcode_eq_some_iff_isLeast.mp hn)
    | none => exact .inr ⟨Memory.nextOpcode_eq_none_iff.mp hn, rfl⟩

/-! ## A flat machine made to scan -/

/-- The same machine with the scanning advance. -/
def scanning (m : Machine) : Machine :=
  { m with advance := .scan }

/-- If the instruction tried on this machine completes, and is a call or does not transfer
control, then it is followed by an opcode or by the end of memory. -/
def Aligned (m : Machine) : Prop :=
  ∀ i e flow, m.attempt = .completes i e flow →
    (flow = .next ∨ (∃ c, flow = .print c) ∨ ∃ target, i = .call target) →
    m.pc + i.size = 32768 ∨ m.step.machine.memory.OpcodeAt (m.pc + i.size)

section Scanning

variable {m : Machine}

theorem nextAddress_scanning (hflat : m.advance = .flat) {a : Nat}
    (h : a = 32768 ∨ m.memory.OpcodeAt a) : m.scanning.nextAddress a = m.nextAddress a := by
  simp only [nextAddress, scanning, hflat]
  rcases h with rfl | hop
  · rw [Memory.nextOpcode_eq_none_iff.mpr, if_neg (by decide)]
    intro b hb hop
    obtain ⟨hlt, -⟩ := Memory.opcodeAt_iff.mp hop
    exact absurd hlt (Nat.not_lt.mpr hb)
  · obtain ⟨hlt, -⟩ := Memory.opcodeAt_iff.mp hop
    rw [Memory.nextOpcode_eq_some_iff_isLeast.mpr ⟨⟨Nat.le_refl a, hop⟩, fun b hb => hb.1⟩,
      if_pos hlt]

theorem memory_step_of_completes {i : Instr} {e : Effect} {flow : Flow}
    (h : m.attempt = .completes i e flow) : m.step.machine.memory = (m.apply e).memory := by
  have hframe := (step_follows h).frame
  exact congrArg (fun after => after.memory) hframe

/-- Only a call asks for the next address before it is carried out. -/
theorem plan_scanning {i : Instr} (h : ∀ target, i = .call target →
    m.scanning.returnAddress i = m.returnAddress i) : m.scanning.plan i = m.plan i := by
  cases i with
  | call target =>
    simp only [plan, h target rfl]
    rfl
  | _ => rfl

theorem attempt_scanning (hflat : m.advance = .flat) (ha : m.Aligned) :
    m.scanning.attempt = m.attempt := by
  have hplan : ∀ i, m.memory.fetch m.pc = .ok i → m.scanning.plan i = m.plan i := by
    intro i hf
    by_cases hcompletes : ∃ e flow, m.attempt = .completes i e flow
    · refine plan_scanning ?_
      rintro target rfl
      obtain ⟨e, flow, hattempt⟩ := hcompletes
      have hbehind := ha _ _ _ hattempt (.inr (.inr ⟨target, rfl⟩))
      obtain ⟨-, hacts⟩ := attempt_eq_completes_iff.mp hattempt
      rw [memory_step_of_completes hattempt] at hbehind
      cases hacts
      unfold returnAddress
      rw [← nextAddress_scanning hflat hbehind]
      rfl
    · cases i with
      | call target =>
        -- a call that does not complete has no return address to agree on
        cases hv : m.value target with
        | error f =>
          have hv' : m.scanning.value target = .error f := hv
          simp only [plan, hv, hv']
          rfl
        | ok t => exact absurd ⟨_, _, attempt_eq_completes_iff.mpr ⟨hf, .call hv⟩⟩ hcompletes
      | _ => rfl
  have hfetch : m.scanning.memory.fetch m.scanning.pc = m.memory.fetch m.pc := rfl
  unfold attempt
  rw [hfetch]
  cases hf : m.memory.fetch m.pc with
  | error f => rfl
  | ok i => simp only [hplan i hf]

theorem follow_scanning (m : Machine) (hflat : m.advance = .flat) {i : Instr} {flow : Flow}
    (h : flow = .next ∨ (∃ c, flow = .print c) →
      m.pc + i.size = 32768 ∨ m.memory.OpcodeAt (m.pc + i.size)) :
    m.scanning.follow i flow =
      { m.follow i flow with machine := (m.follow i flow).machine.scanning } := by
  have hproceed : ∀ printed, (m.pc + i.size = 32768 ∨ m.memory.OpcodeAt (m.pc + i.size)) →
      m.scanning.proceed i printed =
        { m.proceed i printed with machine := (m.proceed i printed).machine.scanning } := by
    intro printed hbehind
    have hnext : m.scanning.nextAddress (m.scanning.pc + i.size) = m.nextAddress (m.pc + i.size) :=
      nextAddress_scanning hflat hbehind
    unfold proceed
    rw [hnext]
    cases m.nextAddress (m.pc + i.size) <;> rfl
  cases flow with
  | jump t | halt => rfl
  | next => exact hproceed none (h (.inl rfl))
  | print c => exact hproceed (some c) (h (.inr ⟨c, rfl⟩))

/-- **An aligned instruction does the same whether the machine scans or not.** -/
theorem step_scanning (hflat : m.advance = .flat) (ha : m.Aligned) :
    m.scanning.step.event = m.step.event ∧ m.scanning.step.machine = m.step.machine.scanning := by
  have hattempt := attempt_scanning hflat ha
  cases h : m.attempt with
  | unfetched f | refused i f | waits i =>
    rw [h] at hattempt
    unfold step
    rw [h, hattempt]
    exact ⟨rfl, rfl⟩
  | completes i e flow =>
    rw [h] at hattempt
    have hbehind : flow = .next ∨ (∃ c, flow = .print c) →
        m.pc + i.size = 32768 ∨ (m.apply e).memory.OpcodeAt (m.pc + i.size) := by
      intro hflow
      rw [← memory_step_of_completes h]
      exact ha i e flow h (hflow.imp_right .inl)
    have happly : (m.scanning.apply e).tick = (m.apply e).tick.scanning := rfl
    unfold step
    rw [h, hattempt]
    dsimp only
    rw [happly, follow_scanning (m.apply e).tick hflat hbehind]
    exact ⟨rfl, rfl⟩

theorem advance_step (m : Machine) : m.step.machine.advance = m.advance := by
  have ht := step_trial m
  generalize m.step.machine = after at ht ⊢
  generalize m.step.event = event at ht
  cases ht with
  | fault | wait => rfl
  | complete _ _ hfollow => cases hfollow <;> rfl

end Scanning

end Machine

end Wordcode
