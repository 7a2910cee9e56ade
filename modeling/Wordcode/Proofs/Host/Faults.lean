import Wordcode.Proofs.Host.Integrity
import Wordcode.Proofs.Host.Slices
import Wordcode.Proofs.Machine.Diagnosis

/-! Faults as the host sees them: when an instruction faults and with which words, what a
faulting slice has changed, and where the fault says it arose. -/

namespace Wordcode

namespace Session

theorem Reachable.bounded {s : Session} (h : Reachable s) : ∃ image, s.machine.Bounded image := by
  obtain ⟨image, advance, past, hs⟩ := reachable_iff_exists_history.mp h
  exact ⟨image, hs.sound.bounded⟩

/-! ## When an instruction faults -/

/-- **A reachable machine faults exactly when its words show a cause, and for the first one
they show.** An instruction that could be fetched never faults for an address, be it a load,
a store or a read of input. -/
theorem fault_iff_diagnosis {s : Session} (h : Reachable s) (hrun : s.machine.status = .running) :
    (∀ f, (s.execute 1).1 = some (.fault f) ↔ s.machine.diagnosis = some f) ∧
    ∀ i f, s.machine.memory.fetch s.machine.pc = .ok i → (s.execute 1).1 = some (.fault f) →
      f.kind ≠ .addressOutOfRange := by
  obtain ⟨image, hb⟩ := h.bounded
  have hiff : ∀ f, (s.execute 1).1 = some (.fault f) ↔ s.machine.diagnosis = some f := by
    intro f
    rw [event_execute_one hrun, Machine.event_eq_fault_iff, hb.diagnosis_eq]
  refine ⟨hiff, ?_⟩
  intro i f hf he
  have hd := (hiff f).mp he
  rw [Machine.diagnosis_of_fetch hf, Option.map_eq_some_iff] at hd
  obtain ⟨g, hg, rfl⟩ := hd
  rw [Fault.kind_located]
  exact Machine.kind_ne_of_screen hg

/-- A remainder by zero with an operand that means nothing. -/
def hopelessImage : List Word := [11, 32768, 40000, 0]

theorem diagnosis_hopeless {m : Machine}
    (hf : m.memory.fetch m.pc = .ok (.compute .mod 32768 40000 0)) :
    m.diagnosis =
      some { kind := .invalidOperand, pc := some m.pc, detail := "RAW WORD 40000" } := by
  have hbad : 32776 ≤ (40000 : Word).toNat := by decide
  rw [Machine.diagnosis_of_fetch hf, Machine.needs, Machine.screen_cons, if_pos hbad]
  rfl

/-- The invalid operand comes before the zero divisor. -/
theorem fault_iff_diagnosis_of_hopeless :
    ∃ s, Reachable s ∧ s.machine.status = .running ∧ (s.execute 1).1 =
      some (.fault { kind := .invalidOperand, pc := some 0, detail := "RAW WORD 40000" }) := by
  obtain ⟨mem, s, hboot, hs, -, hfetch⟩ :=
    boot_of_le { threshold := .warn } hopelessImage .scan (by decide)
  have hreach : Reachable s := hboot ▸ .boot _ _ _
  have hrun : s.machine.status = .running := by rw [hs]
  have hpc : s.machine.pc = 0 := by rw [hs]
  have hf : s.machine.memory.fetch s.machine.pc = .ok (.compute .mod 32768 40000 0) := by
    rw [hpc, hs]
    exact hfetch ⟨_, rfl⟩
  refine ⟨s, hreach, hrun, ((fault_iff_diagnosis hreach hrun).1 _).mpr ?_⟩
  rw [diagnosis_hopeless hf, hpc]

/-! ## What a faulting slice has changed -/

/-- A budget ends in an event if part of it passes without one and the next step raises it. -/
theorem spend_of_event {n : Nat} {s u : Session} {event : Event}
    (h : s.spend n = (some event, u)) :
    ∃ k, k < n ∧ ∃ t, s.spend k = (none, t) ∧ t.step = (some event, u) := by
  induction n generalizing s with
  | zero => cases h
  | succ n ih =>
    simp only [spend] at h
    split at h
    · rename_i hstep
      cases h
      exact ⟨0, Nat.succ_pos n, s, rfl, hstep⟩
    · rename_i t hstep
      obtain ⟨k, hk, v, hv, hlast⟩ := ih h
      refine ⟨k + 1, Nat.succ_lt_succ hk, v, ?_, hlast⟩
      simp only [spend, hstep]
      exact hv

/-- What passes without an event is counted in full. -/
theorem cycles_spend {k : Nat} {s t : Session} (h : s.spend k = (none, t)) :
    t.machine.cycles = s.machine.cycles + UInt64.ofNat k := by
  induction k generalizing s with
  | zero =>
    cases h
    simp
  | succ k ih =>
    simp only [spend] at h
    split at h
    · cases h
    · rename_i u hstep
      have hu : u.machine.cycles = s.machine.cycles + 1 := by
        obtain ⟨he, hm⟩ := step_machine hstep
        rw [← hm]
        exact Machine.cycles_step_of_none he
      rw [ih h, hu, Nat.add_comm k, UInt64.ofNat_add, ← UInt64.add_assoc]
      rfl

/-- A slice that faults leaves the machine as it was before the faulting instruction, except
that it has stopped. -/
theorem machine_execute_of_fault {n : Nat} {s : Session} {e : Fault}
    (hrun : s.machine.status = .running) (hcycles : s.machine.cycles.toNat + n < UInt64.size)
    (h : (s.execute n).1 = some (.fault e)) :
    ∃ k, k < n ∧ (s.execute n).2.machine.cycles.toNat = s.machine.cycles.toNat + k ∧
      ∃ t, s.execute k = (none, t) ∧ t.machine.status = .running ∧
        (s.execute n).2.machine = { t.machine with status := .faulted e } := by
  rw [execute_of_running hrun] at h ⊢
  obtain ⟨k, hk, t, ht, hstep⟩ := spend_of_event (Prod.ext h rfl)
  have hmachine : (s.spend n).2.machine = { t.machine with status := .faulted e } := by
    obtain ⟨he, hm⟩ := step_machine hstep
    rw [← hm]
    exact Machine.machine_step_of_fault he
  refine ⟨k, hk, ?_, t, (execute_of_running hrun k).trans ht, (status_spend ht).trans hrun,
    hmachine⟩
  rw [hmachine]
  show t.machine.cycles.toNat = _
  rw [cycles_spend ht, UInt64.toNat_add, UInt64.toNat_ofNat_of_lt' (by omega)]
  have hlt : s.machine.cycles.toNat + k < UInt64.size := by omega
  exact Nat.mod_eq_of_lt hlt

/-! ## Where a fault arose -/

theorem Moves.located {image : List Word} {s t : Session} {past : List Machine}
    (h : Moves s past t) (hs : Machine.Sound image [] s.machine)
    (hloc : ∀ f, s.machine.status = .faulted f → f.pc = some s.machine.pc) :
    ∀ f, t.machine.status = .faulted f → f.pc = some t.machine.pc := by
  induction h with
  | refl => exact hloc
  | tail hmoves hm ih =>
    cases hm with
    | enter | close => exact ih
    | broken e =>
      intro f hf
      cases hf
      rw [Fault.located_located]
      rfl
    | step hrun =>
      intro f hf
      exact (hmoves.sound hs).bounded.pc_of_faulted hrun hf

theorem Reachable.located {s : Session} (h : Reachable s) {f : Fault}
    (hf : s.machine.status = .faulted f) : f.pc = some s.machine.pc := by
  obtain ⟨image, advance, past, hs⟩ := reachable_iff_exists_history.mp h
  obtain ⟨threshold, hmoves⟩ := hs.moves
  refine hmoves.located (Machine.Sound.boot image advance) ?_ f hf
  intro g hg
  simp only [Session.boot, Machine.boot] at hg
  split at hg
  · cases hg
    rfl
  · cases hg

/-- **A fault changes nothing else and tells where it arose.** A slice that faults has counted
the instructions before the faulting one; executing just these leads to the same machine, still
running. A stored fault carries the program counter, however it arose. -/
theorem fault_atomic_and_located :
    (∀ (s : Session) (n : Nat) (e : Fault), s.machine.status = .running →
      s.machine.cycles.toNat + n < UInt64.size → (s.execute n).1 = some (.fault e) →
      ∃ k, k < n ∧ (s.execute n).2.machine.cycles.toNat = s.machine.cycles.toNat + k ∧
        ∃ t, s.execute k = (none, t) ∧ t.machine.status = .running ∧
          (s.execute n).2.machine = { t.machine with status := .faulted e }) ∧
    ∀ (s : Session) (f : Fault), Reachable s → s.machine.status = .faulted f →
      f.pc = some s.machine.pc := by
  refine ⟨?_, ?_⟩
  · intro s n e hrun hcycles h
    exact machine_execute_of_fault hrun hcycles h
  · intro s f h hf
    exact h.located hf

/-- Pushes a word and reads a character to a place that means nothing. -/
def misreadImage : List Word := [2, 5, 20, 40000]

theorem execute_misread {mem : Memory} (h₀ : mem.fetch 0 = .ok (.push 5))
    (h₂ : mem.fetch 2 = .ok (.input 40000)) (input : Input) (journal : Journal) :
    ∃ e, (execute 9 ⟨{ memory := mem, input := input, advance := .flat }, journal⟩).1 =
      some (.fault e) := by
  have hsize : 2 < memorySize := by decide
  have hbad : Operand.decode 40000 = .error (.invalidOperand 40000) :=
    Operand.decode_eq_error_iff.mpr ⟨by decide, rfl⟩
  simp [execute, spend, step, Machine.step, Machine.attempt, h₀, h₂, Machine.plan, bind,
    Except.bind, pure, Except.pure, Machine.value_eq, Machine.denote, Machine.apply, Machine.tick,
    Machine.follow, Machine.proceed, Machine.goTo, Machine.abort, Turn.after, Machine.nextAddress,
    Instr.size, Instr.operands, hsize, hbad]

/-- Neither the pushed word nor the pending character is lost. -/
theorem fault_atomic_and_located_at_misread :
    ∃ s e, Reachable s ∧ s.machine.status = .running ∧ s.machine.input.pending = ['x', '\n'] ∧
      (s.execute 9).1 = some (.fault e) ∧ e.pc = some (s.execute 9).2.machine.pc ∧
      ∃ k t, k < 9 ∧ s.execute k = (none, t) ∧
        (s.execute 9).2.machine = { t.machine with status := .faulted e } := by
  obtain ⟨mem, ⟨m, journal⟩, hboot, rfl, -, hfetch⟩ :=
    boot_of_le { threshold := .warn } misreadImage .flat (by decide)
  have h₀ : mem.fetch 0 = .ok (.push 5) := hfetch ⟨_, rfl⟩
  have h₂ : mem.fetch 2 = .ok (.input 40000) := hfetch ⟨_, rfl⟩
  have hbegin : Reachable ⟨{ memory := mem, advance := .flat }, journal⟩ := hboot ▸ .boot _ _ _
  have hreach := hbegin.enter "x"
  have hinput : ({} : Input).enter "x" = ⟨['x', '\n'], false⟩ := by decide
  simp only [Session.enter, Machine.enter, hinput] at hreach
  generalize journal.note _ = journal at hreach
  obtain ⟨e, he⟩ := execute_misread h₀ h₂ ⟨['x', '\n'], false⟩ journal
  obtain ⟨hatomic, hlocated⟩ := fault_atomic_and_located
  obtain ⟨k, hk, -, t, ht, -, hmachine⟩ := hatomic _ 9 e rfl (by simp [UInt64.size]) he
  refine ⟨_, e, hreach, rfl, rfl, he, ?_, k, t, hk, ht, hmachine⟩
  refine hlocated _ e (hreach.execute 9) ?_
  rw [hmachine]

end Session

end Wordcode
