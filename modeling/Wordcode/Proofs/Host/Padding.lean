import Wordcode.Proofs.Host.Progress

/-! Running through padding. The words behind an image do nothing, and an instruction that does
nothing is one word long, so a machine that gets there takes one address with each cycle, whichever
way it advances. At the last address nothing is left to advance to: the machine halts there, however
much of its budget is left. -/

namespace Wordcode

namespace Memory

/-- From `start` on every word stands for doing nothing. -/
def Padded (mem : Memory) (start : Nat) : Prop :=
  ∀ a : Address, start ≤ a.val → mem.get a = 21

variable {mem : Memory} {start : Nat}

/-- Memory is padded behind an image. -/
theorem padded_of_words {image : List Word}
    (h : ∀ a : Address, mem.get a = image.getD a Opcode.noop.code) : mem.Padded image.length := by
  intro a ha
  rw [h, List.getD_eq_getElem?_getD, List.getElem?_eq_none ha]
  rfl

theorem Padded.mono (h : mem.Padded start) {start' : Nat} (hle : start ≤ start') :
    mem.Padded start' :=
  fun a ha => h a (Nat.le_trans hle ha)

theorem Padded.fetch (h : mem.Padded start) (hlt : start < memorySize) :
    mem.fetch start = .ok .noop := by
  refine fetch_eq_ok_iff.mpr ⟨?_, trivial⟩
  rw [read_of_lt mem hlt, h ⟨start, hlt⟩ (Nat.le_refl start)]
  rfl

end Memory

/-! ## One word of padding -/

namespace Machine

variable {m : Machine}

/-- Behind the last address neither advance finds anything. -/
theorem nextAddress_of_le {start : Nat} (h : memorySize ≤ start) : m.nextAddress start = none := by
  cases hnext : m.nextAddress start with
  | none => rfl
  | some a =>
    obtain ⟨hle, hlt⟩ := nextAddress_lt hnext
    omega

theorem follow_noop (hpad : m.memory.Padded m.pc) (hpc : m.pc + 1 < memorySize) :
    m.follow .noop .next = { machine := m.goTo (m.pc + 1) } :=
  proceed_of_fetch ((hpad.mono (Nat.le_succ m.pc)).fetch hpc) none

theorem follow_noop_of_last (hpc : m.pc + 1 = memorySize) :
    m.follow .noop .next = m.halt none := by
  have hend : m.nextAddress (m.pc + Instr.noop.size) = none :=
    nextAddress_of_le (Nat.le_of_eq hpc.symm)
  simp only [follow, proceed, hend]

end Machine

/-! ## A budget spent on padding -/

namespace Session

variable {s : Session}

/-- While there are addresses left, every cycle takes one. -/
theorem execute_padding (hrun : s.machine.status = .running)
    (hpad : s.machine.memory.Padded s.machine.pc) {n : Nat}
    (hn : s.machine.pc + n < memorySize) :
    ∃ t, s.execute n = (none, t) ∧
      t.machine = { s.machine with
        pc := s.machine.pc + n, cycles := s.machine.cycles + UInt64.ofNat n } := by
  induction n with
  | zero =>
    rw [execute_of_running hrun]
    exact ⟨s, rfl, congrArg (fun c => { s.machine with cycles := c }) (UInt64.add_zero _).symm⟩
  | succ n ih =>
    obtain ⟨t, hexec, ht⟩ := ih (by omega)
    have hpad' : t.machine.memory.Padded t.machine.pc := by
      rw [ht]
      exact hpad.mono (Nat.le_add_right _ n)
    have hpc : t.machine.pc + 1 < memorySize := by
      rw [ht]
      exact hn
    obtain ⟨hone, hu⟩ := execute_one_of_rules rfl (by rw [ht]; exact hrun)
      (hpad'.fetch (Nat.lt_of_succ_lt hpc)) .noop
    have hfollow : ((t.machine.apply {}).tick.follow .noop .next) =
        { machine := (t.machine.apply {}).tick.goTo (t.machine.pc + 1) } :=
      Machine.follow_noop hpad' hpc
    rw [hfollow] at hone hu
    refine ⟨_, ?_, hu.trans ?_⟩
    · rw [execute_add, hexec]
      exact hone
    · rw [ht]
      simp only [Machine.goTo, Machine.tick, Machine.apply, StackChange.apply, UInt64.ofNat_add,
        UInt64.add_assoc]
      rfl

/-- The last address is the end, whatever is left of the budget. -/
theorem execute_last_padding (hrun : s.machine.status = .running)
    (hpad : s.machine.memory.Padded s.machine.pc) (hpc : s.machine.pc + 1 = memorySize)
    (n : Nat) :
    ∃ t, s.execute (n + 1) = (some .halted, t) ∧
      t.machine = { s.machine with cycles := s.machine.cycles + 1, status := .halted } := by
  have hstep := Machine.step_of_rules _ (hpad.fetch (by omega)) .noop
  have hfollow : (s.machine.apply {}).tick.follow .noop .next =
      (s.machine.apply {}).tick.halt none := Machine.follow_noop_of_last hpc
  rw [hfollow] at hstep
  have hevent : s.machine.step.event = some .halted := by
    rw [hstep]
    rfl
  refine ⟨_, execute_of_event hrun hevent n, ?_⟩
  show s.machine.step.machine = _
  rw [hstep]
  rfl

/-- **Padding is run through word by word.** A machine that finds nothing but padding from its
program counter on uses up any budget smaller than the number of addresses that are left, and
halts at the last address with any other. Nothing but the program counter and the cycles changes,
and the cycles tell the number of words it went through. -/
theorem padding_runs_out (hrun : s.machine.status = .running) (hpc : s.machine.pc ≤ 32767)
    (hcycles : s.machine.cycles.toNat + 32768 < 2 ^ 64)
    (hpad : ∀ a : Address, s.machine.pc ≤ a → s.machine.memory.get a = 21) (n : Nat) :
    (n < 32768 - s.machine.pc →
      ∃ t c, s.execute n = (none, t) ∧
        t.machine = { s.machine with pc := s.machine.pc + n, cycles := c } ∧
        c.toNat = s.machine.cycles.toNat + n) ∧
    (32768 - s.machine.pc ≤ n →
      ∃ t c, s.execute n = (some .halted, t) ∧
        t.machine = { s.machine with pc := 32767, cycles := c, status := .halted } ∧
        c.toNat = s.machine.cycles.toNat + (32768 - s.machine.pc)) := by
  have hsize : UInt64.size = 2 ^ 64 := rfl
  refine ⟨?_, ?_⟩
  · intro hn
    have hleft : s.machine.pc + n < 32768 := by omega
    obtain ⟨t, hexec, ht⟩ := execute_padding hrun hpad hleft
    exact ⟨t, _, hexec, ht, toNat_add_ofNat (by omega)⟩
  · intro hn
    -- all words but the last, then the last one with at least one cycle left
    obtain ⟨k, hk⟩ : ∃ k, s.machine.pc + k = 32767 := ⟨_, Nat.add_sub_cancel' hpc⟩
    obtain ⟨rest, rfl⟩ : ∃ rest, n = k + (rest + 1) := ⟨n - k - 1, by omega⟩
    have hleft : s.machine.pc + k < 32768 := by omega
    obtain ⟨t, hexec, ht⟩ := execute_padding hrun hpad hleft
    have hend : t.machine.pc + 1 = 32768 := by
      rw [ht]
      exact congrArg (· + 1) hk
    have hpad' : t.machine.memory.Padded t.machine.pc := by
      rw [ht]
      exact Memory.Padded.mono hpad (Nat.le_add_right _ k)
    obtain ⟨u, hlast, hu⟩ := execute_last_padding (by rw [ht]; exact hrun) hpad' hend rest
    refine ⟨u, s.machine.cycles + UInt64.ofNat (k + 1), ?_, ?_, ?_⟩
    · rw [execute_add, hexec]
      exact hlast
    · rw [hu, ht, hk, UInt64.ofNat_add, ← UInt64.add_assoc]
      rfl
    · rw [toNat_add_ofNat (by omega)]
      omega

/-- Behind the instruction that prints there is padding: a slice of the usual length ends in the
middle of it, and the whole program takes one cycle for each address but one. -/
theorem padding_runs_out_behind_out :
    ∃ s, Reachable s ∧ s.machine.pc = 2 ∧ s.machine.cycles = 1 ∧
      (∃ t, s.execute 5000 = (none, t) ∧ t.machine.pc = 5002 ∧ t.machine.cycles.toNat = 5001) ∧
      ∃ t, s.execute 40000 = (some .halted, t) ∧ t.machine.pc = 32767 ∧
        t.machine.cycles.toNat = 32767 := by
  obtain ⟨mem, b, hb, hboot, hwords, hfetch⟩ :=
    boot_of_le { threshold := .warn } outImage .scan (by decide)
  have hf : mem.fetch 0 = .ok (.out 65) := hfetch ⟨_, rfl⟩
  have hpad : mem.Padded 2 := Memory.padded_of_words hwords
  have hreach : Reachable b := hb ▸ .boot _ _ _
  have hs : (b.execute 1).2.machine =
      { memory := mem, advance := .scan, pc := 2, cycles := 1 } := by
    have hvalue : b.machine.value 65 = .ok 65 := Machine.value_eq_ok_iff.mpr ⟨by decide, rfl⟩
    rw [hboot] at hvalue
    rw [(execute_one_of_rules hboot rfl hf (.out hvalue)).2]
    simp only [Machine.follow]
    rw [Machine.proceed_of_fetch (hpad.fetch (by decide))]
    rfl
  have hreach' := hreach.execute 1
  generalize (b.execute 1).2 = s at hs hreach'
  have hpc : s.machine.pc = 2 := by rw [hs]
  have hcycles : s.machine.cycles = 1 := by rw [hs]
  have hwords : ∀ a : Address, s.machine.pc ≤ a → s.machine.memory.get a = 21 := by
    rw [hs]
    exact hpad
  have hall (n : Nat) := padding_runs_out (by rw [hs]) (by rw [hpc]; decide)
    (by rw [hcycles]; decide) hwords n
  rw [hpc, hcycles] at hall
  obtain ⟨t, c, hexec, ht, hc⟩ := (hall 5000).1 (by decide)
  obtain ⟨t', c', hexec', ht', hc'⟩ := (hall 40000).2 (by decide)
  refine ⟨s, hreach', hpc, hcycles, ⟨t, hexec, ?_, ?_⟩, t', hexec', ?_, ?_⟩
  · rw [ht]
  · rw [ht]
    exact hc
  · rw [ht']
  · rw [ht']
    exact hc'

end Session

end Wordcode
