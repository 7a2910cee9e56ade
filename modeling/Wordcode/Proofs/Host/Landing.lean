import Wordcode.Proofs.Host.Alignment
import Wordcode.Proofs.Host.Footprint

/-! Where a scanning machine lands. What it finds at its program counter was left there by the
instruction completed last, however long ago that was: waiting, faulting and the calls of the host
change neither memory nor program counter. So a scanning machine that was not sent elsewhere stands
on the opcode it scanned for, and only a transfer of control can lead it onto data. -/

namespace Wordcode

/-- The instruction completed last, behind the machine on which it was tried. -/
def latest (past : List Machine) : Option (Machine × Instr) :=
  (past.filterMap fun m => m.completed?.map (m, ·)).getLast?

namespace Machine

variable {past : List Machine} {p m : Machine} {i : Instr}

theorem latest_of_some (h : m.completed? = some i) : latest (past ++ [m]) = some (m, i) := by
  simp [latest, h]

theorem latest_of_none (h : m.completed? = none) : latest (past ++ [m]) = latest past := by
  simp [latest, h]

/-! ## Behind a completed instruction -/

theorem running_iff_onward (hrun : m.status = .running) (h : m.completed? = some i) :
    m.step.machine.status = .running ↔
      m.onward m.step.machine i = some m.step.machine.pc := by
  obtain ⟨hpc, hstatus⟩ := onward_of_completed hrun h
  rw [hstatus, hpc]
  cases m.onward m.step.machine i <;> simp

theorem halted_iff_onward (hrun : m.status = .running) (h : m.completed? = some i) :
    m.step.machine.status = .halted ↔ m.onward m.step.machine i = none := by
  obtain ⟨-, hstatus⟩ := onward_of_completed hrun h
  rw [hstatus]
  cases m.onward m.step.machine i <;> simp

/-- Only a completed instruction halts a machine. -/
theorem completed_of_halted (hrun : m.status = .running) (h : m.step.machine.status = .halted) :
    ∃ i, m.completed? = some i := by
  refine completed_of_event ?_ ?_
  · intro f hevent
    rw [machine_step_of_fault hevent] at h
    cases h
  · intro hevent
    rw [(waits_of_event hevent).2, hrun] at h
    cases h

/-- A machine that goes on behind an instruction that did not transfer control is where the advance
leads. -/
theorem nextAddress_of_straight (hrun : m.status = .running) (h : m.completed? = some i)
    (hstraight : m.destination i = none) (hleft : m.step.machine.status = .running) :
    m.step.machine.nextAddress (m.pc + 1 + i.opcode.arity) = some m.step.machine.pc := by
  have honward := (running_iff_onward hrun h).mp hleft
  have hhalt : i ≠ .halt := by
    rintro rfl
    cases honward
  rwa [onward_of_straight hhalt hstraight] at honward

/-- A scanning machine goes on at the first opcode behind an instruction that did not transfer
control. -/
theorem isLeast_of_straight (hscan : m.advance = .scan) (hrun : m.status = .running)
    (h : m.completed? = some i) (hstraight : m.destination i = none)
    (hleft : m.step.machine.status = .running) :
    IsLeast {a | m.pc + 1 + i.opcode.arity ≤ a ∧ m.step.machine.memory.OpcodeAt a}
      m.step.machine.pc := by
  have hnext := nextAddress_of_straight hrun h hstraight hleft
  rw [nextAddress_of_scan ((advance_step m).trans hscan)] at hnext
  exact Memory.nextOpcode_eq_some_iff_isLeast.mp hnext

/-- A scanning machine halts without being told to where there is nothing to scan for. -/
theorem halted_iff_of_scan (hscan : m.advance = .scan) (hrun : m.status = .running)
    (h : m.completed? = some i) (hhalt : i ≠ .halt) :
    m.step.machine.status = .halted ↔ m.destination i = none ∧
      ∀ a, m.pc + 1 + i.opcode.arity ≤ a → ¬ m.step.machine.memory.OpcodeAt a := by
  rw [halted_iff_onward hrun h, onward, if_neg hhalt, Option.or_eq_none_iff,
    nextAddress_of_scan ((advance_step m).trans hscan), Memory.nextOpcode_eq_none_iff]

/-! ## Since the last completed instruction -/

/-- The instruction `i` was completed on `p`, and of what it left `m` has the memory and the program
counter. It has the status too, unless a fault has come since: a fault of the machine's own needs a
running machine, one of a stream does not. -/
structure Since (p : Machine) (i : Instr) (m : Machine) : Prop where
  completed : p.completed? = some i
  running : p.status = .running
  advance : p.advance = m.advance
  memory : m.memory = p.step.machine.memory
  pc : m.pc = p.step.machine.pc
  status : m.status = p.step.machine.status ∨
    ∃ f, m.status = .faulted f ∧ (f.kind = .io ∨ p.step.machine.status = .running)

/-- What is left of the instruction completed last, or of the start if there is none. -/
def Accounted (m : Machine) : Option (Machine × Instr) → Prop
  | none => m.pc = 0 ∧ m.cycles = 0 ∧ m.status ≠ .halted
  | some (p, i) => p.Since i m

theorem Accounted.boot (image : List Word) (advance : Advance) :
    (Machine.boot image advance).Accounted none := by
  refine ⟨rfl, rfl, ?_⟩
  unfold Machine.boot
  split <;> nofun

theorem Accounted.congr {last : Option (Machine × Instr)} (h : m.Accounted last) {n : Machine}
    (hm : n.memory = m.memory) (hp : n.pc = m.pc) (hc : n.cycles = m.cycles)
    (ha : n.advance = m.advance)
    (hstatus : n.status = m.status ∨
      ∃ f, n.status = .faulted f ∧ (f.kind = .io ∨ m.status = .running)) : n.Accounted last := by
  cases last with
  | none =>
    obtain ⟨hpc, hcycles, hhalted⟩ := h
    refine ⟨hp.trans hpc, hc.trans hcycles, ?_⟩
    rcases hstatus with hsame | ⟨f, hfaulted, -⟩
    · rwa [hsame]
    · rw [hfaulted]
      nofun
  | some last =>
    refine ⟨h.completed, h.running, h.advance.trans ha.symm, hm.trans h.memory, hp.trans h.pc, ?_⟩
    rcases hstatus with hsame | ⟨f, hfaulted, hcause⟩
    · rw [hsame]
      exact h.status
    · refine .inr ⟨f, hfaulted, hcause.imp_right fun hrunning => ?_⟩
      rcases h.status with hleft | ⟨g, hg, -⟩
      · exact hleft.symm.trans hrunning
      · exact nomatch hrunning.symm.trans hg

theorem Accounted.step (h : m.Accounted (latest past)) (hrun : m.status = .running) :
    m.step.machine.Accounted (latest (past ++ [m])) := by
  cases hcompleted : m.completed? with
  | some i =>
    rw [latest_of_some hcompleted]
    exact ⟨hcompleted, hrun, (advance_step m).symm, rfl, rfl, .inl rfl⟩
  | none =>
    rw [latest_of_none hcompleted]
    rcases step_of_uncompleted hcompleted with hsame | ⟨f, hfault⟩
    · rwa [hsame]
    · rw [hfault]
      exact h.congr rfl rfl rfl rfl (.inr ⟨f, rfl, .inr hrun⟩)

/-- A machine that runs, or has faulted by itself, was left running. -/
theorem Since.left_running (h : p.Since i m)
    (hstatus : m.status = .running ∨ ∃ f, m.status = .faulted f ∧ f.kind ≠ .io) :
    p.step.machine.status = .running := by
  obtain ⟨-, hleft⟩ := onward_of_completed h.running h.completed
  rcases h.status with hsame | ⟨f, hf, hcause⟩
  · rcases hstatus with hrun | ⟨g, hg, -⟩
    · exact hsame.symm.trans hrun
    · rw [← hsame, hg] at hleft
      split at hleft <;> cases hleft
  · rcases hstatus with hrun | ⟨g, hg, hkind⟩
    · exact nomatch hrun.symm.trans hf
    · cases hg.symm.trans hf
      exact hcause.resolve_left hkind

/-- A machine that was left running by an instruction that did not transfer control stands on an
opcode. -/
theorem Since.lands (h : p.Since i m) (hscan : m.advance = .scan)
    (hstraight : p.destination i = none)
    (hstatus : m.status = .running ∨ ∃ f, m.status = .faulted f ∧ f.kind ≠ .io) :
    m.memory.OpcodeAt m.pc ∧
      IsLeast {a | p.pc + 1 + i.opcode.arity ≤ a ∧ p.step.machine.memory.OpcodeAt a} m.pc := by
  have hleast := isLeast_of_straight (h.advance.trans hscan) h.running h.completed hstraight
    (h.left_running hstatus)
  rw [h.memory, h.pc]
  exact ⟨hleast.1.2, hleast⟩

/-! ## Words that are no opcodes -/

theorem not_opcodeAt_of_diagnosis {f : Fault} (h : m.diagnosis = some f)
    (hkind : f.kind = .invalidOpcode) : ¬ m.memory.OpcodeAt m.pc := by
  rintro ⟨w, hread, hle⟩
  have hword : m.wordAt 0 = w := wordAt_of_read hread
  obtain ⟨hlt, -⟩ := Memory.read_eq_ok_iff.mp hread
  rw [diagnosis, if_neg (Nat.ne_of_lt hlt), hword, if_neg (Nat.not_lt.mpr hle)] at h
  unfold blame at h
  repeat' split at h
  all_goals cases h
  all_goals cases hkind

/-- A fault over an opcode is kept as long as the word that caused it. -/
def Undecodable (m : Machine) : Prop :=
  ∀ f, m.status = .faulted f → f.kind = .invalidOpcode → ¬ m.memory.OpcodeAt m.pc

theorem Undecodable.boot (image : List Word) (advance : Advance) :
    (Machine.boot image advance).Undecodable := by
  intro f hf hkind
  unfold Machine.boot at hf
  dsimp only at hf
  split at hf
  · cases hf
    cases hkind
  · cases hf

theorem Bounded.undecodable_step {image : List Word} (hb : Bounded image m)
    (hrun : m.status = .running) : m.step.machine.Undecodable := by
  have ht := step_trial m
  generalize m.step.machine = after at ht ⊢
  generalize m.step.event = event at ht
  intro f hf hkind
  cases ht with
  | @fault g hg =>
    cases hf
    refine not_opcodeAt_of_diagnosis (m := m) ?_ hkind
    rw [hb.diagnosis_eq, hg]
    rfl
  | wait => exact nomatch hrun.symm.trans hf
  | complete _ _ hfollow =>
    cases hfollow with
    | jump | next | print => exact nomatch hrun.symm.trans hf
    | halt | last | lastPrint => cases hf

end Machine

namespace Session

variable {image : List Word} {advance : Advance} {past : List Machine} {s t : Session}

theorem Moves.accounted (h : Moves s past t) (hs : s.machine.Accounted none) :
    t.machine.Accounted (latest past) := by
  induction h with
  | refl => exact hs
  | tail _ hm ih =>
    cases hm with
    | step hrun => exact ih.step hrun
    | enter | close =>
      rw [List.append_nil]
      exact ih.congr rfl rfl rfl rfl (.inl rfl)
    | broken =>
      rw [List.append_nil]
      exact ih.congr rfl rfl rfl rfl (.inr ⟨_, rfl, .inl rfl⟩)

theorem Moves.undecodable (h : Moves s past t) (hsound : Machine.Sound image [] s.machine)
    (hs : s.machine.Undecodable) : t.machine.Undecodable := by
  induction h with
  | refl => exact hs
  | tail hmoves hm ih =>
    cases hm with
    | step hrun => exact (hmoves.sound hsound).bounded.undecodable_step hrun
    | enter | close => exact ih
    | broken =>
      rintro f ⟨⟩ hkind
      cases hkind

theorem History.accounted (h : History image advance past s) :
    s.machine.Accounted (latest past) ∧ s.machine.Undecodable ∧ s.machine.advance = advance := by
  obtain ⟨threshold, hmoves⟩ := h.moves
  exact ⟨hmoves.accounted (Machine.Accounted.boot image advance),
    hmoves.undecodable (Machine.Sound.boot image advance) (Machine.Undecodable.boot image advance),
    hmoves.advance⟩

/-- **A scanning machine lands on data only by a transfer of control.** If the instruction completed
last did not transfer control, the machine stands on the first opcode behind it, in memory as that
instruction left it. So a word that is no opcode is met at the very start or behind a transfer. The
machine halts without a halt instruction when there is no opcode left to scan for, and only then. -/
theorem scan_lands_on_opcodes (h : History image .scan past s) :
    (∀ p i, latest past = some (p, i) → p.destination i = none → s.machine.status = .running →
      s.machine.memory.OpcodeAt s.machine.pc ∧
      IsLeast {a | p.pc + 1 + i.opcode.arity ≤ a ∧ p.step.machine.memory.OpcodeAt a}
        s.machine.pc) ∧
    (∀ f, s.machine.status = .faulted f → f.kind = .invalidOpcode →
      s.machine.cycles = 0 ∧ s.machine.pc = 0 ∨
        ∃ p i a, latest past = some (p, i) ∧ p.destination i = some a) ∧
    (s.machine.status = .running →
      ((s.execute 1).2.machine.status = .halted ∧ s.machine.completed? ≠ some .halt ↔
        ∃ i, s.machine.completed? = some i ∧ i ≠ .halt ∧ s.machine.destination i = none ∧
          ∀ a, s.machine.pc + 1 + i.opcode.arity ≤ a →
            ¬ (s.execute 1).2.machine.memory.OpcodeAt a)) ∧
    (s.machine.status = .halted →
      ∃ p i, latest past = some (p, i) ∧ (i = .halt ∨ p.destination i = none ∧
        ∀ a, p.pc + 1 + i.opcode.arity ≤ a → ¬ p.step.machine.memory.OpcodeAt a)) := by
  obtain ⟨haccounted, hundecodable, hscan⟩ := h.accounted
  refine ⟨?_, ?_, ?_, ?_⟩
  · intro p i hlatest hstraight hrun
    rw [hlatest] at haccounted
    exact haccounted.lands hscan hstraight (.inl hrun)
  · intro f hf hkind
    cases hlatest : latest past with
    | none =>
      rw [hlatest] at haccounted
      exact .inl ⟨haccounted.2.1, haccounted.1⟩
    | some last =>
      obtain ⟨p, i⟩ := last
      rw [hlatest] at haccounted
      cases hdestination : p.destination i with
      | some a => exact .inr ⟨p, i, a, rfl, hdestination⟩
      | none =>
        have hlands := haccounted.lands hscan hdestination (.inr ⟨f, hf, by rw [hkind]; nofun⟩)
        exact absurd hlands.1 (hundecodable f hf hkind)
  · intro hrun
    rw [machine_execute_one hrun]
    constructor
    · rintro ⟨hhalted, hhalt⟩
      obtain ⟨i, hcompleted⟩ := Machine.completed_of_halted hrun hhalted
      have hne : i ≠ .halt := by
        rintro rfl
        exact hhalt hcompleted
      exact ⟨i, hcompleted, hne,
        (Machine.halted_iff_of_scan hscan hrun hcompleted hne).mp hhalted⟩
    · rintro ⟨i, hcompleted, hhalt, hstraight⟩
      refine ⟨(Machine.halted_iff_of_scan hscan hrun hcompleted hhalt).mpr hstraight, ?_⟩
      rw [hcompleted]
      exact fun he => hhalt (Option.some.inj he)
  · intro hhalted
    cases hlatest : latest past with
    | none =>
      rw [hlatest] at haccounted
      exact absurd hhalted haccounted.2.2
    | some last =>
      obtain ⟨p, i⟩ := last
      rw [hlatest] at haccounted
      have hleft : p.step.machine.status = .halted := by
        rcases haccounted.status with hsame | ⟨f, hf, -⟩
        · exact hsame.symm.trans hhalted
        · exact nomatch hhalted.symm.trans hf
      refine ⟨p, i, rfl, ?_⟩
      by_cases hhalt : i = .halt
      · exact .inl hhalt
      · exact .inr ((Machine.halted_iff_of_scan (haccounted.advance.trans hscan) haccounted.running
          haccounted.completed hhalt).mp hleft)

/-- Does nothing, passes over a word of data, and jumps back onto it. -/
def detourImage : List Word := [21, 500, 6, 1]

theorem execute_detour {mem : Memory} {b : Session}
    (hb : b.machine = { memory := mem, advance := .scan }) (h₀ : mem.fetch 0 = .ok .noop)
    (h₁ : ¬ mem.OpcodeAt 1) (h₂ : mem.fetch 2 = .ok (.jump 1)) :
    (b.execute 1).2.machine = { memory := mem, advance := .scan, pc := 2, cycles := 1 } ∧
      ((b.execute 1).2.execute 1).2.machine =
        { memory := mem, advance := .scan, pc := 1, cycles := 2 } := by
  have hnext (n : Machine) (hm : n.memory = mem) (ha : n.advance = .scan) (hp : n.pc = 0) :
      n.nextAddress (n.pc + Instr.noop.size) = some 2 := by
    rw [Machine.nextAddress_of_scan ha, hm, hp]
    exact Memory.nextOpcode_of_skip h₁ (Memory.opcodeAt_of_fetch h₂)
  have hs : (b.execute 1).2.machine =
      { memory := mem, advance := .scan, pc := 2, cycles := 1 } := by
    rw [(execute_one_of_rules hb rfl h₀ .noop).2, Machine.follow, Machine.proceed,
      hnext _ rfl rfl rfl]
    rfl
  refine ⟨hs, ?_⟩
  rw [(execute_one_of_rules hs rfl h₂ (.jump rfl)).2]
  rfl

/-- A word that is no opcode makes the machine fault where it stands. -/
theorem execute_of_data {s : Session} (hrun : s.machine.status = .running)
    (hpc : s.machine.pc < memorySize) (hdata : ¬ s.machine.memory.OpcodeAt s.machine.pc) :
    ∃ f, f.kind = .invalidOpcode ∧ (s.execute 1).2.machine.status = .faulted f ∧
      (s.execute 1).2.machine.pc = s.machine.pc := by
  have hword : Opcode.ofWord? (s.machine.memory.get ⟨s.machine.pc, hpc⟩) = none := by
    refine Opcode.ofWord?_eq_none_iff.mpr (Nat.lt_of_not_le fun hle => hdata ?_)
    exact ⟨_, Memory.read_of_lt _ hpc, hle⟩
  have hevent := Machine.event_eq_fault_iff.mpr
    (congrArg (Option.map (·.located s.machine.pc))
      (Machine.fault?_of_unfetched (Memory.fetch_of_not_opcode hpc hword)))
  have hfaulted := (machine_execute_one hrun).trans (Machine.machine_step_of_fault hevent)
  exact ⟨_, rfl, by rw [hfaulted], by rw [hfaulted]⟩

/-- The data are passed over at first; met by the jump, they are no opcode. -/
theorem scan_lands_on_opcodes_of_detour :
    ∃ past s past' t, History detourImage .scan past s ∧ s.machine.pc = 2 ∧
      s.machine.memory.OpcodeAt s.machine.pc ∧ History detourImage .scan past' t ∧
      (∃ f, t.machine.status = .faulted f ∧ f.kind = .invalidOpcode) ∧
      ∃ p i a, latest past' = some (p, i) ∧ p.destination i = some a := by
  obtain ⟨mem, b, hb, hboot, hwords, hfetch⟩ :=
    boot_of_le { threshold := .warn } detourImage .scan (by decide)
  have h₀ : mem.fetch 0 = .ok .noop := hfetch ⟨_, rfl⟩
  have h₂ : mem.fetch 2 = .ok (.jump 1) := hfetch ⟨_, rfl⟩
  have hdata (h : 1 < memorySize) : mem.get ⟨1, h⟩ = 500 := hwords _
  have h₁ : ¬ mem.OpcodeAt 1 := by
    rintro ⟨w, hread, hle⟩
    obtain ⟨hlt, rfl⟩ := Memory.read_eq_ok_iff.mp hread
    rw [hdata hlt] at hle
    exact absurd hle (by decide)
  have hstart : History detourImage .scan [] b := hb ▸ .boot .warn
  obtain ⟨hs, ht⟩ := execute_detour hboot h₀ h₁ h₂
  have hfirst := hstart.execute 1
  have hthird := (hfirst.execute 1).execute 1
  have hlatest : latest ([] ++ b.trail 1) = some (b.machine, .noop) := by
    have hcompleted : b.machine.completed? = some .noop := by
      rw [hboot]
      exact Machine.completed_of_rules h₀ .noop
    rw [trail_one (by rw [hboot])]
    exact Machine.latest_of_some hcompleted
  generalize (b.execute 1).2 = s at hfirst hthird hs ht
  generalize (s.execute 1).2 = t at hthird ht
  obtain ⟨hlands, -⟩ := scan_lands_on_opcodes hfirst
  obtain ⟨hop, -⟩ := hlands _ _ hlatest rfl (by rw [hs])
  have hpc : t.machine.pc = 1 := by rw [ht]
  obtain ⟨f, hkind, hf, hmet⟩ := execute_of_data (s := t) (by rw [ht]) (by rw [hpc]; decide)
    (by rw [ht]; exact h₁)
  obtain ⟨-, hafter, -⟩ := scan_lands_on_opcodes hthird
  refine ⟨_, s, _, _, hfirst, by rw [hs], hop, hthird, ⟨f, hf, hkind⟩, ?_⟩
  refine (hafter f hf hkind).resolve_left ?_
  rw [hmet, hpc]
  nofun

end Session

end Wordcode
