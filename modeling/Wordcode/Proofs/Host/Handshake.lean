import Wordcode.Proofs.Host.Intake

/-! The handshake over input. A machine that asks for a line stands at an instruction that reads
a character, with nothing to read and more to come. As long as there is no answer it asks again and
nothing changes; a line lets that very instruction go on with the line's first character, and a
closed input makes it fault. Once the input is closed nothing is asked for again. -/

namespace Wordcode

namespace Machine

variable {m : Machine} {i : Instr}

/-- The instruction at the program counter reads a character to the place that `dst` names; there
is none to read, but one may still come. -/
structure Awaits (m : Machine) (dst : Word) : Prop where
  opcode : m.memory.read m.pc = .ok 20
  operand : m.memory.read (m.pc + 1) = .ok dst
  named : dst.toNat < 32776
  pending : m.input.pending = []
  opened : m.input.closed = false

theorem awaits_of_waits (h : m.attempt = .waits i) : ∃ dst, i = .input dst ∧ m.Awaits dst := by
  obtain ⟨hf, hplan⟩ := attempt_eq_waits_iff.mp h
  obtain ⟨dst, place, rfl, hplace, -, -⟩ := plan_eq_wait_iff.mp hplan
  obtain ⟨hopcode, hoperand, -⟩ := Memory.fetch_eq_ok_iff.mp hf
  have hinput := input_of_waits h
  have hnamed : dst.toNat < 32776 := by
    by_contra hle
    rw [Operand.decode_eq_error_iff.mpr ⟨Nat.not_lt.mp hle, rfl⟩] at hplace
    cases hplace
  exact ⟨dst, rfl, hopcode, hoperand, hnamed, by rw [hinput], by rw [hinput]⟩

/-- With a line to read, the instruction that waited takes the line's first character. -/
theorem takes_enter {dst : Word} (h : m.attempt = .waits (.input dst)) (line : String) :
    ∃ c rest, lineChars line = c :: rest ∧ (m.enter line).completed? = some (.input dst) ∧
      (m.enter line).Takes c ∧ (m.enter line).step.machine.input.pending = rest ∧
      (m.enter line).step.machine.cycles = m.cycles + 1 := by
  obtain ⟨c, htakes, hinput⟩ := takes_of_reading (reading_enter h line)
  obtain ⟨dst', hcompleted, hhead, -⟩ := id htakes
  have hpending : (m.enter line).input.pending = lineChars line := by
    rw [enter, input_of_waits h]
    rfl
  rw [hpending] at hhead
  obtain ⟨rest, hrest⟩ := List.head?_eq_some_iff.mp hhead
  obtain ⟨e, flow, hf', -, hfollow⟩ := rules_of_completed hcompleted
  -- entering a line moves neither the instruction nor the program counter
  obtain ⟨hf, -⟩ := attempt_eq_waits_iff.mp h
  cases hf.symm.trans hf'
  refine ⟨c, rest, hrest, hcompleted, htakes, ?_, congrArg (fun n => n.cycles) hfollow.frame⟩
  rw [hinput, Input.drop, hpending, hrest]
  rfl

/-- Without a line to come, the instruction that waited faults. -/
theorem event_close (h : m.attempt = .waits i) :
    m.close.step.event = some (.fault (Fault.inputExhausted.located m.pc)) := by
  obtain ⟨hf, hplan⟩ := attempt_eq_waits_iff.mp h
  obtain ⟨dst, place, rfl, hplace, hnext, -⟩ := plan_eq_wait_iff.mp hplan
  have hclosed : m.close.plan (.input dst) = .error .inputExhausted := by
    have hnext' : m.close.input.next? = none := hnext
    have hclosed : m.close.input.closed = true := rfl
    simp only [plan, hplace, hnext', hclosed]
    rfl
  have hf' : m.close.memory.fetch m.close.pc = .ok (.input dst) := hf
  rw [event_eq_fault_iff, fault?_of_fetch hf', hclosed]
  rfl

end Machine

namespace Session

variable {s t u : Session}

/-! ## Asking again -/

/-- The session after so many slices, one after the other. -/
def executeAll (budgets : List Nat) (s : Session) : Session :=
  budgets.foldl (fun s budget => (s.execute budget).2) s

/-- A session that waits asks for input, and still waits. -/
theorem execute_of_waits {i : Instr} (hrun : s.machine.status = .running)
    (h : s.machine.attempt = .waits i) {budget : Nat} (hpos : 0 < budget) :
    ∃ u, s.execute budget = (some .input, u) ∧ u.machine = s.machine := by
  obtain ⟨budget, rfl⟩ := Nat.exists_eq_add_one.mpr hpos
  have hevent := Machine.event_of_waits h
  exact ⟨_, execute_of_event hrun hevent budget, (Machine.waits_of_event hevent).2⟩

theorem executeAll_of_waits {i : Instr} {budgets : List Nat} (hrun : s.machine.status = .running)
    (h : s.machine.attempt = .waits i) (hpos : ∀ budget ∈ budgets, 0 < budget) :
    (s.executeAll budgets).machine = s.machine := by
  induction budgets generalizing s with
  | nil => rfl
  | cons budget budgets ih =>
    obtain ⟨hhere, hlater⟩ := List.forall_mem_cons.mp hpos
    obtain ⟨u, hexec, hsame⟩ := execute_of_waits hrun h hhere
    have hrest : u.executeAll budgets = s.executeAll (budget :: budgets) := by
      simp only [executeAll, List.foldl_cons, hexec]
    rw [← hrest, ← hsame]
    rw [← hsame] at hrun h
    exact ih hrun h hlater

/-! ## The answer -/

/-- A slice begins with the instruction at the program counter. -/
theorem trail_of_running (hrun : s.machine.status = .running) {budget : Nat} (hpos : 0 < budget) :
    ∃ later, s.trail budget = s.machine :: later := by
  obtain ⟨budget, rfl⟩ := Nat.exists_eq_add_one.mpr hpos
  simp only [trail, hrun, tries]
  split
  · exact ⟨[], rfl⟩
  · exact ⟨_, rfl⟩

theorem execute_close_of_waits {i : Instr} (hrun : s.machine.status = .running)
    (h : s.machine.attempt = .waits i) {budget : Nat} (hpos : 0 < budget) :
    ∃ f u, f = { kind := .inputExhausted, pc := some s.machine.pc,
                 detail := "END OF INPUT STREAM" } ∧
      s.close.execute budget = (some (.fault f), u) ∧
      u.machine = { s.close.machine with status := .faulted f } := by
  obtain ⟨budget, rfl⟩ := Nat.exists_eq_add_one.mpr hpos
  have hrun' : s.close.machine.status = .running := hrun
  have hevent : s.close.machine.step.event = some (.fault _) := Machine.event_close h
  exact ⟨_, _, rfl, execute_of_event hrun' hevent budget, Machine.machine_step_of_fault hevent⟩

/-! ## After the input is closed -/

/-- Nothing opens a closed input again. -/
theorem Moves.closed {past : List Machine} (h : Moves s past t)
    (hs : s.machine.input.closed = true) : t.machine.input.closed = true := by
  induction h with
  | refl => exact hs
  | @tail t u past now _ hm ih =>
    cases hm with
    | step => exact (Machine.closed_step t.machine).trans ih
    | close => rfl
    | enter | broken => exact ih

theorem execute_ne_input (hs : s.machine.input.closed = true) (budget : Nat) :
    (s.execute budget).1 ≠ some .input := by
  intro hevent
  obtain ⟨-, i, hwaits⟩ := waits_of_execute (Prod.ext hevent rfl)
  have hclosed := (closed_execute budget s).trans hs
  rw [Machine.input_of_waits hwaits] at hclosed
  cases hclosed

end Session

namespace Run

variable {σ κ : Type} [LineSource σ] {r : Run σ κ}

variable [Sink κ]

theorem asks_of_closed (h : r.session.machine.input.closed = true) (slice : Nat) :
    r.asks slice = [] := by
  obtain ⟨hasks, -⟩ | ⟨s, hexec, -⟩ := r.asks_cases slice
  · exact hasks
  · exact absurd (congrArg Prod.fst hexec) (Session.execute_ne_input h slice)

theorem closed_round (h : r.session.machine.input.closed = true) (slice : Nat) :
    (r.round slice).run.session.machine.input.closed = true :=
  (Session.round_moves slice r).closed h

/-- A run whose input is closed never asks its source for a line. -/
theorem reads_of_closed (h : r.session.machine.input.closed = true) (rounds : Nat) :
    r.reads rounds = [] := by
  induction rounds generalizing r with
  | zero => rfl
  | succ rounds ih =>
    have hclosed := closed_round h slice
    simp only [reads, asks_of_closed h slice, List.nil_append]
    cases hround : r.round slice with
    | ends result t => rfl
    | goesOn next =>
      rw [hround] at hclosed
      exact ih hclosed

/-- A run that asks for no line leaves its source as it is. -/
theorem source_of_reads_eq_nil {rounds : Nat} {result : Except Fault Unit} {t : Run σ κ}
    (h : r.reads rounds = []) (hd : r.drive rounds = some (result, t)) : t.source = r.source := by
  obtain ⟨-, hsource⟩ := source_of_drive hd
  rw [hsource, h]
  rfl

end Run

/-! ## The handshake -/

/-- **The machine and its host agree on when a line is wanted.** A slice that asks for input
leaves the machine at an instruction that reads a character and has none. However often it is
executed without an answer it asks again, unchanged. Once a line is entered, that instruction is the
first to be completed, with the line's first character; once the input is closed it faults in its
place and changes nothing else. After the input was closed, no slice asks for input and no run
for a line, whatever the host does. -/
theorem input_handshake :
    (∀ (s t : Session) (n : Nat), s.execute n = (some .input, t) →
      ∃ dst, t.machine.Awaits dst ∧
        (∀ (budgets : List Nat) (m : Nat), (∀ b ∈ budgets, 0 < b) → 0 < m →
          ∃ u, (t.executeAll budgets).execute m = (some .input, u) ∧ u.machine = t.machine) ∧
        (∀ (line : String) (m : Nat), 0 < m →
          ∃ c rest later, lineChars line = c :: rest ∧
            (t.enter line).trail m = (t.enter line).machine :: later ∧
            (t.enter line).machine.completed? = some (.input dst) ∧
            (t.enter line).machine.Takes c ∧
            (t.enter line).machine.step.machine.input.pending = rest ∧
            (t.enter line).machine.step.machine.cycles = t.machine.cycles + 1) ∧
        ∀ m : Nat, 0 < m →
          ∃ f u, f = { kind := .inputExhausted, pc := some t.machine.pc,
                       detail := "END OF INPUT STREAM" } ∧
            t.close.execute m = (some (.fault f), u) ∧
            u.machine = { t.close.machine with status := .faulted f }) ∧
    ∀ (s t : Session) (calls : List Call) (reports : List Report), Plays s.close calls reports t →
      (∀ n, (t.execute n).1 ≠ some .input) ∧
      ∀ (σ κ : Type) [LineSource σ] [Sink κ] (source : σ) (sink : κ) (rounds : Nat),
        Run.reads rounds ⟨t, source, sink⟩ = [] ∧
        ∀ result u, Run.drive rounds ⟨t, source, sink⟩ = some (result, u) → u.source = source := by
  refine ⟨?_, ?_⟩
  · intro s t n hexec
    obtain ⟨hrun, i, hwaits⟩ := Session.waits_of_execute hexec
    obtain ⟨dst, rfl, hawaits⟩ := Machine.awaits_of_waits hwaits
    refine ⟨dst, hawaits, ?_, ?_, ?_⟩
    · intro budgets m hbudgets hm
      have hsame := Session.executeAll_of_waits hrun hwaits hbudgets
      rw [← hsame] at hrun hwaits ⊢
      exact Session.execute_of_waits hrun hwaits hm
    · intro line m hm
      obtain ⟨c, rest, hline, htakes⟩ := Machine.takes_enter hwaits line
      have hrun' : (t.enter line).machine.status = .running := hrun
      obtain ⟨later, hlater⟩ := Session.trail_of_running hrun' hm
      exact ⟨c, rest, later, hline, hlater, htakes⟩
    · intro m hm
      exact Session.execute_close_of_waits hrun hwaits hm
  · intro s t calls reports hplays
    have hclosed : t.machine.input.closed = true := hplays.moves.closed rfl
    refine ⟨Session.execute_ne_input hclosed, ?_⟩
    intro σ κ _ _ source sink rounds
    have hr : (Run.mk t source sink).session.machine.input.closed = true := hclosed
    have hreads := Run.reads_of_closed hr rounds
    exact ⟨hreads, fun result u hd => Run.source_of_reads_eq_nil hreads hd⟩

/-- The program that echoes a character asks for one; an empty line is a line feed to it, and
without a line it faults where it stands. -/
theorem input_handshake_of_echo :
    ∃ s t u : Session, s.Reachable ∧ s.execute 9 = (some .input, t) ∧ t.machine.Awaits 32768 ∧
      (t.execute 1).1 = some .input ∧ (t.enter "").machine.Takes '\n' ∧
      t.close.execute 1 = (some (.fault
        { kind := .inputExhausted, pc := some 0, detail := "END OF INPUT STREAM" }), u) ∧
      (u.execute 5).1 ≠ some .input := by
  obtain ⟨mem, s, hboot, hs, h₀, -, -⟩ := boot_echo
  have hreach : s.Reachable := hboot ▸ .boot _ _ _
  have hwaits : s.machine.attempt = .waits (.input 32768) := by
    rw [hs, Machine.attempt_eq_waits_iff]
    exact ⟨h₀, rfl⟩
  obtain ⟨t, hexec, hsame⟩ :=
    Session.execute_of_waits (by rw [hs]) hwaits (show 0 < 9 by decide)
  obtain ⟨hask, hclosed⟩ := input_handshake
  obtain ⟨dst, hawaits, hagain, henter, hclose⟩ := hask s t 9 hexec
  have hdst : dst = 32768 := by
    obtain ⟨-, hread, -⟩ := Memory.fetch_eq_ok_iff.mp h₀
    have hoperand := hawaits.operand
    rw [hsame, hs] at hoperand
    exact Except.ok.inj (hoperand.symm.trans hread)
  have hpc : t.machine.pc = 0 := by rw [hsame, hs]
  subst hdst
  obtain ⟨v, hv, -⟩ := hagain [] 1 (by simp) (by decide)
  obtain ⟨c, rest, later, hline, -, -, htakes, -⟩ := henter "" 1 (by decide)
  obtain ⟨f, u, rfl, hu, -⟩ := hclose 1 (by decide)
  rw [hpc] at hu
  cases (show lineChars "" = ['\n'] by decide).symm.trans hline
  have hplays : Plays t.close [.execute 1] _ (t.close.execute 1).2 := .cons ⟨0, rfl⟩ (.nil _)
  obtain ⟨hnever, -⟩ := hclosed _ _ _ _ hplays
  rw [hu] at hnever
  refine ⟨s, t, u, hreach, hexec, hawaits, ?_, htakes, hu, hnever 5⟩
  exact congrArg Prod.fst hv

end Wordcode
