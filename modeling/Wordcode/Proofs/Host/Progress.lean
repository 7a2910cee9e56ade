import Wordcode.Proofs.Host.Endings
import Wordcode.Proofs.Host.Footprint
import Wordcode.Proofs.Host.Handshake

/-! Budgets and progress. A cycle is counted for each completed instruction, and how a budget ends
tells how much of it was used. A round may complete nothing only when it asks for input; the line it
gets lets the next round complete the instruction that waited, and without a line the next round is
the last. So a run that does not end completes instructions without end. -/

namespace Wordcode

universe u v

/-- The number of completed instructions. -/
def completions (past : List Machine) : Nat :=
  (past.filterMap Machine.completed?).length

theorem completions_append (past past' : List Machine) :
    completions (past ++ past') = completions past + completions past' := by
  rw [completions, List.filterMap_append, List.length_append]
  rfl

theorem completions_cons (m : Machine) (past : List Machine) :
    completions (m :: past) = completions [m] + completions past :=
  completions_append [m] past

/-- How many instructions a budget of `n` may have completed when it ends with this event, or is
used up. -/
def Spent (n : Nat) : (event : Option Event) → (d : Nat) → Prop
  | none, d => d = n
  | some (.print _), d | some .halted, d => 1 ≤ d ∧ d ≤ n
  | some .input, d | some (.fault _), d => d < n

section Spent

variable {n d : Nat} {event : Option Event}

theorem Spent.le (h : Spent n event d) : d ≤ n := by
  unfold Spent at h
  split at h <;> omega

theorem Spent.succ (h : Spent n event d) : Spent (n + 1) event (1 + d) := by
  unfold Spent at h ⊢
  split at h <;> omega

theorem Spent.mono {event : Event} (h : Spent n (some event) d) {n' : Nat} (hle : n ≤ n') :
    Spent n' (some event) d := by
  unfold Spent at h ⊢
  cases event <;> simp only at h ⊢ <;> omega

end Spent

namespace Machine

variable {m : Machine} {i : Instr}

theorem completions_of_some (h : m.completed? = some i) : completions [m] = 1 := by
  simp [completions, h]

theorem completions_of_none (h : m.completed? = none) : completions [m] = 0 := by
  simp [completions, h]

/-- An instruction uses a budget of one, and is counted if it is completed. -/
theorem spent_step (m : Machine) :
    Spent 1 m.step.event (completions [m]) ∧
      m.step.machine.cycles = m.cycles + UInt64.ofNat (completions [m]) := by
  have ht := step_trial m
  generalize m.step.machine = after at ht ⊢
  generalize m.step.event = event at ht ⊢
  cases ht with
  | fault hf =>
    rw [completions_of_none (completed?_of_fault hf)]
    exact ⟨Nat.one_pos, (UInt64.add_zero _).symm⟩
  | wait hw =>
    rw [completions_of_none (completed?_of_waits hw)]
    exact ⟨Nat.one_pos, (UInt64.add_zero _).symm⟩
  | complete hf ha hfollow =>
    rw [completions_of_some (completed_of_rules hf ha)]
    refine ⟨?_, congrArg (fun n => n.cycles) hfollow.frame⟩
    cases hfollow with
    | jump | next => rfl
    | print | halt | last | lastPrint => exact ⟨Nat.le_refl 1, Nat.le_refl 1⟩

end Machine

theorem toNat_add_ofNat {c : UInt64} {d : Nat} (h : c.toNat + d < UInt64.size) :
    (c + UInt64.ofNat d).toNat = c.toNat + d := by
  rw [UInt64.toNat_add, UInt64.toNat_ofNat_of_lt' (by omega)]
  exact Nat.mod_eq_of_lt h

namespace Session

variable {s t : Session}

/-- The cycles count the completed instructions, whatever happens in between. -/
theorem Moves.cycles {past : List Machine} (h : Moves s past t) :
    t.machine.cycles = s.machine.cycles + UInt64.ofNat (completions past) := by
  induction h with
  | refl => exact (UInt64.add_zero _).symm
  | tail _ hm ih =>
    rw [completions_append, UInt64.ofNat_add, ← UInt64.add_assoc, ← ih]
    cases hm with
    | step => exact (Machine.spent_step _).2
    | enter | close | broken => exact (UInt64.add_zero _).symm

/-- How a budget ends tells how much of it was used. -/
theorem spent_execute (hrun : s.machine.status = .running) (budget : Nat) :
    Spent budget (s.execute budget).1 (completions (s.trail budget)) := by
  have hspend (budget : Nat) (s : Session) :
      Spent budget (s.spend budget).1 (completions (s.tries budget)) := by
    induction budget generalizing s with
    | zero => rfl
    | succ budget ih =>
      obtain ⟨hone, -⟩ := s.machine.spent_step
      cases hstep : s.step with
      | mk event t =>
        rw [(step_machine hstep).1] at hone
        simp only [spend, tries, hstep]
        cases event with
        | some event => exact hone.mono (Nat.succ_le_succ (Nat.zero_le budget))
        | none =>
          rw [completions_cons, show completions [s.machine] = 1 from hone]
          exact (ih t).succ
  rw [execute_of_running hrun, trail, hrun]
  exact hspend budget s

theorem trail_of_finished (h : s.machine.finished = true) (budget : Nat) : s.trail budget = [] := by
  obtain ⟨result, hstatus⟩ := Machine.finished_iff.mp h
  rw [trail, hstatus]
  cases result <;> rfl

theorem completions_trail_le (budget : Nat) (s : Session) :
    completions (s.trail budget) ≤ budget := by
  cases hrun : s.machine.status with
  | running => exact (spent_execute hrun budget).le
  | halted | faulted f =>
    rw [trail, hrun]
    exact Nat.zero_le budget

end Session

/-! ## Rounds -/

namespace Run

variable {σ : Type u} {κ : Type v} [LineSource σ] [Sink κ] {r r' r'' : Run σ κ} {budget : Nat}

theorem running_of_goesOn (h : r.round budget = .goesOn r') :
    r.session.machine.status = .running := by
  cases hstatus : r.session.machine.status with
  | running => rfl
  | halted =>
    have hended : r.session.machine.status = .ofResult (.ok ()) := hstatus
    cases (round_of_ended hended budget).1.symm.trans h
  | faulted f =>
    have hended : r.session.machine.status = .ofResult (.error f) := hstatus
    cases (round_of_ended hended budget).1.symm.trans h

/-- A round that goes on has used up its budget, printed a character or asked for a line. -/
theorem goesOn_cases (h : r.round budget = .goesOn r') :
    (r.session.execute budget).1 = none ∨
    (∃ c, (r.session.execute budget).1 = some (.print c)) ∨
    ∃ t, r.session.execute budget = (some .input, t) ∧
      ((∃ line, r'.session = t.enter line) ∨ r'.session = t.close) := by
  obtain ⟨s, source, sink⟩ := r
  simp only [round] at h
  split at h <;> rename_i hexec
  · exact .inl (congrArg Prod.fst hexec)
  · exact .inr (.inl ⟨_, congrArg Prod.fst hexec⟩)
  · refine .inr (.inr ⟨_, hexec, ?_⟩)
    split at h
    · cases h
      exact .inl ⟨_, rfl⟩
    · cases h
      exact .inr rfl
    · cases h
  · cases h
  · cases h

/-- Behind a request for a line, a round that goes on completes the instruction that waited. -/
theorem completes_of_input {t : Session} {i : Instr} (hrun : t.machine.status = .running)
    (hwaits : t.machine.attempt = .waits i)
    (hr : (∃ line, r.session = t.enter line) ∨ r.session = t.close)
    (h : r.round budget = .goesOn r') (hpos : 0 < budget) :
    0 < completions (r.session.trail budget) := by
  obtain ⟨dst, rfl, -⟩ := Machine.awaits_of_waits hwaits
  rcases hr with ⟨line, hr⟩ | hr
  · obtain ⟨c, rest, -, hcompleted, -⟩ := Machine.takes_enter hwaits line
    obtain ⟨later, hlater⟩ := Session.trail_of_running (running_of_goesOn h) hpos
    rw [hlater, completions_cons, hr, Session.machine_enter, Machine.completions_of_some hcompleted]
    omega
  · -- without a line it faults, and the round would have ended the run
    obtain ⟨f, u, -, hfault, -⟩ := Session.execute_close_of_waits hrun hwaits hpos
    obtain ⟨s, source, sink⟩ := r
    subst hr
    simp only [round, hfault] at h
    cases h

/-- Of two rounds that both go on, one completes an instruction. -/
theorem completes_of_goesOn (h : r.round budget = .goesOn r') (h' : r'.round budget = .goesOn r'')
    (hpos : 0 < budget) :
    0 < completions (r.session.trail budget) ∨ 0 < completions (r'.session.trail budget) := by
  have hspent := Session.spent_execute (running_of_goesOn h) budget
  rcases goesOn_cases h with hnone | ⟨c, hprint⟩ | ⟨t, hinput, hr⟩
  · rw [hnone] at hspent
    exact .inl (hspent.symm ▸ hpos)
  · rw [hprint] at hspent
    exact .inl hspent.1
  · obtain ⟨hrun, i, hwaits⟩ := Session.waits_of_execute hinput
    exact .inr (completes_of_input hrun hwaits hr h' hpos)

theorem cycles_of_goesOn (h : r.round budget = .goesOn r')
    (hcycles : r.session.machine.cycles.toNat + budget < UInt64.size) :
    r'.session.machine.cycles.toNat =
      r.session.machine.cycles.toNat + completions (r.session.trail budget) := by
  have hmoves := Session.round_moves budget r
  have hle := Session.completions_trail_le budget r.session
  rw [h] at hmoves
  rw [show r'.session.machine.cycles = _ from hmoves.cycles]
  exact toNat_add_ofNat (by omega)

/-! ## Runs -/

/-- A run that has not ended has completed an instruction in every two rounds. -/
theorem le_completions_of_drive {N : Nat} (h : r.drive (2 * N) = none) :
    N ≤ completions (r.trail (2 * N)) := by
  -- two rounds at a time, since the first of them may complete nothing
  induction N generalizing r with
  | zero => exact Nat.zero_le _
  | succ N ih =>
    rw [Nat.mul_succ] at h ⊢
    simp only [drive, trail] at h ⊢
    cases hr : r.round slice with
    | ends result t =>
      rw [hr] at h
      cases h
    | goesOn r' =>
      rw [hr] at h
      simp only at h ⊢
      cases hr' : r'.round slice with
      | ends result t =>
        rw [hr'] at h
        cases h
      | goesOn r'' =>
        rw [hr'] at h
        have hrest : N ≤ completions (r''.trail (2 * N)) := ih h
        have hone := completes_of_goesOn hr hr' (by decide)
        simp only [completions_append]
        omega

/-- A run that has ended completes nothing more. -/
theorem completions_le_of_drive {rounds : Nat} {answer : Except Fault Unit × Run σ κ}
    (h : r.drive rounds = some answer) (more : Nat) :
    completions (r.trail more) ≤ rounds * slice := by
  induction rounds generalizing r more with
  | zero => cases h
  | succ rounds ih =>
    cases more with
    | zero => exact Nat.zero_le _
    | succ more =>
      have hfirst := Session.completions_trail_le slice r.session
      simp only [drive] at h
      rw [trail, completions_append, Nat.succ_mul]
      cases hr : r.round slice with
      | ends result t =>
        show completions (r.session.trail slice) + completions [] ≤ _
        rw [show completions [] = 0 from rfl]
        omega
      | goesOn r' =>
        rw [hr] at h
        have hrest := ih h more
        show completions (r.session.trail slice) + completions (r'.trail more) ≤ _
        omega

end Run

/-- **A budget is accounted for, and a run makes progress.** The cycles grow by as much as the way a
budget ends allows. Of two rounds that both go on, one adds to the cycles. A run completes an
instruction in every two rounds, so it fails to return exactly if it completes more instructions
than any number. -/
theorem run_progress :
    (∀ (s : Session) (n : Nat), s.machine.cycles.toNat + n < UInt64.size →
      ∃ d, (s.execute n).2.machine.cycles.toNat = s.machine.cycles.toNat + d ∧
        (s.machine.finished = true → d = 0) ∧
        (s.machine.status = .running → Spent n (s.execute n).1 d)) ∧
    ∀ {σ : Type u} {κ : Type v} [LineSource σ] [Sink κ],
      (∀ r r' r'' : Run σ κ, r.session.machine.cycles.toNat + 2 * Run.slice < UInt64.size →
        r.round Run.slice = .goesOn r' → r'.round Run.slice = .goesOn r'' →
        r.session.machine.cycles < r'.session.machine.cycles ∨
          r'.session.machine.cycles < r''.session.machine.cycles) ∧
      (∀ (r : Run σ κ) (N : Nat), r.drive (2 * N) = none → N ≤ completions (r.trail (2 * N))) ∧
      ∀ r : Run σ κ, (∀ rounds, r.drive rounds = none) ↔
        ∀ N, ∃ rounds, N ≤ completions (r.trail rounds) := by
  refine ⟨?_, ?_⟩
  · intro s n hcycles
    have hle := Session.completions_trail_le n s
    refine ⟨completions (s.trail n), ?_, ?_, fun hrun => Session.spent_execute hrun n⟩
    · rw [(Session.execute_moves n s).cycles]
      exact toNat_add_ofNat (by omega)
    · intro hfinished
      rw [Session.trail_of_finished hfinished]
      rfl
  · intro σ κ _ _
    refine ⟨?_, ?_, ?_⟩
    · intro r r' r'' hcycles h h'
      have hle := Session.completions_trail_le Run.slice r.session
      have hfirst := Run.cycles_of_goesOn h (by omega)
      have hsecond := Run.cycles_of_goesOn h' (by omega)
      have hone := Run.completes_of_goesOn h h' (by decide)
      rw [UInt64.lt_iff_toNat_lt, UInt64.lt_iff_toNat_lt]
      omega
    · intro r N h
      exact Run.le_completions_of_drive h
    · intro r
      constructor
      · intro h N
        exact ⟨2 * N, Run.le_completions_of_drive (h _)⟩
      · intro h rounds
        cases hd : r.drive rounds with
        | none => rfl
        | some answer =>
          obtain ⟨more, hmore⟩ := h (rounds * Run.slice + 1)
          have hle := Run.completions_le_of_drive hd more
          omega

/-- The program that echoes a character asks for a line in its first round and prints in its
second. -/
theorem rounds_echo {mem : Memory} (h₀ : mem.fetch 0 = .ok (.input 32768))
    (h₂ : mem.fetch 2 = .ok (.out 32768)) {s : Session}
    (hs : s.machine = { memory := mem, advance := .flat }) :
    ∃ r' r'' : Run Replies BoundedSink,
      Run.round Run.slice ⟨s, ⟨[.ok (some "a")]⟩, {}⟩ = .goesOn r' ∧
      r'.session.machine.cycles = s.machine.cycles ∧ r'.round Run.slice = .goesOn r'' := by
  have hwaits : s.machine.attempt = .waits (.input 32768) := by
    rw [hs, Machine.attempt_eq_waits_iff]
    exact ⟨h₀, rfl⟩
  obtain ⟨t, hexec, hsame⟩ :=
    Session.execute_of_waits (by rw [hs]) hwaits (show 0 < Run.slice by decide)
  have hline : (t.enter "a").machine =
      { memory := mem, advance := .flat, input := ⟨['a', '\n'], false⟩ } := by
    rw [Session.machine_enter, hsame, hs]
    rfl
  have hdst : Operand.decode 32768 = .ok (.register 0) := Operand.decode_encode (.register 0)
  obtain ⟨hread, hu⟩ := Session.execute_one_of_rules hline rfl h₀ (.inputRegister hdst rfl)
  have hcycles : (t.enter "a").machine.cycles = s.machine.cycles := by rw [hline, hs]
  have hfirst : Run.round Run.slice ⟨s, (⟨[.ok (some "a")]⟩ : Replies), ({} : BoundedSink)⟩ =
      .goesOn ⟨t.enter "a", ⟨[]⟩, {}⟩ := by
    simp only [Run.round, hexec]
    rfl
  generalize t.enter "a" = s₁ at hread hu hcycles hfirst
  generalize (s₁.execute 1).2 = u at hread hu
  have hvalue : u.machine.value 32768 = .ok 97 := by
    rw [hu]
    exact Machine.value_eq_ok_iff.mpr ⟨by decide, rfl⟩
  have hout : u.machine.memory.fetch u.machine.pc = .ok (.out 32768) := by
    rw [hu]
    exact h₂
  have hprint := Session.execute_of_event (by rw [hu]; rfl)
    (Machine.event_step_of_out hout hvalue) 4998
  have hsecond : s₁.execute Run.slice = (some (.print 'a'), u.step.2) := by
    rw [show Run.slice = 1 + 4999 from rfl, Session.execute_add, hread]
    exact hprint
  refine ⟨_, ⟨u.step.2, ⟨[]⟩, { accepted := #[97], flushes := 1 }⟩, hfirst, hcycles, ?_⟩
  simp only [Run.round, hsecond, put_echo]

/-- Jumps to itself. -/
def spinImage : List Word := [6, 0]

theorem execute_spin {mem : Memory} (h₀ : mem.fetch 0 = .ok (.jump 0)) (n : Nat) {s : Session}
    {c : UInt64} (hs : s.machine = { memory := mem, advance := .flat, cycles := c }) :
    ∃ t c', s.execute n = (none, t) ∧
      t.machine = { memory := mem, advance := .flat, cycles := c' } := by
  induction n generalizing s c with
  | zero =>
    refine ⟨s, c, ?_, hs⟩
    rw [Session.execute_of_running (by rw [hs])]
    rfl
  | succ n ih =>
    obtain ⟨hexec, ht⟩ := Session.execute_one_of_rules hs rfl h₀ (.jump rfl)
    obtain ⟨u, c', hu, hmachine⟩ := ih ht
    refine ⟨u, c', ?_, hmachine⟩
    rw [Nat.add_comm, Session.execute_add, hexec]
    exact hu

theorem drive_spin {σ : Type u} {κ : Type v} [LineSource σ] [Sink κ] {mem : Memory}
    (h₀ : mem.fetch 0 = .ok (.jump 0)) (rounds : Nat) {r : Run σ κ} {c : UInt64}
    (hr : r.session.machine = { memory := mem, advance := .flat, cycles := c }) :
    r.drive rounds = none := by
  induction rounds generalizing r c with
  | zero => rfl
  | succ rounds ih =>
    obtain ⟨s, source, sink⟩ := r
    obtain ⟨t, c', hexec, ht⟩ := execute_spin h₀ Run.slice hr
    have hround : Run.round Run.slice ⟨s, source, sink⟩ = .goesOn ⟨t, source, sink⟩ := by
      simp only [Run.round, hexec]
    simp only [Run.drive, hround]
    exact ih ht

/-- The program that echoes a character completes nothing in its first round, so it does in the
second; the one that jumps to itself never returns, and completes as much as one likes. -/
theorem run_progress_of_echo :
    (∃ (s t : Session) (r' r'' : Run Replies BoundedSink), s.Reachable ∧
      s.execute 9 = (some .input, t) ∧
      t.machine.cycles.toNat < s.machine.cycles.toNat + 9 ∧
      Run.round Run.slice ⟨s, ⟨[.ok (some "a")]⟩, {}⟩ = .goesOn r' ∧
      r'.session.machine.cycles = s.machine.cycles ∧ r'.round Run.slice = .goesOn r'' ∧
      r'.session.machine.cycles < r''.session.machine.cycles) ∧
    ∃ r : Run Silence BoundedSink, r.session.Reachable ∧ (∀ rounds, r.drive rounds = none) ∧
      1000 ≤ completions (r.trail 2000) ∧ ∃ rounds, 9000 ≤ completions (r.trail rounds) := by
  obtain ⟨hbudget, hruns⟩ := run_progress.{0, 0}
  refine ⟨?_, ?_⟩
  · obtain ⟨mem, s, hboot, hs, h₀, h₂, -⟩ := boot_echo
    have hreach : s.Reachable := hboot ▸ .boot _ _ _
    have hcycles : s.machine.cycles.toNat = 0 := by
      rw [hs]
      rfl
    have hwaits : s.machine.attempt = .waits (.input 32768) := by
      rw [hs, Machine.attempt_eq_waits_iff]
      exact ⟨h₀, rfl⟩
    obtain ⟨t, hexec, -⟩ := Session.execute_of_waits (by rw [hs]) hwaits (show 0 < 9 by decide)
    obtain ⟨d, hd, -, hspent⟩ := hbudget s 9 (by rw [hcycles]; decide)
    have hless := hspent (by rw [hs])
    rw [hexec] at hd hless
    obtain ⟨r', r'', hfirst, hsame, hsecond⟩ := rounds_echo h₀ h₂ hs
    obtain ⟨hone, -⟩ := @hruns Replies BoundedSink _ _
    refine ⟨s, t, r', r'', hreach, hexec, ?_, hfirst, hsame, hsecond, ?_⟩
    · rw [show t.machine.cycles.toNat = _ from hd]
      exact Nat.add_lt_add_left hless _
    · refine (hone _ r' r'' (by rw [hcycles]; decide) hfirst hsecond).resolve_left ?_
      rw [hsame]
      exact UInt64.lt_irrefl _
  · obtain ⟨mem, s, hboot, hs, -, hfetch⟩ :=
      Session.boot_of_le { threshold := .warn } spinImage .flat (by decide)
    have h₀ : mem.fetch 0 = .ok (.jump 0) := hfetch ⟨_, rfl⟩
    have hreach : s.Reachable := hboot ▸ .boot _ _ _
    have hnever (rounds : Nat) : Run.drive rounds ⟨s, ({} : Silence), ({} : BoundedSink)⟩ = none :=
      drive_spin h₀ rounds hs
    obtain ⟨-, hmany, hiff⟩ := @hruns Silence BoundedSink _ _
    exact ⟨_, hreach, hnever, hmany _ 1000 (hnever _), (hiff _).mp hnever 9000⟩

end Wordcode
