import Wordcode.Proofs.Host.Handshake
import Wordcode.Proofs.Host.Output
import Wordcode.Proofs.Host.Progress

/-! Where a failed run says it failed. A run fails at the last instruction it tried: the
instruction itself was at fault, it asked for a line that could not be read, or it printed a
character that could not be written. The first two stand where they were tried when the fault is
told. The third was completed before its character came to the sink, so the fault names the
instruction behind it, unless there is none. -/

namespace Wordcode

universe u v

/-! ## One instruction -/

namespace Machine

variable {m : Machine}

/-- An instruction that tells no fault leaves none behind. -/
theorem status_step_ne_faulted (hrun : m.status = .running)
    (h : ∀ f, m.step.event ≠ some (.fault f)) (f : Fault) :
    m.step.machine.status ≠ .faulted f := by
  have htrial := step_trial m
  generalize m.step.machine = after at htrial ⊢
  generalize m.step.event = event at htrial h
  cases htrial with
  | fault => exact absurd rfl (h _)
  | wait =>
    rw [hrun]
    exact Status.noConfusion
  | complete _ _ hfollow =>
    cases hfollow with
    | jump | next | print =>
      change m.status ≠ .faulted f
      rw [hrun]
      exact Status.noConfusion
    | halt | last | lastPrint => exact Status.noConfusion

/-- A printing instruction is left behind when its character is told, unless it is the last. -/
theorem pc_step_of_print {c : Char} (h : m.step.event = some (.print c)) :
    m.step.machine.pc = (m.nextAddress (m.pc + 2)).getD m.pc := by
  have htrial := step_trial m
  rw [h] at htrial
  generalize m.step.machine = after at htrial ⊢
  cases htrial with
  | complete _ hacts hfollow =>
    cases hfollow with
    | print hnext | lastPrint hnext =>
      cases hacts with
      | out =>
        have hbehind : m.nextAddress (m.pc + 2) = _ := hnext
        rw [hbehind]
        rfl

theorem nextAddress_getD_eq_iff :
    (m.nextAddress (m.pc + 2)).getD m.pc = m.pc ↔ m.nextAddress (m.pc + 2) = none := by
  cases hnext : m.nextAddress (m.pc + 2) with
  | none => simp
  | some a =>
    obtain ⟨hle, -⟩ := nextAddress_lt hnext
    simp only [Option.getD_some, reduceCtorEq, iff_false]
    omega

theorem Awaits.printing {dst : Word} (h : m.Awaits dst) : m.printing = false := by
  unfold Machine.printing
  split
  · rename_i src hcompleted
    obtain ⟨e, flow, hf, -⟩ := rules_of_completed hcompleted
    obtain ⟨hopcode, -⟩ := Memory.fetch_eq_ok_iff.mp hf
    cases hopcode.symm.trans h.opcode
  · rfl

theorem Bounded.printing_of_diagnosis {image : List Word} {f : Fault} (h : Bounded image m)
    (hf : m.diagnosis = some f) : m.printing = false := by
  rw [h.diagnosis_eq, Option.map_eq_some_iff] at hf
  obtain ⟨g, hg, -⟩ := hf
  rw [printing, completed?_of_fault hg]

end Machine

/-! ## The last instruction of a slice -/

namespace Session

variable {s u : Session} {budget : Nat}

/-- What a slice tells comes from the last instruction it tried. -/
theorem exists_last_of_execute {event : Event} (hrun : s.machine.status = .running)
    (h : s.execute budget = (some event, u)) :
    ∃ v : Session, v.machine.status = .running ∧
      (s.trail budget).getLast? = some v.machine ∧ v.step = (some event, u) := by
  rw [execute_of_running hrun] at h
  have htrail : s.trail budget = s.tries budget := by simp only [trail, hrun]
  rw [htrail]
  clear htrail
  induction budget generalizing s with
  | zero => cases h
  | succ budget ih =>
    simp only [spend] at h
    simp only [tries]
    cases hstep : s.step with
    | mk told v =>
      rw [hstep] at h
      cases told with
      | some told =>
        cases h
        exact ⟨s, hrun, rfl, hstep⟩
      | none =>
        obtain ⟨w, hw, hlast, hend⟩ := ih ((status_step hstep).trans hrun) h
        refine ⟨w, hw, ?_, hend⟩
        rw [List.getLast?_cons, hlast]
        rfl

/-- A slice ends with the first instruction that tells something. -/
theorem trail_of_event {event : Event} (hrun : s.machine.status = .running)
    (h : s.machine.step.event = some event) (hpos : 0 < budget) :
    s.trail budget = [s.machine] := by
  obtain ⟨budget, rfl⟩ := Nat.exists_eq_add_one.mpr hpos
  have hstep : s.step = (some event, s.step.2) := Prod.ext h rfl
  simp only [trail, hrun, tries]
  rw [hstep]

theorem status_execute_ne_faulted {event : Option Event} (hrun : s.machine.status = .running)
    (h : s.execute budget = (event, u)) (hevent : ∀ f, event ≠ some (.fault f)) (f : Fault) :
    u.machine.status ≠ .faulted f := by
  cases event with
  | none =>
    rw [execute_of_running hrun] at h
    rw [status_spend h, hrun]
    exact Status.noConfusion
  | some event =>
    obtain ⟨v, hv, -, hstep⟩ := exists_last_of_execute hrun h
    obtain ⟨htold, hmachine⟩ := step_machine hstep
    rw [← hmachine]
    exact Machine.status_step_ne_faulted hv (htold ▸ hevent) f

end Session

/-! ## The last instruction of a run -/

namespace Run

variable {σ : Type u} {κ : Type v} [LineSource σ] [Sink κ] {r r' t : Run σ κ}

/-- How a run fails that tried its last instruction on `m`, with what was left of its source and
its sink then, and the fault it fails with. -/
inductive FailsAt (source : σ) (sink : κ) (m : Machine) (t : Run σ κ) : Fault → Prop where
  /-- The character printed is refused. -/
  | output {c : Char} {e : StreamError} : m.Prints c → Sink.put sink c = (.error e, t.sink) →
      FailsAt source sink m t
        { kind := .io, pc := some ((m.nextAddress (m.pc + 2)).getD m.pc), detail := e.text }
  /-- The line asked for cannot be read. -/
  | input {dst : Word} {e : StreamError} : m.Awaits dst →
      LineSource.readLine source = (.error e, t.source) →
      FailsAt source sink m t { kind := .io, pc := some m.pc, detail := e.text }
  | instruction {f : Fault} : m.diagnosis = some f → FailsAt source sink m t f

/-- A round that goes on leaves no fault behind. -/
theorem status_ne_faulted_of_goesOn {budget : Nat} (h : r.round budget = .goesOn r') (f : Fault) :
    r'.session.machine.status ≠ .faulted f := by
  have hrun := running_of_goesOn h
  obtain ⟨s, source, sink⟩ := r
  simp only [round] at h
  split at h <;> rename_i hexec
  · cases h
    exact Session.status_execute_ne_faulted hrun hexec (by simp) f
  · have hstatus := Session.status_execute_ne_faulted hrun hexec (by simp) f
    split at h <;> cases h
    exact hstatus
  · have hstatus := Session.status_execute_ne_faulted hrun hexec (by simp) f
    split at h <;> cases h <;> exact hstatus
  · cases h
  · cases h

theorem trail_of_ends {result : Except Fault Unit} (h : r.round slice = .ends result t) (n : Nat) :
    r.trail (n + 1) = r.session.trail slice := by
  simp only [trail, h, List.append_nil]

/-- A round fails only on a machine that runs, or that had failed before. -/
theorem running_of_error {budget : Nat} {f : Fault} (h : r.round budget = .ends (.error f) t)
    (hfree : ∀ f, r.session.machine.status ≠ .faulted f) :
    r.session.machine.status = .running := by
  cases hstatus : r.session.machine.status with
  | running => rfl
  | halted =>
    have hended : r.session.machine.status = .ofResult (.ok ()) := hstatus
    cases (round_of_ended hended budget).1.symm.trans h
  | faulted g => exact absurd hstatus (hfree g)

/-- A run that fails has a last round, and still runs at the beginning of that. -/
theorem exists_last_round {n : Nat} {f : Fault}
    (hfree : ∀ f, r.session.machine.status ≠ .faulted f)
    (h : r.drive n = some (.error f, t)) :
    ∃ k < n, (r.after k).round slice = .ends (.error f) t ∧
      r.trail n = r.trail k ++ (r.after k).session.trail slice ∧
      (r.after k).session.machine.status = .running := by
  induction n generalizing r with
  | zero => cases h
  | succ n ih =>
    simp only [drive] at h
    cases hround : r.round slice with
    | goesOn next =>
      rw [hround] at h
      obtain ⟨k, hk, hlast, htrail, hrun⟩ := ih (status_ne_faulted_of_goesOn hround) h
      have hafter : r.after (k + 1) = next.after k := by simp only [after, hround]
      have htrails : r.trail (n + 1) = r.trail (k + 1) ++ (next.after k).session.trail slice := by
        simp only [trail, hround, htrail, List.append_assoc]
      rw [← hafter] at hlast htrails hrun
      exact ⟨k + 1, Nat.succ_lt_succ hk, hlast, htrails, hrun⟩
    | ends final last =>
      rw [hround] at h
      cases h
      exact ⟨0, Nat.succ_pos n, hround, trail_of_ends hround n, running_of_error hround hfree⟩

/-- The three ways in which a round fails. -/
theorem round_error_cases {budget : Nat} {f : Fault} (h : r.round budget = .ends (.error f) t) :
    (∃ c e u, r.session.execute budget = (some (.print c), u) ∧
      Sink.put r.sink c = (.error e, t.sink) ∧ f = (Fault.ofStream e).located u.machine.pc) ∨
    (∃ e u, r.session.execute budget = (some .input, u) ∧
      LineSource.readLine r.source = (.error e, t.source) ∧
      f = (Fault.ofStream e).located u.machine.pc) ∨
    ∃ u, r.session.execute budget = (some (.fault f), u) := by
  obtain ⟨s, source, sink⟩ := r
  simp only [round] at h
  split at h <;> rename_i hexec
  · cases h
  · split at h <;> rename_i hput <;> cases h
    exact .inl ⟨_, _, _, hexec, hput, rfl⟩
  · split at h <;> rename_i hread <;> cases h
    exact .inr (.inl ⟨_, _, hexec, hread, rfl⟩)
  · cases h
  · cases h
    exact .inr (.inr ⟨_, hexec⟩)

/-- A round that fails does so at the last instruction of its slice. -/
theorem failsAt_of_round {image : List Word} {budget : Nat} {f : Fault}
    (hb : r.session.machine.Bounded image) (hrun : r.session.machine.status = .running)
    (h : r.round budget = .ends (.error f) t) :
    ∃ m, (r.session.trail budget).getLast? = some m ∧ m.Bounded image ∧
      FailsAt r.source r.sink m t f := by
  -- the machine on which the slice tried its last instruction, and what that instruction told
  have hlast {event : Event} {u : Session}
      (hexec : r.session.execute budget = (some event, u)) :
      ∃ m, (r.session.trail budget).getLast? = some m ∧ m.Bounded image ∧
        m.step.event = some event ∧ m.step.machine = u.machine := by
    obtain ⟨v, -, hlast, hstep⟩ := Session.exists_last_of_execute hrun hexec
    obtain ⟨-, hbounded⟩ := (Session.execute_moves budget r.session).bounded hb
    exact ⟨v.machine, hlast, hbounded _ (List.mem_of_getLast? hlast), Session.step_machine hstep⟩
  rcases round_error_cases h with
    ⟨c, e, u, hexec, hput, rfl⟩ | ⟨e, u, hexec, hread, rfl⟩ | ⟨u, hexec⟩
  · obtain ⟨m, hm, hmb, hevent, hmachine⟩ := hlast hexec
    have hchar : m.output? = some c := by
      rw [Machine.output?_eq, hevent]
      rfl
    rw [← hmachine, Machine.pc_step_of_print hevent]
    exact ⟨m, hm, hmb, .output (hmb.prints hchar) hput⟩
  · obtain ⟨m, hm, hmb, hevent, hmachine⟩ := hlast hexec
    obtain ⟨⟨i, hwaits⟩, hsame⟩ := Machine.waits_of_event hevent
    obtain ⟨dst, -, hawaits⟩ := Machine.awaits_of_waits hwaits
    rw [← hmachine, hsame]
    exact ⟨m, hm, hmb, .input hawaits hread⟩
  · obtain ⟨m, hm, hmb, hevent, -⟩ := hlast hexec
    refine ⟨m, hm, hmb, .instruction ?_⟩
    rw [hmb.diagnosis_eq]
    exact Machine.event_eq_fault_iff.mp hevent

/-- The place named is that of the last instruction, unless that printed and another one follows. -/
theorem FailsAt.pc_eq_iff {image : List Word} {source : σ} {sink : κ} {m : Machine} {f : Fault}
    (h : FailsAt source sink m t f) (hb : m.Bounded image) :
    f.pc = some m.pc ↔ (m.printing = true → m.nextAddress (m.pc + 2) = none) := by
  cases h with
  | output hprints =>
    obtain ⟨src, w, hcompleted, -⟩ := hprints
    have hprinting : m.printing = true := by simp only [Machine.printing, hcompleted]
    rw [Option.some_inj, Machine.nextAddress_getD_eq_iff, hprinting]
    exact ⟨fun hnone _ => hnone, fun hnone => hnone rfl⟩
  | input hawaits =>
    rw [hawaits.printing]
    simp
  | instruction hdiagnosis =>
    rw [hb.printing_of_diagnosis hdiagnosis, Machine.pc_of_diagnosis hdiagnosis]
    simp

end Run

/-- **A failed run names the place of its last instruction, except for output.** The last
instruction a run tried before it failed was at fault itself, asked for a line that could not be
read or printed a character that could not be written. The fault names its address, unless it
printed and there is an instruction behind it: then it names that one. -/
theorem run_fault_located {σ : Type u} {κ : Type v} [LineSource σ] [Sink κ] {r t : Run σ κ}
    {n : Nat} {f : Fault} (hreach : r.session.Reachable)
    (hrun : r.session.machine.status = .running) (hd : r.drive n = some (.error f, t)) :
    ∃ k < n, ∃ m, (r.trail n).getLast? = some m ∧
      Run.FailsAt (r.after k).source (r.after k).sink m t f ∧
      (f.pc = some m.pc ↔ (m.printing = true → m.nextAddress (m.pc + 2) = none)) := by
  obtain ⟨image, hb⟩ := hreach.bounded
  have hfree (g : Fault) : r.session.machine.status ≠ .faulted g := by
    rw [hrun]
    exact Status.noConfusion
  obtain ⟨k, hk, hround, htrail, hrun'⟩ := Run.exists_last_round hfree hd
  obtain ⟨hb', -⟩ := (Run.trail_moves k r).bounded hb
  obtain ⟨m, hlast, hmb, hfails⟩ := Run.failsAt_of_round hb' hrun' hround
  refine ⟨k, hk, m, ?_, hfails, hfails.pc_eq_iff hmb⟩
  rw [htrail, List.getLast?_append, hlast]
  rfl

/-- A line that cannot be read breaks the run off where it waits. -/
theorem Run.round_of_unreadable {σ : Type u} {κ : Type v} [LineSource σ] [Sink κ] {s : Session}
    {source source' : σ} (sink : κ) {i : Instr} {e : StreamError}
    (hrun : s.machine.status = .running) (hwaits : s.machine.attempt = .waits i)
    (hread : LineSource.readLine source = (.error e, source')) {budget : Nat} (hpos : 0 < budget) :
    ∃ u : Session, u.machine = s.machine ∧
      Run.round budget ⟨s, source, sink⟩ = breaks u source' sink e := by
  obtain ⟨u, hexec, hsame⟩ := Session.execute_of_waits hrun hwaits hpos
  exact ⟨u, hsame, by simp only [round, hexec, hread]⟩

/-- The program that echoes a character gets no line to read, and the fault names the instruction
that asked for it. -/
theorem run_fault_located_of_unreadable_line :
    ∃ (s : Session) (f : Fault) (t : Run Replies BoundedSink) (m : Machine),
      s.Reachable ∧ s.machine.status = .running ∧
      Run.drive 1 ⟨s, ⟨[.error .invalidUtf8]⟩, {}⟩ = some (.error f, t) ∧
      (Run.trail 1 ⟨s, (⟨[.error .invalidUtf8]⟩ : Replies), ({} : BoundedSink)⟩).getLast? =
        some m ∧
      m.Awaits 32768 ∧ f.kind = .io ∧ f.pc = some m.pc := by
  obtain ⟨mem, s, hboot, hs, h₀, -, -⟩ := boot_echo
  have hreach : s.Reachable := hboot ▸ .boot _ _ _
  have hrun : s.machine.status = .running := by rw [hs]
  have hwaits : s.machine.attempt = .waits (.input 32768) := by
    rw [hs, Machine.attempt_eq_waits_iff]
    exact ⟨h₀, rfl⟩
  obtain ⟨dst, hdst, hawaits⟩ := Machine.awaits_of_waits hwaits
  cases hdst
  have hpos : 0 < Run.slice := by decide
  have hread : LineSource.readLine (⟨[.error .invalidUtf8]⟩ : Replies) =
      (.error .invalidUtf8, ⟨[]⟩) := rfl
  obtain ⟨u, -, hround⟩ := Run.round_of_unreadable ({} : BoundedSink) hrun hwaits hread hpos
  have hd := Run.drive_of_ends hround 0
  have htrail := Run.trail_of_ends hround 0
  rw [Session.trail_of_event hrun (Machine.event_of_waits hwaits) hpos] at htrail
  obtain ⟨k, -, m, hlast, -, hplace⟩ := run_fault_located hreach hrun hd
  have hm : some s.machine = some m := by
    rw [← hlast, htrail]
    rfl
  cases hm
  refine ⟨s, _, _, s.machine, hreach, hrun, hd, hlast, hawaits, rfl, hplace.mpr ?_⟩
  rw [hawaits.printing]
  simp

/-- A printed character that is refused: the instruction that printed it stands at 0, but the fault
names the one behind it. -/
theorem output_fault_behind_its_instruction :
    ∃ (s : Session) (m : Machine) (t : Run Silence BoundedSink),
      Session.boot { threshold := .warn } outImage .flat = s ∧ s.machine.status = .running ∧
      Run.drive 1 ⟨s, {}, { capacity := some 0 }⟩ =
        some (.error { kind := .io, pc := some 2, detail := "closed" }, t) ∧
      (Run.trail 1 ⟨s, ({} : Silence), ({ capacity := some 0 } : BoundedSink)⟩).getLast? =
        some m ∧
      m.pc = 0 ∧ m.completed? = some (.out 65) ∧ m.output? = some 'A' ∧
      Sink.put ({ capacity := some 0 } : BoundedSink) 'A' =
        (.error (.other "closed"), t.sink) := by
  obtain ⟨mem, s, hboot, hs, -, hfetch⟩ :=
    Session.boot_of_le { threshold := .warn } outImage .flat (by decide)
  have hf : mem.fetch 0 = .ok (.out 65) := hfetch ⟨_, rfl⟩
  have hrun : s.machine.status = .running := by rw [hs]
  have hpc : s.machine.pc = 0 := by rw [hs]
  have hattempt : s.machine.attempt = .completes (.out 65) {} (.print 'A') := by
    rw [hs, Machine.attempt_eq_completes_iff]
    exact ⟨hf, .out (Machine.value_eq_ok_iff.mpr ⟨by decide, rfl⟩)⟩
  have hevent : s.machine.step.event = some (.print 'A') :=
    (Machine.step_follows hattempt).event_of_print
  have hbehind : s.step.2.machine.pc = 2 := by
    have hnext := Machine.pc_step_of_print hevent
    have htwo : s.machine.nextAddress 2 = some 2 := by
      rw [hs, Machine.nextAddress]
      exact if_pos (show 2 < memorySize by decide)
    rw [hpc, htwo] at hnext
    exact hnext
  have hpos : 0 < Run.slice := by decide
  have hround := Run.round_of_refused ({} : Silence) hrun hevent put_full hpos
  have hd := Run.drive_of_ends hround 0
  have htrail := Run.trail_of_ends hround 0
  rw [Session.trail_of_event hrun hevent hpos] at htrail
  rw [hbehind] at hd
  refine ⟨s, s.machine, _, hboot, hrun, hd, ?_, hpc, ?_, ?_, put_full⟩
  · rw [htrail]
    rfl
  · exact Machine.completed?_eq_some_iff.mpr ⟨_, _, hattempt⟩
  · simp only [Machine.output?, hattempt]

end Wordcode
