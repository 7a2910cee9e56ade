import Wordcode.Proofs.Host.Calls
import Wordcode.Proofs.Host.Faults

/-! Endings are final. A session ends by halting or by a fault, be it the machine's own, one of a
source or a sink, or that of an image that was refused; what ends it is its result. From then on
every call of the host is answered with that result and touches nothing but the queue of
characters. Between two slices of a run a machine that has halted may still be made to fault by the
sink that refuses its last character, so a result counts once the run has returned it. -/

namespace Wordcode

universe u v

/-! ## Results -/

/-- The status of a machine that has ended with this result. -/
def Status.ofResult : Except Fault Unit → Status
  | .ok _ => .halted
  | .error f => .faulted f

/-- The event that tells this result. -/
def Event.ofResult : Except Fault Unit → Event
  | .ok _ => .halted
  | .error f => .fault f

namespace Machine

variable {m : Machine} {result : Except Fault Unit}

theorem finished_iff : m.finished = true ↔ ∃ result, m.status = .ofResult result := by
  unfold finished
  cases m.status with
  | running =>
    refine ⟨?_, ?_⟩
    · intro h
      cases h
    · rintro ⟨_ | _, h⟩ <;> cases h
  | halted => exact ⟨fun _ => ⟨.ok (), rfl⟩, fun _ => rfl⟩
  | faulted f => exact ⟨fun _ => ⟨.error f, rfl⟩, fun _ => rfl⟩

/-- The instruction that tells a result has brought it about. -/
theorem status_step_of_event (h : m.step.event = some (.ofResult result)) :
    m.step.machine.status = .ofResult result := by
  cases result with
  | error f => rw [machine_step_of_fault h, Status.ofResult]
  | ok =>
    have ht := step_trial m
    rw [h] at ht
    generalize m.step.machine = after at ht ⊢
    cases ht with
    | complete _ _ hfollow => cases hfollow <;> rfl

/-- An image that is too large is refused from the start. -/
theorem finished_boot (image : List Word) (advance : Advance) :
    (boot image advance).finished = decide (memorySize < image.length) := by
  unfold finished boot
  by_cases h : memorySize < image.length <;> simp [h]

end Machine

namespace Session

variable {s t : Session} {result : Except Fault Unit}

theorem status_of_execute {budget : Nat} (h : s.execute budget = (some (.ofResult result), t)) :
    t.machine.status = .ofResult result := by
  unfold execute at h
  split at h
  · rename_i hstatus
    cases result <;> cases h
    exact hstatus
  · rename_i hstatus
    cases result <;> cases h
    exact hstatus
  · obtain ⟨k, -, u, -, hstep⟩ := spend_of_event h
    obtain ⟨hevent, hmachine⟩ := step_machine hstep
    rw [← hmachine]
    exact Machine.status_step_of_event hevent

/-- A session that has ended repeats its result. -/
theorem execute_of_ended (h : s.machine.status = .ofResult result) (budget : Nat) :
    s.execute budget = (some (.ofResult result), s) := by
  unfold execute
  rw [h]
  cases result <;> rfl

end Session

namespace Run

variable {σ : Type u} {κ : Type v} {r t : Run σ κ} {result : Except Fault Unit}

/-- A stream that fails leaves its fault behind. -/
theorem status_of_breaks {s : Session} {source : σ} {sink : κ} {e : StreamError}
    (h : breaks s source sink e = .ends result t) :
    t.session.machine.status = .ofResult result := by
  cases h
  exact congrArg Status.faulted (Fault.located_located _ _ _)

variable [LineSource σ] [Sink κ]

/-- The result of a run is the one its session has ended with. -/
theorem status_of_round {slice : Nat} (h : r.round slice = .ends result t) :
    t.session.machine.status = .ofResult result := by
  obtain ⟨s, source, sink⟩ := r
  simp only [round] at h
  split at h
  · cases h
  · split at h
    · cases h
    · exact status_of_breaks h
  · split at h
    · cases h
    · cases h
    · exact status_of_breaks h
  · rename_i hexec
    cases h
    exact Session.status_of_execute hexec
  · rename_i hexec
    cases h
    exact Session.status_of_execute hexec

theorem status_of_drive {rounds : Nat} (h : r.drive rounds = some (result, t)) :
    t.session.machine.status = .ofResult result := by
  induction rounds generalizing r with
  | zero => cases h
  | succ rounds ih =>
    simp only [drive] at h
    split at h
    · exact ih h
    · rename_i hround
      cases h
      exact status_of_round hround

/-- A run of a session that has ended is over at once, with nothing read and nothing written. -/
theorem round_of_ended (h : r.session.machine.status = .ofResult result) (slice : Nat) :
    r.round slice = .ends result r ∧ r.asks slice = [] := by
  obtain ⟨s, source, sink⟩ := r
  simp only [round, asks, Session.execute_of_ended h slice]
  cases result <;> exact ⟨rfl, rfl⟩

theorem drive_of_ends (h : r.round slice = .ends result t) (rounds : Nat) :
    r.drive (rounds + 1) = some (result, t) := by
  simp only [drive, h]

theorem drive_of_ended (h : r.session.machine.status = .ofResult result) (rounds : Nat) :
    r.drive (rounds + 1) = some (result, r) :=
  drive_of_ends (round_of_ended h slice).1 rounds

theorem reads_of_ended (h : r.session.machine.status = .ofResult result) (rounds : Nat) :
    r.reads rounds = [] := by
  cases rounds with
  | zero => rfl
  | succ rounds =>
    obtain ⟨hround, hasks⟩ := round_of_ended h slice
    simp only [reads, hround, hasks, List.append_nil]

end Run

/-! ## Calls after the end -/

namespace Call

variable {c : Call} {s t : Session} {r : Report} {result : Except Fault Unit}

/-- How a session that has ended with this result answers a call. A run hands back its source and
its sink as it got them. -/
def lastAnswer (result : Except Fault Unit) : Call → Answer
  | execute _ => .event (some (.ofResult result))
  | enter _ | close => .done
  | run source sink => .ended result source sink

/-- Every call returns from a session that has ended. -/
theorem perform_of_ended (h : s.machine.status = .ofResult result) (c : Call) :
    ∃ r t, c.Performs s r t := by
  cases c with
  | execute budget => exact ⟨_, _, 0, rfl⟩
  | enter line => exact ⟨_, _, 0, rfl⟩
  | close => exact ⟨_, _, 0, rfl⟩
  | run source sink =>
    have hd : Run.drive 1 ⟨s, source, sink⟩ = _ := Run.drive_of_ended h 0
    exact ⟨_, _, 1, congrArg (Option.map _) hd⟩

theorem Performs.of_ended (hc : c.Performs s r t) (h : s.machine.status = .ofResult result) :
    t.machine = { s.machine with input := t.machine.input } ∧ r.answer = c.lastAnswer result := by
  obtain ⟨rounds, hc⟩ := hc
  cases c with
  | execute budget =>
    cases hc
    rw [Session.execute_of_ended h]
    exact ⟨rfl, rfl⟩
  | enter line | close =>
    cases hc
    exact ⟨rfl, rfl⟩
  | run source sink =>
    obtain ⟨answer, hd, hr⟩ := Option.map_eq_some_iff.mp hc
    cases Run.drive_unique hd (Run.drive_of_ended h 0)
    cases hr
    exact ⟨rfl, rfl⟩

end Call

theorem exists_plays_of_ended {s : Session} {result : Except Fault Unit}
    (h : s.machine.status = .ofResult result) (calls : List Call) :
    ∃ reports t, Plays s calls reports t := by
  induction calls generalizing s with
  | nil => exact ⟨[], s, .nil s⟩
  | cons c calls ih =>
    obtain ⟨r, t, hc⟩ := c.perform_of_ended h
    obtain ⟨hmachine, -⟩ := hc.of_ended h
    have ht : t.machine.status = .ofResult result := by
      rw [hmachine]
      exact h
    obtain ⟨reports, u, hplays⟩ := ih ht
    exact ⟨r :: reports, u, .cons hc hplays⟩

theorem Plays.of_ended {s t : Session} {calls : List Call} {reports : List Report}
    {result : Except Fault Unit} (hplays : Plays s calls reports t)
    (h : s.machine.status = .ofResult result) :
    t.machine = { s.machine with input := t.machine.input } ∧
      reports.map (·.answer) = calls.map (Call.lastAnswer result) := by
  induction hplays with
  | nil => exact ⟨rfl, rfl⟩
  | @cons s t u c r cs rs hc _ ih =>
    obtain ⟨hmachine, hanswer⟩ := hc.of_ended h
    have ht : t.machine.status = .ofResult result := by
      rw [hmachine]
      exact h
    obtain ⟨hlater, hanswers⟩ := ih ht
    refine ⟨?_, ?_⟩
    · rw [hlater, hmachine]
    · rw [List.map_cons, List.map_cons, hanswer, hanswers]

/-- **An ending is final.** A slice that tells a result, a run that returns one and a finished
machine have ended with a result, an oversized image from the start. Any calls that follow return;
they leave all but the input as it is, they are all answered with that very result, and a run
among them hands back its source and its sink untouched. -/
theorem terminal_states_absorbing :
    (∀ (s t : Session) (n : Nat) (result : Except Fault Unit),
      s.execute n = (some (.ofResult result), t) → t.machine.status = .ofResult result) ∧
    (∀ {σ : Type u} {κ : Type v} [LineSource σ] [Sink κ] (r t : Run σ κ) (n : Nat)
      (result : Except Fault Unit), r.drive n = some (result, t) →
      t.session.machine.status = .ofResult result) ∧
    (∀ s : Session, s.machine.finished = true ↔ ∃ result, s.machine.status = .ofResult result) ∧
    (∀ (journal : Journal) (image : List Word) (advance : Advance),
      (Session.boot journal image advance).machine.finished =
        decide (memorySize < image.length)) ∧
    ∀ (s : Session) (result : Except Fault Unit) (calls : List Call),
      s.machine.status = .ofResult result →
      (∃ reports t, Plays s calls reports t) ∧
      ∀ reports t, Plays s calls reports t →
        t.machine = { s.machine with input := t.machine.input } ∧
        reports.map (·.answer) = calls.map (Call.lastAnswer result) ∧
        ∀ (σ κ : Type) [LineSource σ] [Sink κ] (source : σ) (sink : κ) (rounds : Nat),
          Run.reads rounds ⟨t, source, sink⟩ = [] ∧
          Run.drive (rounds + 1) ⟨t, source, sink⟩ = some (result, ⟨t, source, sink⟩) := by
  refine ⟨?_, ?_, ?_, ?_, ?_⟩
  · intro s t n result h
    exact Session.status_of_execute h
  · intro σ κ _ _ r t n result h
    exact Run.status_of_drive h
  · intro s
    exact Machine.finished_iff
  · intro journal image advance
    exact Machine.finished_boot image advance
  · intro s result calls h
    refine ⟨exists_plays_of_ended h calls, ?_⟩
    intro reports t hplays
    obtain ⟨hmachine, hanswers⟩ := hplays.of_ended h
    have ht : t.machine.status = .ofResult result := by
      rw [hmachine]
      exact h
    refine ⟨hmachine, hanswers, ?_⟩
    intro σ κ _ _ source sink rounds
    have hr : (Run.mk t source sink).session.machine.status = .ofResult result := ht
    exact ⟨Run.reads_of_ended hr rounds, Run.drive_of_ended hr rounds⟩

/-- A sink that refuses a character breaks the run off. -/
theorem Run.round_of_refused {σ : Type u} {κ : Type v} [LineSource σ] [Sink κ] {s : Session}
    (source : σ) {sink sink' : κ} {c : Char} {e : StreamError}
    (hrun : s.machine.status = .running) (hevent : s.machine.step.event = some (.print c))
    (hput : Sink.put sink c = (.error e, sink')) {budget : Nat} (hpos : 0 < budget) :
    Run.round budget ⟨s, source, sink⟩ = breaks s.step.2 source sink' e := by
  obtain ⟨budget, rfl⟩ := Nat.exists_eq_add_one.mpr hpos
  simp only [round, Session.execute_of_event hrun hevent, hput]

/-- Prints an `A`. -/
def outImage : List Word := [19, 65]

theorem put_full :
    Sink.put ({ capacity := some 0 } : BoundedSink) 'A' =
      (.error (.other "closed"), { capacity := some 0 }) := by
  have hbytes : String.utf8EncodeChar 'A' = [65] := by decide
  simp [Sink.put, hbytes, Sink.writeAll, Sink.write, BoundedSink.write, BoundedSink.room]

/-- A sink that takes nothing ends the run, and its failure is what all later calls tell. -/
theorem terminal_states_absorbing_of_full_sink :
    ∃ (s : Session) (f : Fault) (t : Run Silence BoundedSink) (reports : List Report) (u : Session),
      s.Reachable ∧ Run.drive 1 ⟨s, {}, { capacity := some 0 }⟩ = some (.error f, t) ∧
      f.kind = .io ∧ t.session.machine.finished = true ∧
      Plays t.session [.enter "x", .execute 0, .run ({} : Silence) ({} : BoundedSink)] reports u ∧
      u.machine.pc = t.session.machine.pc ∧
      reports.map (·.answer) = [.done, .event (some (.fault f)),
        .ended (.error f) ({} : Silence) ({} : BoundedSink)] := by
  obtain ⟨-, hdrive, hfinished, -, hlater⟩ := terminal_states_absorbing.{0, 0}
  obtain ⟨mem, s, hboot, hs, -, hfetch⟩ :=
    Session.boot_of_le { threshold := .warn } outImage .flat (by decide)
  have hreach : s.Reachable := hboot ▸ .boot _ _ _
  have hevent : s.machine.step.event = some (.print (charOfWord 65)) := by
    rw [hs]
    exact Machine.event_step_of_out (hfetch ⟨_, rfl⟩)
      (Machine.value_eq_ok_iff.mpr ⟨by decide, rfl⟩)
  have hput : Sink.put ({ capacity := some 0 } : BoundedSink) (charOfWord 65) = _ := put_full
  have hd : ∃ f t, Run.drive 1 ⟨s, ({} : Silence), ({ capacity := some 0 } : BoundedSink)⟩ =
      some (.error f, t) ∧ f.kind = .io := by
    have hround := Run.round_of_refused ({} : Silence) (by rw [hs]) hevent hput
      (show 0 < Run.slice by decide)
    exact ⟨_, _, Run.drive_of_ends hround 0, rfl⟩
  obtain ⟨f, t, hd, hkind⟩ := hd
  have hstatus : t.session.machine.status = .ofResult (.error f) := hdrive _ t 1 _ hd
  obtain ⟨⟨reports, u, hplays⟩, hsame⟩ := hlater t.session (.error f)
    [.enter "x", .execute 0, .run ({} : Silence) ({} : BoundedSink)] hstatus
  obtain ⟨hmachine, hanswers, -⟩ := hsame reports u hplays
  refine ⟨s, f, t, reports, u, hreach, hd, hkind, (hfinished _).mpr ⟨_, hstatus⟩, hplays, ?_,
    hanswers⟩
  rw [hmachine]

end Wordcode
