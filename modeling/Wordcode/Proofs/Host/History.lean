import Wordcode.Host.Reachable
import Wordcode.Proofs.Machine.Encoding

/-! Sessions with their past. The trail of a call of the host is the list of machines on
which an instruction was tried, in the order of the tries; a history is a sequence of calls
with their trails put together, so it shows which instructions were completed and when.

Every call is made of moves: one instruction tried, one line entered, the input closed, or
the session ended by a stream. What every move keeps therefore holds in every history, and
of every reachable session. -/

namespace Wordcode

/-- The instruction that is completed when it is tried on this machine, if it is. -/
def Machine.completed? (m : Machine) : Option Instr :=
  match m.attempt with
  | .completes i _ _ => some i
  | _ => none

namespace Session

/-! ## Trails -/

/-- The machines on which instructions are tried while a budget is spent. -/
def tries : (budget : Nat) → Session → List Machine
  | 0, _ => []
  | budget + 1, s =>
    match s.step with
    | (some _, _) => [s.machine]
    | (none, t) => s.machine :: tries budget t

/-- The machines on which instructions are tried by one call of `execute`. -/
def trail (budget : Nat) (s : Session) : List Machine :=
  match s.machine.status with
  | .running => s.tries budget
  | _ => []

end Session

universe u v

/-- The run that a round leads to, whether or not it goes on. -/
def Round.run {σ : Type u} {κ : Type v} : Round σ κ → Run σ κ
  | .goesOn r => r
  | .ends _ r => r

/-- The machines on which instructions are tried by so many rounds. -/
def Run.trail {σ : Type u} {κ : Type v} [LineSource σ] [Sink κ] :
    (rounds : Nat) → Run σ κ → List Machine
  | 0, _ => []
  | rounds + 1, r =>
    r.session.trail slice ++
      match r.round slice with
      | .goesOn r => r.trail rounds
      | .ends _ _ => []

namespace Session

/-- The sessions a host can bring about from an image, each with the machines on which an
instruction was tried on the way. -/
inductive History (image : List Word) (advance : Advance) : List Machine → Session → Prop where
  | boot (threshold : Level) :
      History image advance [] (boot { threshold := threshold } image advance)
  | execute {past : List Machine} {s : Session} (budget : Nat) : History image advance past s →
      History image advance (past ++ s.trail budget) (s.execute budget).2
  | enter {past : List Machine} {s : Session} (line : String) : History image advance past s →
      History image advance past (s.enter line)
  | close {past : List Machine} {s : Session} : History image advance past s →
      History image advance past s.close
  | run {σ κ : Type} [LineSource σ] [Sink κ] {past : List Machine} {rounds : Nat} {r t : Run σ κ}
      {result : Except Fault Unit} : History image advance past r.session →
      r.drive rounds = some (result, t) →
      History image advance (past ++ r.trail rounds) t.session

/-- The reachable sessions are the ones with a history. -/
theorem reachable_iff_exists_history {s : Session} :
    Reachable s ↔ ∃ image advance past, History image advance past s := by
  constructor
  · intro h
    induction h with
    | boot threshold image advance => exact ⟨image, advance, [], .boot threshold⟩
    | execute budget _ ih =>
      obtain ⟨image, advance, past, h⟩ := ih
      exact ⟨image, advance, _, h.execute budget⟩
    | enter line _ ih =>
      obtain ⟨image, advance, past, h⟩ := ih
      exact ⟨image, advance, past, h.enter line⟩
    | close _ ih =>
      obtain ⟨image, advance, past, h⟩ := ih
      exact ⟨image, advance, past, h.close⟩
    | run _ hd ih =>
      obtain ⟨image, advance, past, h⟩ := ih
      exact ⟨image, advance, _, h.run hd⟩
  · intro h
    obtain ⟨image, advance, past, h⟩ := h
    induction h with
    | boot threshold => exact .boot threshold image advance
    | execute budget _ ih => exact .execute budget ih
    | enter line _ ih => exact .enter line ih
    | close _ ih => exact .close ih
    | run _ hd ih => exact .run ih hd

/-! ## The beginning -/

/-- An image that fits is about to run. Its words stand in memory with padding behind them, and so
each instruction written in it is fetched where it stands. -/
theorem boot_of_le (journal : Journal) (image : List Word) (advance : Advance)
    (hfits : image.length ≤ memorySize) :
    ∃ mem s, boot journal image advance = s ∧ s.machine = { memory := mem, advance } ∧
      (∀ a : Address, mem.get a = image.getD a Opcode.noop.code) ∧
      ∀ {start : Nat} {i : Instr}, i.words <+: image.drop start → mem.fetch start = .ok i := by
  refine ⟨.ofImage image, _, rfl, Machine.boot_of_le hfits advance, Memory.get_ofImage image, ?_⟩
  intro start i hi
  have hlen := hi.length_le
  have hpos := i.size_pos
  rw [i.length_words, List.length_drop] at hlen
  exact Memory.fetch_ofImage hi (by omega)

/-- Nothing but its size is noted of an image that fits. -/
theorem journal_boot_of_le (journal : Journal) {image : List Word} (advance : Advance)
    (hfits : image.length ≤ memorySize) :
    (boot journal image advance).journal = journal.note (.loaded image.length advance) := by
  unfold boot
  rw [Machine.boot_of_le hfits]
  rfl

/-! ## Moves -/

/-- The smallest things that happen to a session, each with the machine on which an
instruction is tried, if one is. -/
inductive Move : Session → List Machine → Session → Prop where
  | step {s : Session} : s.machine.status = .running → Move s [s.machine] s.step.2
  | enter (s : Session) (line : String) : Move s [] (s.enter line)
  | close (s : Session) : Move s [] s.close
  | broken (s : Session) (e : StreamError) :
      Move s [] (s.fail ((Fault.ofStream e).located s.machine.pc))

inductive Moves : Session → List Machine → Session → Prop where
  | refl (s : Session) : Moves s [] s
  | tail {s t u : Session} {past now : List Machine} :
      Moves s past t → Move t now u → Moves s (past ++ now) u

theorem Move.moves {s t : Session} {now : List Machine} (h : Move s now t) : Moves s now t :=
  .tail (.refl s) h

/-- A move that tries no instruction leaves the trail as it is. -/
theorem Moves.quiet {s t u : Session} {past : List Machine} (h : Moves s past t)
    (h' : Move t [] u) : Moves s past u := by
  simpa using h.tail h'

theorem Moves.trans {s t u : Session} {past now : List Machine} (h : Moves s past t)
    (h' : Moves t now u) : Moves s (past ++ now) u := by
  induction h' with
  | refl => rwa [List.append_nil]
  | tail _ hm ih =>
    rw [← List.append_assoc]
    exact ih.tail hm

/-- A step of the session is a step of its machine. -/
theorem step_machine {s t : Session} {event : Option Event} (h : s.step = (event, t)) :
    s.machine.step.event = event ∧ s.machine.step.machine = t.machine :=
  ⟨congrArg Prod.fst h, congrArg (·.2.machine) h⟩

theorem status_step {s t : Session} (h : s.step = (none, t)) :
    t.machine.status = s.machine.status := by
  obtain ⟨he, ht⟩ := step_machine h
  rw [← ht]
  exact Machine.status_step_of_none he

theorem execute_of_running {s : Session} (h : s.machine.status = .running) (budget : Nat) :
    s.execute budget = s.spend budget := by
  simp only [execute, h]

/-- A running session executed for one instruction is stepped. -/
theorem execute_one {s : Session} (hrun : s.machine.status = .running) :
    s.execute 1 = s.step := by
  rw [execute_of_running hrun]
  simp only [spend]
  split <;> rename_i hstep <;> exact hstep.symm

theorem event_execute_one {s : Session} (hrun : s.machine.status = .running) :
    (s.execute 1).1 = s.machine.step.event :=
  congrArg Prod.fst (execute_one hrun)

theorem machine_execute_one {s : Session} (hrun : s.machine.status = .running) :
    (s.execute 1).2.machine = s.machine.step.machine :=
  congrArg (·.2.machine) (execute_one hrun)

theorem spend_moves (budget : Nat) {s : Session} (hrun : s.machine.status = .running) :
    Moves s (s.tries budget) (s.spend budget).2 := by
  induction budget generalizing s with
  | zero => exact .refl s
  | succ budget ih =>
    have hstep := (Move.step hrun).moves
    cases h : s.step with
    | mk event t =>
      rw [h] at hstep
      cases event with
      | some event =>
        simp only [spend, tries, h]
        exact hstep
      | none =>
        simp only [spend, tries, h]
        exact hstep.trans (ih ((status_step h).trans hrun))

theorem execute_moves (budget : Nat) (s : Session) :
    Moves s (s.trail budget) (s.execute budget).2 := by
  cases hstatus : s.machine.status with
  | halted | faulted f =>
    simp only [execute, trail, hstatus]
    exact .refl s
  | running =>
    rw [execute_of_running hstatus]
    simp only [trail, hstatus]
    exact spend_moves budget hstatus

theorem round_moves {σ : Type u} {κ : Type v} [LineSource σ] [Sink κ] (slice : Nat)
    (r : Run σ κ) : Moves r.session (r.session.trail slice) (r.round slice).run.session := by
  obtain ⟨s, source, sink⟩ := r
  have h := execute_moves slice s
  simp only [Run.round]
  split <;> rename_i he <;> rw [he] at h
  · exact h
  · split
    · exact h
    · exact h.quiet (.broken _ _)
  · split
    · exact h.quiet (.enter _ _)
    · exact h.quiet (.close _)
    · exact h.quiet (.broken _ _)
  · exact h
  · exact h

theorem drive_moves {σ : Type u} {κ : Type v} [LineSource σ] [Sink κ] {rounds : Nat}
    {r t : Run σ κ} {result : Except Fault Unit} (h : r.drive rounds = some (result, t)) :
    Moves r.session (r.trail rounds) t.session := by
  induction rounds generalizing r with
  | zero => cases h
  | succ rounds ih =>
    have hround := round_moves Run.slice r
    simp only [Run.drive] at h
    simp only [Run.trail]
    cases hd : r.round Run.slice with
    | goesOn next =>
      rw [hd] at h hround
      exact hround.trans (ih h)
    | ends final last =>
      rw [hd] at h hround
      cases h
      rw [List.append_nil]
      exact hround

/-- A history is made of moves. -/
theorem History.moves {image : List Word} {advance : Advance} {past : List Machine}
    {s : Session} (h : History image advance past s) :
    ∃ threshold, Moves (Session.boot { threshold := threshold } image advance) past s := by
  induction h with
  | boot threshold => exact ⟨threshold, .refl _⟩
  | execute budget _ ih =>
    obtain ⟨threshold, ih⟩ := ih
    exact ⟨threshold, ih.trans (execute_moves budget _)⟩
  | enter line _ ih =>
    obtain ⟨threshold, ih⟩ := ih
    exact ⟨threshold, ih.quiet (.enter _ line)⟩
  | close _ ih =>
    obtain ⟨threshold, ih⟩ := ih
    exact ⟨threshold, ih.quiet (.close _)⟩
  | run _ hd ih =>
    obtain ⟨threshold, ih⟩ := ih
    exact ⟨threshold, ih.trans (drive_moves hd)⟩

end Session

end Wordcode
