import Wordcode.Proofs.Host.Delivery
import Wordcode.Proofs.Host.Endings

/-! What a run writes. The characters a run has for its sink are those of the printing instructions
it executes, one each and in order, and the sink has no other say in the run than to refuse one
of them. So a run with any sink is the run with a sink that never fails, up to the first character
that is refused; there it ends with a fault. -/

namespace Wordcode

universe u v w

/-! ## One instruction -/

/-- The character in an event that tells to print one. -/
def Event.char? : Event → Option Char
  | .print c => some c
  | _ => none

namespace Machine

variable {m : Machine} {image : List Word}

/-- The character that the instruction tried on this machine prints, if it prints one. -/
def output? (m : Machine) : Option Char :=
  match m.attempt with
  | .completes _ _ (.print c) => some c
  | _ => none

/-- Whether an instruction that prints is completed on this machine. -/
def printing (m : Machine) : Bool :=
  match m.completed? with
  | some (.out _) => true
  | _ => false

/-- The instruction completed on this machine prints its operand's value, as the character with
that code point. -/
def Prints (m : Machine) (c : Char) : Prop :=
  ∃ src w, m.completed? = some (.out src) ∧ m.value src = .ok w ∧ c.toNat = w.toNat

/-- A character is told by the step that prints it. -/
theorem output?_eq (m : Machine) : m.output? = m.step.event.bind Event.char? := by
  unfold output?
  cases h : m.attempt with
  | unfetched f | refused i f | waits i => simp [step, h, abort, Turn.after, Event.char?]
  | completes i e flow =>
    have hfollow := step_follows h
    generalize m.step.machine = after at hfollow
    generalize m.step.event = event at hfollow ⊢
    cases hfollow <;> rfl

theorem printing_iff : m.printing = true ↔ ∃ c, m.output? = some c := by
  unfold printing completed? output?
  cases h : m.attempt with
  | unfetched f | refused i f | waits i => simp
  | completes i e flow =>
    obtain ⟨-, hacts⟩ := attempt_eq_completes_iff.mp h
    cases hacts <;> simp

/-- On a machine within its bounds the character printed is the one with the value's code point. -/
theorem Bounded.prints (h : Bounded image m) {c : Char} (hc : m.output? = some c) :
    m.Prints c := by
  unfold output? at hc
  cases hattempt : m.attempt with
  | unfetched f | refused i f | waits i =>
    rw [hattempt] at hc
    cases hc
  | completes i e flow =>
    obtain ⟨-, hacts⟩ := attempt_eq_completes_iff.mp hattempt
    rw [hattempt] at hc
    cases hacts with
    | @out src w hw =>
      cases hc
      refine ⟨src, w, ?_, hw, (toNat_charOfWord (h.value_lt hw)).2⟩
      exact completed?_eq_some_iff.mpr ⟨_, _, hattempt⟩
    | _ => cases hc

end Machine

/-- The machines on which a printing instruction was completed. -/
def printings (past : List Machine) : List Machine :=
  past.filter (·.printing)

/-- The characters that were printed. -/
def outputs (past : List Machine) : List Char :=
  past.filterMap (·.output?)

theorem outputs_append (past past' : List Machine) :
    outputs (past ++ past') = outputs past ++ outputs past' :=
  List.filterMap_append

/-- Each completed printing instruction prints one character. -/
theorem prints_outputs {image : List Word} {past : List Machine}
    (h : ∀ m ∈ past, m.Bounded image) :
    List.Forall₂ Machine.Prints (printings past) (outputs past) := by
  induction past with
  | nil => exact .nil
  | cons m past ih =>
    obtain ⟨hm, hpast⟩ := List.forall_mem_cons.mp h
    cases hc : m.output? with
    | some c =>
      have hprinting : m.printing = true := Machine.printing_iff.mpr ⟨c, hc⟩
      rw [printings, outputs, List.filter_cons_of_pos hprinting, List.filterMap_cons_some hc]
      exact .cons (hm.prints hc) (ih hpast)
    | none =>
      have hsilent : ¬m.printing = true := by
        rw [Machine.printing_iff, hc]
        simp
      rw [printings, outputs, List.filter_cons_of_neg hsilent, List.filterMap_cons_none hc]
      exact ih hpast

/-! ## Slices and rounds -/

namespace Session

/-- A slice prints the character it tells, and no other. -/
theorem outputs_trail (budget : Nat) (s : Session) :
    outputs (s.trail budget) = ((s.execute budget).1.bind Event.char?).toList := by
  have hspend (budget : Nat) (s : Session) :
      outputs (s.tries budget) = ((s.spend budget).1.bind Event.char?).toList := by
    induction budget generalizing s with
    | zero => rfl
    | succ budget ih =>
      cases hstep : s.step with
      | mk event t =>
        have hone := s.machine.output?_eq
        rw [(step_machine hstep).1] at hone
        simp only [tries, spend, hstep]
        cases event with
        | some event =>
          rw [outputs, List.filterMap_cons, hone]
          cases event <;> rfl
        | none =>
          rw [outputs, List.filterMap_cons_none hone]
          exact ih t
  unfold trail execute
  cases s.machine.status with
  | running => exact hspend budget s
  | halted | faulted f => rfl

/-- Instructions are tried on machines that keep their bounds. -/
theorem Moves.bounded {image : List Word} {s t : Session} {past : List Machine}
    (h : Moves s past t) (hs : s.machine.Bounded image) :
    t.machine.Bounded image ∧ ∀ m ∈ past, m.Bounded image := by
  induction h with
  | refl =>
    refine ⟨hs, ?_⟩
    intro m hm
    cases hm
  | tail _ hm ih =>
    obtain ⟨ht, hpast⟩ := ih
    cases hm with
    | step =>
      refine ⟨ht.step, ?_⟩
      intro m hm
      rcases List.mem_append.mp hm with hm | hm
      · exact hpast m hm
      · rw [List.mem_singleton.mp hm]
        exact ht
    | enter | close | broken =>
      rw [List.append_nil]
      exact ⟨ht.congr rfl rfl rfl ht.pc, hpast⟩

end Session

/-- The same round with another sink. -/
def Round.withSink {σ : Type u} {κ : Type v} {κ' : Type w} (k : κ') : Round σ κ → Round σ κ'
  | .goesOn ⟨s, source, _⟩ => .goesOn ⟨s, source, k⟩
  | .ends result ⟨s, source, _⟩ => .ends result ⟨s, source, k⟩

namespace Run

variable {σ : Type u} {κ : Type v}

/-- The same run with another sink. -/
def withSink {κ' : Type w} (r : Run σ κ) (k : κ') : Run σ κ' :=
  ⟨r.session, r.source, k⟩

variable [LineSource σ] [Sink κ]

theorem trail_moves (rounds : Nat) (r : Run σ κ) :
    Session.Moves r.session (r.trail rounds) (r.after rounds).session := by
  induction rounds generalizing r with
  | zero => exact .refl _
  | succ rounds ih =>
    have hround := Session.round_moves slice r
    simp only [trail, after]
    cases hr : r.round slice with
    | goesOn next =>
      rw [hr] at hround
      exact hround.trans (ih next)
    | ends result last =>
      rw [hr] at hround
      rw [List.append_nil]
      exact hround

/-- The characters printed in so many rounds. -/
def spoken (rounds : Nat) (r : Run σ κ) : List Char :=
  outputs (r.trail rounds)

theorem spoken_succ (rounds : Nat) (r : Run σ κ) :
    r.spoken (rounds + 1) = outputs (r.session.trail slice) ++
      match r.round slice with
      | .goesOn r => r.spoken rounds
      | .ends _ _ => [] := by
  rw [spoken, trail, outputs_append]
  cases r.round slice <;> rfl

/-! ## Another sink -/

section Refusal

variable {r : Run σ Ledger} {k k' : κ} {e : StreamError}

/-- A sink that takes what a round prints leaves the round as it is. -/
theorem round_withSink {budget : Nat}
    (h : Sink.putAll k (outputs (r.session.trail budget)) = (.ok (), k')) :
    (r.withSink k).round budget = (r.round budget).withSink k' := by
  obtain ⟨s, source, free⟩ := r
  rw [Session.outputs_trail] at h
  simp only [withSink, round]
  cases hexec : s.execute budget with
  | mk event t =>
    rw [hexec] at h
    rcases event with _ | c | _ | _ | f
    · cases h
      rfl
    · simp only [Option.bind_some, Event.char?, Option.toList_some, Sink.putAll] at h
      simp only [Ledger.put_eq]
      cases hput : Sink.put k c with
      | mk reply k'' =>
        rw [hput] at h
        cases reply with
        | ok =>
          cases h
          rfl
        | error e => cases h
    · cases h
      cases LineSource.readLine source with
      | mk reply source' =>
        rcases reply with _ | _ | line <;> rfl
    · cases h
      rfl
    · cases h
      rfl

/-- A sink that refuses what a round prints ends the run there. -/
theorem round_withSink_of_refused {budget : Nat}
    (h : Sink.putAll k (outputs (r.session.trail budget)) = (.error e, k')) :
    ∃ s, (r.withSink k).round budget = breaks s r.source k' e := by
  obtain ⟨s, source, free⟩ := r
  rw [Session.outputs_trail] at h
  simp only [withSink, round]
  cases hexec : s.execute budget with
  | mk event t =>
    rw [hexec] at h
    rcases event with _ | c | _ | _ | f
    · cases h
    · simp only [Option.bind_some, Event.char?, Option.toList_some, Sink.putAll] at h
      refine ⟨t, ?_⟩
      cases hput : Sink.put k c with
      | mk reply k'' =>
        rw [hput] at h
        cases reply with
        | ok => cases h
        | error e =>
          cases h
          simp only [hput]
    · cases h
    · cases h
    · cases h

/-- So does a sink that takes all that a run prints. -/
theorem drive_withSink {rounds : Nat} (h : Sink.putAll k (r.spoken rounds) = (.ok (), k')) :
    (r.withSink k).after rounds = (r.after rounds).withSink k' ∧
    (r.withSink k).trail rounds = r.trail rounds ∧
    (r.withSink k).drive rounds =
      (r.drive rounds).map fun (result, t) => (result, t.withSink k') := by
  induction rounds generalizing r k with
  | zero =>
    cases h
    exact ⟨rfl, rfl, rfl⟩
  | succ rounds ih =>
    rw [spoken_succ, Sink.putAll_append] at h
    cases hput : Sink.putAll k (outputs (r.session.trail slice)) with
    | mk reply k'' =>
      rw [hput] at h
      cases reply with
      | error e => cases h
      | ok =>
        simp only [after, trail, drive, round_withSink hput]
        cases hround : r.round slice with
        | goesOn next =>
          rw [hround] at h
          obtain ⟨hafter, htrail, hdrive⟩ := ih h
          exact ⟨hafter, congrArg _ htrail, hdrive⟩
        | ends result last =>
          rw [hround] at h
          cases h
          exact ⟨rfl, rfl, rfl⟩

/-- The first character that is refused is the end of the run. -/
theorem drive_withSink_of_refused {rounds : Nat}
    (h : Sink.putAll k (r.spoken rounds) = (.error e, k')) :
    ∃ f t, (r.withSink k).drive rounds = some (.error f, t) ∧ f.kind = .io ∧ t.sink = k' ∧
      t.session.machine.status = .faulted f := by
  suffices hend : ∃ f t, (r.withSink k).drive rounds = some (.error f, t) ∧ f.kind = .io ∧
      t.sink = k' by
    obtain ⟨f, t, hdrive, hkind, hsink⟩ := hend
    exact ⟨f, t, hdrive, hkind, hsink, status_of_drive hdrive⟩
  induction rounds generalizing r k with
  | zero => cases h
  | succ rounds ih =>
    rw [spoken_succ, Sink.putAll_append] at h
    cases hput : Sink.putAll k (outputs (r.session.trail slice)) with
    | mk reply k'' =>
      rw [hput] at h
      cases reply with
      | error e' =>
        cases h
        obtain ⟨s, hround⟩ := round_withSink_of_refused hput
        exact ⟨_, _, drive_of_ends hround rounds, rfl, rfl⟩
      | ok =>
        simp only [drive, round_withSink hput]
        cases hround : r.round slice with
        | goesOn next =>
          rw [hround] at h
          exact ih h
        | ends result last =>
          rw [hround] at h
          cases h

end Refusal

/-- The run with the sink `k` goes as the run with the sink that never fails: it tries the same
instructions, has the same session and source after any number of rounds and the same end, if any,
and the sink holds what was printed until then. -/
def Undisturbed (r : Run σ Ledger) (k : BoundedSink) : Prop :=
  ∀ rounds,
    (r.withSink k).trail rounds = r.trail rounds ∧
    (r.withSink k).after rounds = (r.after rounds).withSink (k.filled (r.spoken rounds)) ∧
    (r.withSink k).drive rounds =
      (r.drive rounds).map fun (result, t) => (result, t.withSink (k.filled (r.spoken rounds)))

theorem undisturbed_of_suits {r : Run σ Ledger} {k : BoundedSink}
    (h : ∀ rounds, k.Suits (r.spoken rounds)) : r.Undisturbed k := by
  intro rounds
  obtain ⟨hafter, htrail, hdrive⟩ := drive_withSink (BoundedSink.putAll_of_suits (h rounds))
  exact ⟨htrail, hafter, hdrive⟩

/-- A sink that never fails is asked for what was printed, and for nothing else. -/
theorem requests_after (rounds : Nat) (r : Run σ Ledger) :
    (r.after rounds).sink.requests = r.sink.requests ++ Ledger.delivery (r.spoken rounds) := by
  obtain ⟨hafter, -⟩ := drive_withSink (Ledger.putAll_eq r.sink (r.spoken rounds))
  exact congrArg (·.sink.requests) hafter

end Run

/-! ## Sinks that fail -/

/-- The session run on the source, with a sink that never fails. -/
def Session.freely {σ : Type u} (s : Session) (source : σ) : Run σ Ledger :=
  ⟨s, source, {}⟩

/-- **A run writes what its instructions print, as far as the sink lets it.** A sink that never
fails gets the values of the completed printing instructions, in order, each written whole and
flushed once. A sink of limited capacity, whether it fails or stalls when it is full, makes no
difference while all fits; else it ends the run with a fault and holds what fitted, and the flushes
are those of the characters within. A sink with a flush that fails makes no difference until then
and ends the run there. -/
theorem output_fidelity {σ : Type u} [LineSource σ] {s : Session} (h : s.Reachable) (source : σ) :
    (∀ n, List.Forall₂ Machine.Prints (printings ((s.freely source).trail n))
        ((s.freely source).spoken n) ∧
      ((s.freely source).after n).sink.requests =
        Ledger.delivery ((s.freely source).spoken n)) ∧
    (∀ (limit : Nat) (stalls : Bool),
      ((∀ n, (utf8 ((s.freely source).spoken n)).length ≤ limit) →
        (s.freely source).Undisturbed { capacity := some limit, stalls }) ∧
      ∀ n, limit < (utf8 ((s.freely source).spoken n)).length →
        ∃ f t, Run.drive n ⟨s, source, ({ capacity := some limit, stalls } : BoundedSink)⟩ =
            some (.error f, t) ∧
          f.kind = .io ∧ t.session.machine.status = .faulted f ∧
          t.sink.accepted.toList = (utf8 ((s.freely source).spoken n)).take limit ∧
          IsGreatest {j | j ≤ ((s.freely source).spoken n).length ∧
            (utf8 (((s.freely source).spoken n).take j)).length ≤ limit} t.sink.flushes) ∧
    ∀ k, 0 < k →
      ((∀ n, ((s.freely source).spoken n).length < k) →
        (s.freely source).Undisturbed { failingFlush := some k }) ∧
      ∀ n, k ≤ ((s.freely source).spoken n).length →
        ∃ f t, Run.drive n ⟨s, source, ({ failingFlush := some k } : BoundedSink)⟩ =
            some (.error f, t) ∧
          f.kind = .io ∧ t.session.machine.status = .faulted f ∧
          t.sink.accepted.toList = utf8 (((s.freely source).spoken n).take k) ∧
          t.sink.flushes = k := by
  refine ⟨?_, ?_, ?_⟩
  · intro n
    obtain ⟨image, hs⟩ := h.bounded
    have hpast := ((s.freely source).trail_moves n).bounded hs
    refine ⟨prints_outputs hpast.2, ?_⟩
    rw [Run.requests_after]
    rfl
  · intro limit stalls
    refine ⟨?_, ?_⟩
    · intro hfits
      refine Run.undisturbed_of_suits fun n => ⟨?_, ?_⟩
      · intro limit' hlimit
        cases hlimit
        simpa using hfits n
      · intro k hk
        cases hk
    · intro n hn
      obtain ⟨e, flushes, hput, hflushes⟩ := BoundedSink.putAll_of_overflow stalls hn
      obtain ⟨f, t, hdrive, hkind, hsink, hstatus⟩ := Run.drive_withSink_of_refused hput
      refine ⟨f, t, hdrive, hkind, hstatus, ?_, ?_⟩
      · rw [hsink]
      · rw [hsink]
        exact hflushes
  · intro k hpos
    refine ⟨?_, ?_⟩
    · intro hfewer
      refine Run.undisturbed_of_suits fun n => ⟨?_, ?_⟩
      · intro limit hlimit
        cases hlimit
      · intro k' hk
        cases hk
        have hlt := hfewer n
        exact .inr (by simpa using hlt)
    · intro n hn
      obtain ⟨e, hput⟩ := BoundedSink.putAll_of_failing_flush hpos hn
      obtain ⟨f, t, hdrive, hkind, hsink, hstatus⟩ := Run.drive_withSink_of_refused hput
      refine ⟨f, t, hdrive, hkind, hstatus, ?_, ?_⟩
      · rw [hsink]
        simp [BoundedSink.filled]
      · rw [hsink]
        simp only [BoundedSink.filled, List.length_take]
        omega

/-- Prints an `é`, which takes two bytes. -/
def accentImage : List Word := [19, 233]

theorem spoken_of_print {σ : Type u} [LineSource σ] {s : Session} {c : Char} (source : σ)
    (hrun : s.machine.status = .running) (hevent : s.machine.step.event = some (.print c)) :
    (s.freely source).spoken 1 = [c] := by
  obtain ⟨budget, hbudget⟩ := Nat.exists_eq_add_one.mpr (show 0 < Run.slice by decide)
  have hslice : outputs (s.trail Run.slice) = [c] := by
    rw [Session.outputs_trail, hbudget, Session.execute_of_event hrun hevent]
    rfl
  rw [Run.spoken_succ]
  change outputs (s.trail Run.slice) ++ _ = _
  rw [hslice]
  cases Run.round Run.slice (s.freely source) <;> rfl

/-- A sink of one byte holds the first byte of the character and was never flushed; a sink whose
first flush fails holds both. -/
theorem output_fidelity_of_accent :
    ∃ s : Session, s.Reachable ∧
      (∃ f t, Run.drive 1 ⟨s, ({} : Silence), ({ capacity := some 1 } : BoundedSink)⟩ =
          some (.error f, t) ∧ f.kind = .io ∧ t.session.machine.status = .faulted f ∧
        t.sink.accepted.toList = [195] ∧ t.sink.flushes = 0) ∧
      ∃ f t, Run.drive 1 ⟨s, ({} : Silence), ({ failingFlush := some 1 } : BoundedSink)⟩ =
          some (.error f, t) ∧ f.kind = .io ∧ t.session.machine.status = .faulted f ∧
        t.sink.accepted.toList = [195, 169] ∧ t.sink.flushes = 1 := by
  obtain ⟨mem, s, hboot, hs, -, hfetch⟩ :=
    Session.boot_of_le { threshold := .warn } accentImage .flat (by decide)
  have hreach : s.Reachable := hboot ▸ .boot _ _ _
  have hevent : s.machine.step.event = some (.print (charOfWord 233)) := by
    rw [hs]
    exact Machine.event_step_of_out (hfetch ⟨_, rfl⟩)
      (Machine.value_eq_ok_iff.mpr ⟨by decide, rfl⟩)
  have hspoken := spoken_of_print ({} : Silence) (by rw [hs]) hevent
  have hbytes : utf8 [charOfWord 233] = [195, 169] := by decide
  obtain ⟨-, hcapacity, hflush⟩ := output_fidelity hreach ({} : Silence)
  refine ⟨s, hreach, ?_, ?_⟩
  · obtain ⟨f, t, hdrive, hkind, hstatus, haccepted, hflushes⟩ :=
      (hcapacity 1 false).2 1 (by rw [hspoken, hbytes]; decide)
    rw [hspoken] at haccepted hflushes
    refine ⟨f, t, hdrive, hkind, hstatus, haccepted, ?_⟩
    obtain ⟨⟨hle, hwithin⟩, -⟩ := hflushes
    rw [List.length_singleton] at hle
    rcases Nat.le_one_iff_eq_zero_or_eq_one.mp hle with hzero | hone
    · exact hzero
    · rw [hone] at hwithin
      exact absurd hwithin (by decide)
  · obtain ⟨f, t, hdrive, hkind, hstatus, haccepted, hflushes⟩ :=
      (hflush 1 Nat.one_pos).2 1 (by rw [hspoken]; decide)
    rw [hspoken] at haccepted
    exact ⟨f, t, hdrive, hkind, hstatus, haccepted, hflushes⟩

end Wordcode
