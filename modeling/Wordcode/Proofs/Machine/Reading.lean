import Wordcode.Proofs.Machine.Trial

/-! Reading input. An instruction waits if it wants a character and none is pending; it takes the
first pending character or it leaves the input alone. So a machine that does not wait cannot tell
whether more characters stand behind the pending ones: `step_feed` says so for one step. -/

namespace Wordcode.Machine

variable {m : Machine}

/-! ## The input, step by step -/

theorem attempt_eq_waits_iff {i : Instr} :
    m.attempt = .waits i ↔ m.memory.fetch m.pc = .ok i ∧ m.plan i = .ok .wait := by
  unfold attempt
  cases hf : m.memory.fetch m.pc with
  | error f => simp
  | ok j =>
    constructor
    · intro h
      dsimp only at h
      split at h <;> cases h
      exact ⟨rfl, ‹_›⟩
    · intro h
      obtain ⟨hi, hplan⟩ := h
      cases hi
      simp only [hplan]

/-- An instruction waits only for a character that may still be entered. -/
theorem input_of_waits {i : Instr} (h : m.attempt = .waits i) : m.input = {} := by
  obtain ⟨-, hplan⟩ := attempt_eq_waits_iff.mp h
  obtain ⟨dst, place, -, -, hnext, hclosed⟩ := plan_eq_wait_iff.mp hplan
  cases hinput : m.input with
  | mk pending closed =>
    rw [hinput] at hnext hclosed
    cases hclosed
    exact congrArg (Input.mk · false) (List.head?_eq_none_iff.mp hnext)

theorem event_of_waits {i : Instr} (h : m.attempt = .waits i) : m.step.event = some .input := by
  simp only [step, h]

/-- A machine that asks for input waits, and has not changed. -/
theorem waits_of_event (h : m.step.event = some .input) :
    (∃ i, m.attempt = .waits i) ∧ m.step.machine = m := by
  have ht := step_trial m
  rw [h] at ht
  generalize m.step.machine = after at ht ⊢
  cases ht with
  | wait hwaits => exact ⟨⟨_, hwaits⟩, rfl⟩
  | complete _ _ hfollow => cases hfollow

/-- Only the reading of a character uses the input, and there is one to read. -/
theorem Acts.next_of_reads {i : Instr} {e : Effect} {flow : Flow} (h : Acts m i e flow)
    (hreads : e.reads = true) : ∃ dst c, i = .input dst ∧ m.input.next? = some c := by
  cases h with
  | @inputRegister dst r c _ hc | @inputCell dst a c _ hc => exact ⟨dst, c, rfl, hc⟩
  | _ => cases hreads

/-- A completed instruction takes the first pending character if it reads one. -/
theorem input_step_of_completes {i : Instr} {e : Effect} {flow : Flow}
    (h : m.attempt = .completes i e flow) :
    m.step.machine.input = if e.reads then m.input.drop else m.input := by
  have hframe := (step_follows h).frame
  exact congrArg (fun after => after.input) hframe

/-- Nothing but a completed instruction changes the input. -/
theorem input_step_of_not_completes (h : ∀ i e flow, m.attempt ≠ .completes i e flow) :
    m.step.machine.input = m.input := by
  unfold step
  cases hattempt : m.attempt with
  | unfetched f | refused i f | waits i => rfl
  | completes i e flow => exact absurd hattempt (h i e flow)

theorem closed_step (m : Machine) : m.step.machine.input.closed = m.input.closed := by
  by_cases h : ∃ i e flow, m.attempt = .completes i e flow
  · obtain ⟨i, e, flow, h⟩ := h
    rw [input_step_of_completes h]
    split <;> rfl
  · rw [input_step_of_not_completes fun i e flow hattempt => h ⟨i, e, flow, hattempt⟩]

/-! ## Input supplied in advance -/

/-- The machine with these characters put behind the pending ones and nothing to follow. -/
def feed (m : Machine) (rest : List Char) : Machine :=
  { m with input := ⟨m.input.pending ++ rest, true⟩ }

variable {rest : List Char}

theorem feed_nil_of_closed (h : m.input.closed = true) : m.feed [] = m := by
  unfold feed
  rw [List.append_nil, ← h]

theorem plan_feed {i : Instr} (hwait : m.plan i ≠ .ok .wait) (hopen : m.input.closed = false) :
    (m.feed rest).plan i = m.plan i := by
  cases i with
  | input dst =>
    cases hp : Operand.decode dst with
    | error f =>
      simp only [plan, hp]
      rfl
    | ok place =>
      have hnext : (m.feed rest).input.next? = (m.input.next?).or rest.head? :=
        List.head?_append
      cases hc : m.input.next? with
      | none => exact absurd (plan_eq_wait_iff.mpr ⟨dst, place, rfl, hp, hc, hopen⟩) hwait
      | some c =>
        rw [hc] at hnext
        simp only [plan, hp, hc, hnext]
        rfl
  | _ => rfl

theorem attempt_feed (hwait : ∀ i, m.attempt ≠ .waits i) (hopen : m.input.closed = false) :
    (m.feed rest).attempt = m.attempt := by
  have hplan : ∀ i, m.memory.fetch m.pc = .ok i → m.plan i ≠ .ok .wait :=
    fun i hf hplan => hwait i (attempt_eq_waits_iff.mpr ⟨hf, hplan⟩)
  have hfetch : (m.feed rest).memory.fetch (m.feed rest).pc = m.memory.fetch m.pc := rfl
  unfold attempt
  rw [hfetch]
  cases hf : m.memory.fetch m.pc with
  | error f => rfl
  | ok i => simp only [plan_feed (hplan i hf) hopen]

theorem apply_feed {e : Effect} (h : e.reads = true → m.input.pending ≠ []) :
    (m.feed rest).apply e = (m.apply e).feed rest := by
  obtain ⟨register, cell, stack, reads⟩ := e
  cases reads with
  | false => rfl
  | true =>
    have htail : (m.input.pending ++ rest).tail = m.input.pending.tail ++ rest :=
      List.tail_append_of_ne_nil (h rfl)
    simp only [apply, feed, Input.drop, htail]
    rfl

theorem follow_feed (m : Machine) (rest : List Char) (i : Instr) (flow : Flow) :
    (m.feed rest).follow i flow =
      { m.follow i flow with machine := (m.follow i flow).machine.feed rest } := by
  have hproceed (printed : Option Char) : (m.feed rest).proceed i printed =
      { m.proceed i printed with machine := (m.proceed i printed).machine.feed rest } := by
    have hnext : (m.feed rest).nextAddress ((m.feed rest).pc + i.size) =
      m.nextAddress (m.pc + i.size) := rfl
    unfold proceed
    rw [hnext]
    cases m.nextAddress (m.pc + i.size) <;> rfl
  cases flow with
  | jump t | halt => rfl
  | next => exact hproceed none
  | print c => exact hproceed (some c)

theorem step_feed_of_open (hwait : ∀ i, m.attempt ≠ .waits i) (hopen : m.input.closed = false) :
    (m.feed rest).step.event = m.step.event ∧
      (m.feed rest).step.machine = m.step.machine.feed rest := by
  have hattempt : (m.feed rest).attempt = m.attempt := attempt_feed hwait hopen
  cases h : m.attempt with
  | unfetched f | refused i f =>
    rw [h] at hattempt
    unfold step
    rw [h, hattempt]
    exact ⟨rfl, rfl⟩
  | waits i => exact absurd h (hwait i)
  | completes i e flow =>
    rw [h] at hattempt
    obtain ⟨-, ha⟩ := attempt_eq_completes_iff.mp h
    have hpending : e.reads = true → m.input.pending ≠ [] := by
      intro hreads hnil
      obtain ⟨dst, c, -, hc⟩ := ha.next_of_reads hreads
      rw [Input.next?, hnil] at hc
      cases hc
    have htick : ((m.apply e).feed rest).tick = (m.apply e).tick.feed rest := rfl
    unfold step
    rw [h, hattempt]
    dsimp only
    rw [apply_feed hpending, htick, follow_feed]
    exact ⟨rfl, rfl⟩

/-- **A machine that does not wait does the same whatever follows its pending input.** -/
theorem step_feed (hwait : ∀ i, m.attempt ≠ .waits i)
    (hrest : m.input.closed = true → rest = []) :
    (m.feed rest).step.event = m.step.event ∧
      (m.feed rest).step.machine = m.step.machine.feed rest := by
  cases hclosed : m.input.closed with
  | false => exact step_feed_of_open hwait hclosed
  | true =>
    rw [hrest hclosed, feed_nil_of_closed hclosed]
    exact ⟨rfl, (feed_nil_of_closed ((closed_step m).trans hclosed)).symm⟩

end Wordcode.Machine
