import Wordcode.Proofs.Host.Location
import Wordcode.Proofs.Host.Verbosity

/-! What the trace tells. A trace line is written for every instruction that is tried and could be
read, before it is carried out, and for nothing else. So the lines tell the instructions in the
order in which they were tried, and they are counted in three parts: instructions that were
completed, which the cycles count; instructions that waited, which the host gets to know of as
requests for input; and the one that was refused, if the machine has stopped with its fault. -/

namespace Wordcode

universe u v

/-- The texts of the remarks at the level of the trace. -/
def traces (rs : List Remark) : List String :=
  (rs.filter (·.level = .trace)).map (·.text)

theorem traces_append (rs rs' : List Remark) : traces (rs ++ rs') = traces rs ++ traces rs' := by
  simp only [traces, List.filter_append, List.map_append]

/-! ## One instruction -/

/-- The instruction that was tried, if it could be read. -/
def Attempt.instr? : Attempt → Option Instr
  | .unfetched _ => none
  | .refused i _ | .waits i | .completes i .. => some i

namespace Machine

variable {m : Machine} {i : Instr} {f : Fault}

/-- What the trace says of the instruction at the program counter: its address, its name and the
words that stand behind it. Where no whole instruction stands it says nothing. -/
def traceText? (m : Machine) : Option String :=
  match Opcode.ofWord? (m.wordAt 0) with
  | none => none
  | some op =>
    if m.pc + op.arity < memorySize then
      let operands := (List.range op.arity).map fun place => m.wordAt (place + 1)
      some (Remark.showAddress m.pc ++ " " ++ op.mnemonic ++ " " ++ showWords operands)
    else
      none

theorem operands_of_fetch (hf : m.memory.fetch m.pc = .ok i) :
    (List.range i.opcode.arity).map (fun place => m.wordAt (place + 1)) = i.operands := by
  rw [← i.length_operands]
  refine List.ext_getElem ?_ ?_
  · rw [List.length_map, List.length_range]
  · intro k hk hk'
    rw [List.getElem_map, List.getElem_range]
    exact wordAt_of_fetch hf (List.getElem?_eq_getElem hk')

theorem traceText?_of_fetch (hf : m.memory.fetch m.pc = .ok i) :
    m.traceText? = some (Remark.traced m.pc i).text := by
  have hword : m.wordAt 0 = i.opcode.code := wordAt_of_fetch hf rfl
  have hfits : m.pc + i.opcode.arity < memorySize := by
    have hsize := Memory.fetch_size_le hf
    rw [Instr.size, i.length_operands] at hsize
    omega
  simp only [traceText?, hword, Opcode.ofWord?_code, if_pos hfits, operands_of_fetch hf]
  rfl

theorem traceText?_of_unfetched (hf : m.memory.fetch m.pc = .error f) : m.traceText? = none := by
  unfold traceText?
  split
  · rfl
  · rename_i op hop
    refine if_neg ?_
    intro hfits
    have hpc : m.pc < memorySize := by omega
    rw [show m.wordAt 0 = _ from wordAt_of_lt hpc] at hop
    obtain ⟨i, hi, -⟩ := Memory.fetch_of_fits hpc hop hfits
    cases hi.symm.trans hf

theorem traceText?_eq (m : Machine) :
    m.traceText? = m.attempt.instr?.map fun i => (Remark.traced m.pc i).text := by
  unfold attempt
  cases hf : m.memory.fetch m.pc with
  | error f => exact traceText?_of_unfetched hf
  | ok i =>
    rw [traceText?_of_fetch hf]
    dsimp only
    split <;> rfl

/-- Going on behind an instruction is not traced. -/
theorem traces_follow (m : Machine) (i : Instr) (flow : Flow) :
    traces (m.follow i flow).remarks = [] := by
  have hproceed (printed : Option Char) : traces (m.proceed i printed).remarks = [] := by
    unfold proceed
    split <;> rfl
  cases flow with
  | next => exact hproceed none
  | print c => exact hproceed (some c)
  | jump target => rfl
  | halt => rfl

/-- A step traces the instruction that it tries, if that could be read. -/
theorem traces_step (m : Machine) : traces m.step.remarks = m.traceText?.toList := by
  rw [traceText?_eq]
  unfold step
  cases m.attempt with
  | unfetched f | refused i f | waits i => rfl
  | completes i effect flow =>
    exact congrArg (List.cons _) (traces_follow (m.apply effect).tick i flow)

/-! ## Instructions that are not completed -/

/-- The instruction tried on this machine waits for input. -/
def waiting (m : Machine) : Bool :=
  match m.attempt with
  | .waits _ => true
  | _ => false

/-- The instruction tried on this machine could be read, and faults. -/
def refused (m : Machine) : Bool :=
  match m.attempt with
  | .refused .. => true
  | _ => false

theorem waiting_eq (m : Machine) : m.waiting = decide (m.step.event = some .input) := by
  have hiff : m.waiting = true ↔ m.step.event = some .input := by
    constructor
    · intro h
      unfold waiting at h
      split at h
      · rename_i i hwaits
        exact event_of_waits hwaits
      · cases h
    · intro h
      obtain ⟨⟨i, hwaits⟩, -⟩ := waits_of_event h
      simp only [waiting, hwaits]
  rw [Bool.eq_iff_iff, decide_eq_true_iff]
  exact hiff

end Machine

/-- Whether the event is the fault of an instruction that could be read. -/
def Event.refuses : Event → Bool
  | .fault f => f.kind.refuses
  | _ => false

namespace Machine

variable {m : Machine} {i : Instr} {f : Fault}

theorem refuses_of_unfetched (h : m.attempt = .unfetched f) : f.kind.refuses = false := by
  have hf : m.memory.fetch m.pc = .error f := by
    unfold attempt at h
    split at h
    · cases h
      assumption
    · split at h <;> cases h
  rcases Memory.kind_of_fetch_error hf with hkind | hkind <;> rw [hkind] <;> rfl

theorem Bounded.refuses_of_refused {image : List Word} (hb : Bounded image m)
    (h : m.attempt = .refused i f) : f.kind.refuses = true := by
  have hplan : m.plan i = .error f := by
    unfold attempt at h
    split at h
    · cases h
    · split at h <;> cases h
      assumption
  refine refuses_of_screen (m := m) (i := i) ?_
  rw [← hb.fault?_plan i, hplan]
  rfl

/-- The kind of a fault tells whether the instruction could be read, on a machine within its
bounds: there no address is a cause any more. -/
theorem Bounded.refused_eq {image : List Word} (hb : Bounded image m) :
    m.refused = m.step.event.any (·.refuses) := by
  have hfault {f : Fault} (hf : m.attempt.fault? = some f) :
      m.step.event = some (.fault (f.located m.pc)) :=
    event_eq_fault_iff.mpr (congrArg (Option.map (·.located m.pc)) hf)
  unfold refused
  cases h : m.attempt with
  | unfetched f =>
    rw [hfault (congrArg Attempt.fault? h)]
    exact (refuses_of_unfetched h).symm
  | refused i f =>
    rw [hfault (congrArg Attempt.fault? h)]
    exact (hb.refuses_of_refused h).symm
  | waits i =>
    rw [event_of_waits h]
    rfl
  | completes i e flow =>
    have hfollow := step_follows h
    generalize m.step.machine = after at hfollow
    generalize m.step.event = event at hfollow ⊢
    cases hfollow <;> rfl

end Machine

/-- Every line stands for an instruction that was completed, that waited or that was refused. -/
theorem length_traced (past : List Machine) :
    (past.filterMap (·.traceText?)).length =
      completions past + past.countP (·.waiting) + past.countP (·.refused) := by
  induction past with
  | nil => rfl
  | cons m past ih =>
    have hone : ([m].filterMap (·.traceText?)).length =
        completions [m] + [m].countP (·.waiting) + [m].countP (·.refused) := by
      rw [List.filterMap_cons, m.traceText?_eq]
      cases h : m.attempt <;>
        simp [completions, Machine.completed?, Machine.waiting, Machine.refused, h, Attempt.instr?]
    rw [← List.singleton_append, List.filterMap_append, List.length_append, completions_append,
      List.countP_append, List.countP_append, hone, ih]
    omega

/-! ## Slices -/

namespace Session

variable {s t : Session} {budget : Nat}

/-- In a slice only the last instruction raises an event, so what is read off events is met as
often as the event of the slice shows it. -/
theorem countP_trail {p : Machine → Bool} {q : Option Event → Bool} (hq : q none = false)
    (hrun : s.machine.status = .running) (hp : ∀ m ∈ s.trail budget, p m = q m.step.event) :
    (s.trail budget).countP p = (q (s.execute budget).1).toNat := by
  have htrail : s.trail budget = s.tries budget := by simp only [trail, hrun]
  rw [htrail] at hp ⊢
  rw [execute_of_running hrun]
  clear htrail hrun
  induction budget generalizing s with
  | zero =>
    rw [spend, hq]
    rfl
  | succ budget ih =>
    simp only [tries, spend] at hp ⊢
    cases hstep : s.step with
    | mk event t =>
      rw [hstep] at hp
      obtain ⟨hevent, -⟩ := step_machine hstep
      cases event with
      | some event =>
        have hlast := hp s.machine (List.mem_singleton_self _)
        rw [List.countP_singleton, hlast, hevent]
        cases q (some event) <;> rfl
      | none =>
        obtain ⟨hfirst, hrest⟩ := List.forall_mem_cons.mp hp
        rw [hevent, hq] at hfirst
        rw [List.countP_cons_of_neg (by simp [hfirst])]
        exact ih hrest

/-- A slice meets a waiting instruction exactly if it asks for input. -/
theorem waits_trail (budget : Nat) (s : Session) :
    (s.trail budget).countP (·.waiting) = if (s.execute budget).1 = some .input then 1 else 0 := by
  cases hrun : s.machine.status with
  | running =>
    have hcount := countP_trail (q := fun event => decide (event = some .input)) rfl hrun
      fun m (_ : m ∈ s.trail budget) => m.waiting_eq
    rw [hcount]
    split <;> simp [*]
  | halted | faulted f => simp [trail, execute, hrun]

end Session

/-- The number of refused instructions that a machine with this status has met. -/
def Status.refusals : Status → Nat
  | .faulted f => f.kind.refuses.toNat
  | .running | .halted => 0

namespace Session

variable {s t : Session} {image : List Word}

/-- The event that ends a slice agrees with the status it leaves. -/
theorem refusals_execute (budget : Nat) (s : Session) :
    (s.execute budget).2.machine.status.refusals =
      ((s.execute budget).1.any (·.refuses)).toNat := by
  cases hrun : s.machine.status with
  | halted | faulted f =>
    simp only [execute, hrun]
    rfl
  | running =>
    cases hexec : s.execute budget with
    | mk event t =>
      have hfree (hevent : ∀ f, event ≠ some (.fault f)) : t.machine.status.refusals = 0 := by
        have hstatus := status_execute_ne_faulted hrun hexec hevent
        cases h : t.machine.status with
        | running | halted => rfl
        | faulted f => exact absurd h (hstatus f)
      rcases event with _ | c | _ | _ | f
      · exact hfree (by simp)
      · exact hfree (by simp)
      · exact hfree (by simp)
      · exact hfree (by simp)
      · have hended : s.execute budget = (some (.ofResult (.error f)), t) := hexec
        rw [status_of_execute hended]
        rfl

/-- A slice meets a refused instruction exactly if it makes the machine stop with its fault. -/
theorem refusals_trail (hb : s.machine.Bounded image) (budget : Nat) :
    s.machine.status.refusals + (s.trail budget).countP (·.refused) =
      (s.execute budget).2.machine.status.refusals := by
  cases hrun : s.machine.status with
  | running =>
    obtain ⟨-, hbounded⟩ := (execute_moves budget s).bounded hb
    have hcount := countP_trail rfl hrun fun m hm => (hbounded m hm).refused_eq
    rw [hcount, refusals_execute]
    exact Nat.zero_add _
  | halted | faulted f => simp [trail, execute, hrun]

end Session

/-! ## Runs -/

namespace Run

variable {σ : Type u} {κ : Type v} [LineSource σ]

theorem waits_asks (slice : Nat) (r : Run σ κ) :
    (r.session.trail slice).countP (·.waiting) = (r.asks slice).length := by
  rw [Session.waits_trail, asks]
  cases r.session.execute slice with
  | mk event t => rcases event with _ | c | _ | _ | f <;> rfl

variable [Sink κ] {image : List Word}

/-- A run meets a waiting instruction for each line that it asks for. -/
theorem waits_reads (rounds : Nat) (r : Run σ κ) :
    (r.trail rounds).countP (·.waiting) = (r.reads rounds).length := by
  induction rounds generalizing r with
  | zero => rfl
  | succ rounds ih =>
    rw [trail, reads, List.countP_append, List.length_append, waits_asks]
    cases r.round slice with
    | goesOn next => rw [ih next]
    | ends result last => rfl

/-- A stream can fail a run only as long as no instruction has been refused. -/
theorem refusals_round {r : Run σ κ} (hb : r.session.machine.Bounded image) (slice : Nat) :
    r.session.machine.status.refusals + (r.session.trail slice).countP (·.refused) =
      (r.round slice).run.session.machine.status.refusals := by
  obtain ⟨s, source, sink⟩ := r
  have hslice := Session.refusals_trail hb slice
  -- neither a character nor a request comes with a fault, so a stream that fails hides none
  have hevent := Session.refusals_execute slice s
  simp only [round]
  cases hexec : s.execute slice with
  | mk event u =>
    rw [hexec] at hslice hevent
    rcases event with _ | c | _ | _ | f
    · exact hslice
    · dsimp only
      split
      · exact hslice
      · exact hslice.trans hevent
    · dsimp only
      split
      · exact hslice
      · exact hslice
      · exact hslice.trans hevent
    · exact hslice
    · exact hslice

theorem refusals_after {r : Run σ κ} (hb : r.session.machine.Bounded image) (rounds : Nat) :
    r.session.machine.status.refusals + (r.trail rounds).countP (·.refused) =
      (r.after rounds).session.machine.status.refusals := by
  induction rounds generalizing r with
  | zero => rfl
  | succ rounds ih =>
    have hround := refusals_round hb slice
    obtain ⟨hnext, -⟩ := (Session.round_moves slice r).bounded hb
    rw [trail, after, List.countP_append, ← Nat.add_assoc, hround]
    cases hr : r.round slice with
    | goesOn next =>
      rw [hr] at hnext
      exact ih hnext
    | ends result last => rfl

end Run

/-! ## Journals -/

/-- A journal with the lowest threshold keeps every trace. -/
theorem Journal.traces_noteAll {j : Journal} (h : j.threshold = .trace) (rs : List Remark) :
    traces (j.noteAll rs).remarks.toList = traces j.remarks.toList ++ traces rs := by
  have hall : rs.filter (j.threshold ≤ ·.level) = rs := by
    refine List.filter_eq_self.mpr ?_
    intro r _
    rw [h]
    exact decide_eq_true (Level.trace_le r.level)
  rw [remarks_noteAll, hall, traces_append]

namespace Session

variable {s t : Session} {past now : List Machine}

theorem Move.threshold (h : Move s now t) : t.journal.threshold = s.journal.threshold := by
  cases h with
  | step => exact Journal.threshold_noteAll _ _
  | enter | close | broken => exact Journal.threshold_note _ _

/-- A move traces the instruction that it tries, and what else it notes is no trace. -/
theorem Move.extends_trace (h : Move s now t) (hs : s.journal.threshold = .trace) :
    traces t.journal.remarks.toList =
      traces s.journal.remarks.toList ++ now.filterMap (·.traceText?) := by
  cases h with
  | step =>
    have hnoted := Journal.traces_noteAll hs s.machine.step.remarks
    rw [Machine.traces_step] at hnoted
    refine hnoted.trans (congrArg _ ?_)
    rw [List.filterMap_cons]
    cases s.machine.traceText? <;> rfl
  | enter line => exact Journal.traces_noteAll hs [.queued (s.machine.enter line).input.size]
  | close => exact Journal.traces_noteAll hs [.closed]
  | broken => exact Journal.traces_noteAll hs [.faulted s.machine.cycles s.machine.registers]

/-- The trace grows by the lines of the instructions that are tried, in their order. -/
theorem Moves.extends_trace (h : Moves s past t) (hs : s.journal.threshold = .trace) :
    t.journal.threshold = .trace ∧
      traces t.journal.remarks.toList =
        traces s.journal.remarks.toList ++ past.filterMap (·.traceText?) := by
  induction h with
  | refl => exact ⟨hs, (List.append_nil _).symm⟩
  | tail _ hm ih =>
    obtain ⟨hthreshold, htraces⟩ := ih
    refine ⟨hm.threshold.trans hthreshold, ?_⟩
    rw [hm.extends_trace hthreshold, htraces, List.filterMap_append, List.append_assoc]

/-- Nothing is traced before the first instruction. -/
theorem traces_boot (image : List Word) (advance : Advance) :
    traces (boot { threshold := .trace } image advance).journal.remarks.toList = [] := by
  refine (Journal.traces_noteAll rfl _).trans ?_
  split <;> rfl

end Session

/-! ## Calls -/

namespace Call

/-- How often the call asks for input: a slice does so if that is the event it ends with, and a run
does so for each line that it reads. -/
def requests (rounds : Nat) (s : Session) : Call → Nat
  | execute budget => if (s.execute budget).1 = some .input then 1 else 0
  | enter _ | close => 0
  | run source sink => (Run.reads rounds ⟨s, source, sink⟩).length

theorem waits_tried (rounds : Nat) (s : Session) (c : Call) :
    (c.tried rounds s).countP (·.waiting) = c.requests rounds s := by
  cases c with
  | execute budget => exact Session.waits_trail budget s
  | enter | close => rfl
  | run source sink => exact Run.waits_reads rounds ⟨s, source, sink⟩

theorem refusals_tried {image : List Word} {s : Session} (hb : s.machine.Bounded image)
    (rounds : Nat) (c : Call) :
    s.machine.status.refusals + (c.tried rounds s).countP (·.refused) =
      (c.reached rounds s).machine.status.refusals := by
  cases c with
  | execute budget => exact Session.refusals_trail hb budget
  | enter | close => rfl
  | run source sink =>
    have hr : (Run.mk s source sink).session.machine.Bounded image := hb
    exact Run.refusals_after hr rounds

end Call

/-- Calls one after the other, the last of them perhaps a run that is still under way: the machines
on which they have tried an instruction, how often they have asked for input, and the session they
have come to. -/
inductive Course : Session → List Call → List Machine → (requests : Nat) → Session → Prop where
  | nil (s : Session) : Course s [] [] 0 s
  | underWay (rounds : Nat) (s : Session) (c : Call) :
      Course s [c] (c.tried rounds s) (c.requests rounds s) (c.reached rounds s)
  | cons {rounds requests : Nat} {s t u : Session} {c : Call} {report : Report} {cs : List Call}
      {past : List Machine} : c.perform rounds s = some (report, t) →
      Course t cs past requests u →
      Course s (c :: cs) (c.tried rounds s ++ past) (c.requests rounds s + requests) u

namespace Course

variable {s t : Session} {calls : List Call} {past : List Machine} {requests : Nat}

theorem moves (h : Course s calls past requests t) : Session.Moves s past t := by
  induction h with
  | nil s => exact .refl s
  | underWay rounds s c => exact c.reached_moves rounds s
  | @cons rounds _ s _ _ c _ _ _ hc _ ih =>
    have hfirst := c.reached_moves rounds s
    rw [Call.reached_of_perform hc] at hfirst
    exact hfirst.trans ih

theorem waits (h : Course s calls past requests t) : past.countP (·.waiting) = requests := by
  induction h with
  | nil => rfl
  | underWay rounds s c => exact c.waits_tried rounds s
  | cons _ _ ih => rw [List.countP_append, Call.waits_tried, ih]

theorem refusals {image : List Word} (h : Course s calls past requests t)
    (hb : s.machine.Bounded image) :
    s.machine.status.refusals + past.countP (·.refused) = t.machine.status.refusals := by
  induction h with
  | nil => rfl
  | underWay rounds s c => exact c.refusals_tried hb rounds
  | @cons rounds _ s _ _ c _ _ _ hc _ ih =>
    have hfirst := c.refusals_tried hb rounds
    obtain ⟨hnext, -⟩ := (c.reached_moves rounds s).bounded hb
    rw [Call.reached_of_perform hc] at hfirst hnext
    rw [List.countP_append, ← Nat.add_assoc, hfirst]
    exact ih hnext

end Course

/-- **The trace is complete.** Whatever calls are made on an image booted with the lowest threshold,
the lines of the trace are those of the instructions tried, in their order, each with the address,
the name and the operand words that memory held before it was tried. There are as many as the
cycles, the requests for input and the refused instruction, if there is one, come to. -/
theorem trace_complete {image : List Word} {advance : Advance} {calls : List Call}
    {past : List Machine} {requests : Nat} {t : Session}
    (h : Course (.boot { threshold := .trace } image advance) calls past requests t)
    (hcycles : completions past < UInt64.size) :
    traces t.journal.remarks.toList = past.filterMap (·.traceText?) ∧
    (traces t.journal.remarks.toList).length =
      t.machine.cycles.toNat + requests + t.machine.status.refusals := by
  have hlines : traces t.journal.remarks.toList = past.filterMap (·.traceText?) := by
    obtain ⟨-, htraces⟩ := h.moves.extends_trace (Journal.threshold_noteAll _ _)
    rw [htraces, Session.traces_boot, List.nil_append]
  have hcount : t.machine.cycles.toNat = completions past := by
    have hbound : (0 : UInt64).toNat + completions past < UInt64.size := by
      rwa [UInt64.toNat_zero, Nat.zero_add]
    rw [h.moves.cycles]
    exact (toNat_add_ofNat hbound).trans (Nat.zero_add _)
  have hrefusals : past.countP (·.refused) = t.machine.status.refusals := by
    have hall := h.refusals (Machine.Bounded.boot image advance)
    have hboot : (Machine.boot image advance).status.refusals = 0 := by
      unfold Machine.boot
      dsimp only
      split <;> rfl
    rwa [Session.machine_boot, hboot, Nat.zero_add] at hall
  refine ⟨hlines, ?_⟩
  rw [hlines, length_traced, hcount, h.waits, hrefusals]

/-- One more instruction at the beginning of a course. -/
theorem Course.execute_one {s t u : Session} {cs : List Call} {past : List Machine} {requests : Nat}
    {event : Option Event} (hrun : s.machine.status = .running)
    (hevent : s.machine.step.event = event) (hnext : (s.execute 1).2 = t)
    (h : Course t cs past requests u) :
    Course s (.execute 1 :: cs) (s.machine :: past)
      ((if event = some .input then 1 else 0) + requests) u := by
  subst hnext
  have hperform : Call.perform 0 s (.execute 1) = some (_, (s.execute 1).2) := rfl
  have hcons := Course.cons hperform h
  rwa [Call.tried, Call.requests, Session.trail_one hrun, Session.event_execute_one hrun,
    hevent] at hcons

/-- Reads a character and pops a word that was never pushed. -/
def unpushedImage : List Word := [20, 32768, 3, 32769]

theorem course_unpushed {mem : Memory} (h₀ : mem.fetch 0 = .ok (.input 32768))
    (h₂ : mem.fetch 2 = .ok (.pop 32769)) {s : Session}
    (hs : s.machine = { memory := mem, advance := .flat }) :
    ∃ past t, Course s [.execute 1, .enter "a", .execute 1, .execute 1] past 1 t ∧
      completions past < UInt64.size ∧ t.machine.status.refusals = 1 ∧
      past.filterMap (·.traceText?) =
        ["00000 IN [32768]", "00000 IN [32768]", "00002 POP [32769]"] := by
  -- there is nothing to read at first
  have hrun : s.machine.status = .running := by rw [hs]
  have hwaits : s.machine.attempt = .waits (.input 32768) := by
    rw [hs, Machine.attempt_eq_waits_iff]
    exact ⟨h₀, rfl⟩
  have hasks := Machine.event_of_waits hwaits
  generalize hs₁ : (s.execute 1).2.enter "a" = s₁
  have hm₁ : s₁.machine =
      { memory := mem, advance := .flat, input := ⟨['a', '\n'], false⟩ } := by
    rw [← hs₁, Session.machine_enter, Session.machine_execute_one hrun,
      (Machine.waits_of_event hasks).2, hs]
    rfl
  -- the line lets the same instruction be completed
  have hrun₁ : s₁.machine.status = .running := by rw [hm₁]
  have hdst : Operand.decode 32768 = .ok (.register 0) := Operand.decode_encode (.register 0)
  obtain ⟨hread, hm₂⟩ := Session.execute_one_of_rules hm₁ rfl h₀ (.inputRegister hdst rfl)
  simp only [Machine.follow] at hread hm₂
  rw [Machine.proceed_of_fetch h₂] at hread hm₂
  have hreads : s₁.machine.step.event = none :=
    (Session.event_execute_one hrun₁).symm.trans (congrArg Prod.fst hread)
  generalize hs₂ : (s₁.execute 1).2 = s₂ at hread hm₂
  -- the next one finds the stack empty
  have hrun₂ : s₂.machine.status = .running := by rw [hm₂]; rfl
  have hpc₂ : s₂.machine.pc = 2 := by rw [hm₂]; rfl
  have hpop : s₂.machine.memory.fetch s₂.machine.pc = .ok (.pop 32769) := by rw [hm₂]; exact h₂
  have hfaults : s₂.machine.step.event =
      some (.fault ((Fault.stackUnderflow Machine.underflowDetail).located s₂.machine.pc)) := by
    rw [Machine.event_eq_fault_iff, Machine.fault?_of_fetch hpop, hm₂]
    rfl
  have hend : (s₂.execute 1).2.machine.status.refusals = 1 := by
    rw [Session.machine_execute_one hrun₂, Machine.machine_step_of_fault hfaults]
    rfl
  have hlast : Course s₂ [.execute 1] [s₂.machine] 0 (s₂.execute 1).2 :=
    .execute_one hrun₂ hfaults rfl (.nil _)
  have hline : Course s₁ [.execute 1, .execute 1] [s₁.machine, s₂.machine] 0 (s₂.execute 1).2 :=
    .execute_one hrun₁ hreads hs₂ hlast
  have hperform : Call.perform 0 (s.execute 1).2 (.enter "a") =
      some ({ entered := ["a"], answer := .done }, s₁) := by
    rw [← hs₁]
    rfl
  have hwhole := Course.execute_one hrun hasks rfl (.cons hperform hline)
  refine ⟨[s.machine, s₁.machine, s₂.machine], _, hwhole, ?_, hend, ?_⟩
  · have hthree : 3 < UInt64.size := by decide
    exact Nat.lt_of_le_of_lt (List.length_filterMap_le _ _) hthree
  · have hf : s.machine.memory.fetch s.machine.pc = .ok (.input 32768) := by rw [hs]; exact h₀
    have hf₁ : s₁.machine.memory.fetch s₁.machine.pc = .ok (.input 32768) := by rw [hm₁]; exact h₀
    have hpc : s.machine.pc = 0 := by rw [hs]
    have hpc₁ : s₁.machine.pc = 0 := by rw [hm₁]
    simp only [List.filterMap_cons, Machine.traceText?_of_fetch hf, Machine.traceText?_of_fetch hf₁,
      Machine.traceText?_of_fetch hpop, hpc, hpc₁, hpc₂, List.filterMap_nil]
    decide

/-- The trace shows the waiting instruction twice and the refused one once. -/
theorem trace_complete_of_unpushed :
    ∃ past t, Course (.boot { threshold := .trace } unpushedImage .flat)
        [.execute 1, .enter "a", .execute 1, .execute 1] past 1 t ∧
      traces t.journal.remarks.toList =
        ["00000 IN [32768]", "00000 IN [32768]", "00002 POP [32769]"] ∧
      t.machine.cycles.toNat = 1 ∧ t.machine.status.refusals = 1 := by
  obtain ⟨mem, s, hboot, hs, -, hfetch⟩ :=
    Session.boot_of_le { threshold := .trace } unpushedImage .flat (by decide)
  have h₀ : mem.fetch 0 = .ok (.input 32768) := hfetch ⟨_, rfl⟩
  have h₂ : mem.fetch 2 = .ok (.pop 32769) := hfetch ⟨_, rfl⟩
  obtain ⟨past, t, hcourse, hcycles, hrefusals, htexts⟩ := course_unpushed h₀ h₂ hs
  rw [← hboot] at hcourse
  obtain ⟨hlines, hcount⟩ := trace_complete hcourse hcycles
  rw [htexts] at hlines
  rw [hlines, hrefusals, List.length_cons, List.length_cons, List.length_singleton] at hcount
  exact ⟨past, t, hcourse, hlines, by omega, hrefusals⟩

end Wordcode
