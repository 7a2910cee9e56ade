import Wordcode.Proofs.Host.Lockstep
import Wordcode.Proofs.Host.Output

/-! What verbosity changes. A journal with a higher threshold keeps fewer remarks, and keeping fewer
is all that a threshold does: a session whose journal is raised to a threshold goes through the same
course, call by call, and writes of its remarks those that reach it. `chronicle` sets down a course,
calls that never return included, so that two of them can be compared entry by entry. -/

namespace Wordcode

universe u v

/-! ## Journals with a higher threshold -/

namespace Journal

/-- The journal as it would have been kept with this threshold. -/
def above (j : Journal) (low : Level) : Journal :=
  ⟨low, j.remarks.filter (low ≤ ·.level)⟩

variable {j : Journal} {low : Level}

/-- What the lower threshold holds back, the higher one would hold back as well. -/
theorem above_note (h : j.threshold ≤ low) (r : Remark) :
    (j.note r).above low = (j.above low).note r := by
  obtain ⟨threshold, remarks⟩ := j
  change threshold ≤ low at h
  simp only [note, above]
  -- a remark that reaches the higher threshold reaches the lower one
  by_cases hlow : low ≤ r.level
  · simp [hlow, Level.le_trans h hlow]
  · by_cases hthreshold : threshold ≤ r.level
    · simp [hlow, hthreshold]
    · simp [hlow, hthreshold]

theorem above_noteAll (h : j.threshold ≤ low) (rs : List Remark) :
    (j.noteAll rs).above low = (j.above low).noteAll rs := by
  induction rs generalizing j with
  | nil => rfl
  | cons r rs ih =>
    have hrest := ih (j := j.note r) (by rwa [threshold_note])
    rw [above_note h] at hrest
    exact hrest

end Journal

namespace Session

/-- The session with its journal raised to a threshold. -/
def above (s : Session) (low : Level) : Session :=
  ⟨s.machine, s.journal.above low⟩

/-- The second session is the first with a journal of a higher threshold. -/
structure Raised (low : Level) (s t : Session) : Prop where
  threshold : s.journal.threshold ≤ low
  eq : t = s.above low

theorem Raised.machine {low : Level} {s t : Session} (h : Raised low s t) :
    t.machine = s.machine :=
  congrArg (·.machine) h.eq

theorem Raised.remarks {low : Level} {s t : Session} (h : Raised low s t) :
    t.journal.remarks.toList = s.journal.remarks.toList.filter (low ≤ ·.level) := by
  rw [h.eq]
  exact Array.toList_filter

theorem Raised.noteAll {low : Level} {s t : Session} (h : Raised low s t) (m : Machine)
    (rs : List Remark) :
    Raised low ⟨m, s.journal.noteAll rs⟩ ⟨m, t.journal.noteAll rs⟩ := by
  obtain ⟨hle, rfl⟩ := h
  refine ⟨?_, ?_⟩
  · rwa [Journal.threshold_noteAll]
  · exact congrArg (Session.mk m) (Journal.above_noteAll hle rs).symm

/-- Raising the journal and going on come to the same in either order. -/
theorem Raised.lockstep (low : Level) : Lockstep (fun _ => True) (Raised low) where
  status h := congrArg Machine.status h.machine
  pc h := congrArg Machine.pc h.machine
  step {s t} h _ := by
    refine ⟨congrArg (·.step.event) h.machine, ?_⟩
    have hnoted := h.noteAll s.machine.step.machine s.machine.step.remarks
    obtain ⟨-, rfl⟩ := h
    exact hnoted
  enter {s t} line h := by
    have hnoted := h.noteAll (s.machine.enter line) [.queued (s.machine.enter line).input.size]
    obtain ⟨-, rfl⟩ := h
    exact hnoted
  close {s t} h := by
    have hnoted := h.noteAll s.machine.close [.closed]
    obtain ⟨-, rfl⟩ := h
    exact hnoted
  fail {s t} f h := by
    have hnoted := h.noteAll (s.machine.fail f) [.faulted s.machine.cycles s.machine.registers]
    obtain ⟨-, rfl⟩ := h
    exact hnoted

theorem Raised.boot {threshold low : Level} (h : threshold ≤ low) (image : List Word)
    (advance : Advance) :
    Raised low (Session.boot { threshold := threshold } image advance)
      (Session.boot { threshold := low } image advance) := by
  refine ⟨?_, ?_⟩
  · unfold Session.boot
    rwa [Journal.threshold_noteAll]
  · unfold Session.boot above
    rw [Journal.above_noteAll h]
    rfl

/-! ## Journals only grow -/

theorem Move.remarks {s t : Session} {now : List Machine} (h : Move s now t) :
    s.journal.remarks.toList <+: t.journal.remarks.toList := by
  cases h with
  | step =>
    change _ <+: (s.journal.noteAll s.machine.step.remarks).remarks.toList
    rw [Journal.remarks_noteAll]
    exact List.prefix_append _ _
  | enter | close | broken =>
    change _ <+: (s.journal.note _).remarks.toList
    rw [Journal.remarks_note]
    exact List.prefix_append _ _

theorem Moves.remarks {s t : Session} {past : List Machine} (h : Moves s past t) :
    s.journal.remarks.toList <+: t.journal.remarks.toList := by
  induction h with
  | refl => exact List.prefix_rfl
  | tail _ hm ih => exact ih.trans hm.remarks

end Session

/-! ## Calls under way -/

section

variable {σ : Type u} {κ : Type v} [LineSource σ] [Sink κ] {r r' t : Run σ κ}

theorem Lockstep.after {P : Machine → Prop} {Agree : Session → Session → Prop}
    (hl : Lockstep P Agree) {rounds : Nat} (h : r.Paired Agree r')
    (hP : ∀ m ∈ r.trail rounds, P m) : (r.after rounds).Paired Agree (r'.after rounds) := by
  induction rounds generalizing r r' with
  | zero => exact h
  | succ rounds ih =>
    simp only [Run.trail] at hP
    have hround := hl.round h fun m hm => hP m (List.mem_append_left _ hm)
    simp only [Run.after]
    generalize hr : r.round Run.slice = round at hround
    generalize r'.round Run.slice = round' at hround
    rw [hr] at hP
    cases hround with
    | goesOn hpaired => exact ih hpaired fun m hm => hP m (List.mem_append_right _ hm)
    | ends hpaired => exact hpaired

end

/-- A source and a sink in use. -/
inductive Streams : Type 1 where
  | mk {σ κ : Type} (source : σ) (sink : κ)

namespace Call

/-- The session a call has come to, a run after at most so many rounds. -/
def reached (rounds : Nat) (s : Session) : Call → Session
  | execute budget => (s.execute budget).2
  | enter line => s.enter line
  | close => s.close
  | run source sink => (Run.after rounds ⟨s, source, sink⟩).session

/-- The streams of a run after at most so many rounds. -/
def streams (rounds : Nat) (s : Session) : Call → Option Streams
  | execute _ | enter _ | close => none
  | run source sink =>
    let t := Run.after rounds ⟨s, source, sink⟩
    some (.mk t.source t.sink)

/-- The remarks made since the call. -/
def written (rounds : Nat) (s : Session) (c : Call) : List Remark :=
  (c.reached rounds s).journal.remarks.toList.drop s.journal.remarks.size

variable {c : Call} {s t : Session} {rounds : Nat}

/-- A call that returns leaves what it has come to. -/
theorem reached_of_perform {report : Report} (h : c.perform rounds s = some (report, t)) :
    c.reached rounds s = t := by
  cases c with
  | execute | enter | close =>
    cases h
    rfl
  | run source sink =>
    obtain ⟨⟨result, last⟩, hd, ht⟩ := Option.map_eq_some_iff.mp h
    cases ht
    exact congrArg (·.session) (Run.after_of_drive hd)

theorem reached_moves (rounds : Nat) (s : Session) (c : Call) :
    Session.Moves s (c.tried rounds s) (c.reached rounds s) := by
  cases c with
  | execute budget => exact Session.execute_moves budget s
  | enter line => exact (Session.Move.enter s line).moves
  | close => exact (Session.Move.close s).moves
  | run source sink => exact Run.trail_moves rounds ⟨s, source, sink⟩

/-- What was written before the call and since makes up the journal. -/
theorem remarks_reached (rounds : Nat) (s : Session) (c : Call) :
    (c.reached rounds s).journal.remarks.toList =
      s.journal.remarks.toList ++ c.written rounds s := by
  obtain ⟨rest, hrest⟩ := (c.reached_moves rounds s).remarks
  unfold written
  rw [← hrest, ← Array.length_toList, List.drop_left]

/-! ## Calls with a raised journal -/

variable {low : Level}

theorem after_raised {σ κ : Type} [LineSource σ] [Sink κ] (h : Session.Raised low s t)
    (source : σ) (sink : κ) (rounds : Nat) :
    Run.Paired (Session.Raised low) (Run.after rounds ⟨s, source, sink⟩)
      (Run.after rounds ⟨t, source, sink⟩) :=
  (Session.Raised.lockstep low).after ⟨h, rfl, rfl⟩ fun _ _ => trivial

theorem reached_raised (h : Session.Raised low s t) (rounds : Nat) (c : Call) :
    Session.Raised low (c.reached rounds s) (c.reached rounds t) := by
  have hl := Session.Raised.lockstep low
  cases c with
  | execute budget => exact (hl.execute h fun _ _ => trivial).2
  | enter line => exact hl.enter line h
  | close => exact hl.close h
  | run source sink => exact (after_raised h source sink rounds).session

theorem streams_raised (h : Session.Raised low s t) (rounds : Nat) (c : Call) :
    c.streams rounds t = c.streams rounds s := by
  cases c with
  | execute | enter | close => rfl
  | run source sink =>
    have hafter := after_raised h source sink rounds
    simp only [streams, hafter.source, hafter.sink]

theorem answer_raised (h : Session.Raised low s t) (rounds : Nat) (c : Call) :
    (c.perform rounds t).map (·.1.answer) = (c.perform rounds s).map (·.1.answer) := by
  have hrel : Option.Rel _ (c.perform rounds s) (c.perform rounds t) :=
    (Session.Raised.lockstep low).perform h fun _ _ => trivial
  generalize c.perform rounds s = done at hrel
  generalize c.perform rounds t = done' at hrel
  cases hrel with
  | none => rfl
  | some ha => exact congrArg some ha.1

/-- What the filter leaves of the journal, it leaves of what was written before and since. -/
theorem written_raised (h : Session.Raised low s t) (rounds : Nat) (c : Call) :
    c.written rounds t = (c.written rounds s).filter (low ≤ ·.level) := by
  have hall := (reached_raised h rounds c).remarks
  rw [c.remarks_reached rounds s, c.remarks_reached rounds t, List.filter_append, h.remarks] at hall
  exact List.append_cancel_left hall

end Call

/-! ## Chronicles -/

/-- What there is to say about a call: its answer, if it has returned, the machines on which it
tried an instruction, the machine and the streams it has come to, and the remarks it has made. -/
structure Entry : Type 1 where
  answer : Option Answer
  tried : List Machine
  machine : Machine
  streams : Option Streams
  remarks : List Remark

namespace Entry

/-- The entry without the remarks below this level. -/
def above (e : Entry) (low : Level) : Entry :=
  { e with remarks := e.remarks.filter (low ≤ ·.level) }

/-- The entry without its remarks. -/
def silent (e : Entry) : Entry :=
  { e with remarks := [] }

end Entry

def Call.entry (rounds : Nat) (s : Session) (c : Call) : Entry where
  answer := (c.perform rounds s).map (·.1.answer)
  tried := c.tried rounds s
  machine := (c.reached rounds s).machine
  streams := c.streams rounds s
  remarks := c.written rounds s

/-- The calls one after the other, a run for at most so many rounds. If it has not returned by then,
it has the last entry. -/
def chronicle (rounds : Nat) : Session → List Call → List Entry
  | _, [] => []
  | s, c :: cs =>
    c.entry rounds s ::
      if (c.entry rounds s).answer.isSome then chronicle rounds (c.reached rounds s) cs else []

theorem Call.entry_raised {low : Level} {s t : Session} (h : Session.Raised low s t)
    (rounds : Nat) (c : Call) : c.entry rounds t = (c.entry rounds s).above low := by
  unfold entry Entry.above
  rw [answer_raised h, tried_congr h.machine, (reached_raised h rounds c).machine,
    streams_raised h, written_raised h]

theorem chronicle_raised {low : Level} {s t : Session} (h : Session.Raised low s t)
    (rounds : Nat) (calls : List Call) :
    chronicle rounds t calls = (chronicle rounds s calls).map (·.above low) := by
  induction calls generalizing s t with
  | nil => rfl
  | cons c cs ih =>
    have hanswer : ((c.entry rounds s).above low).answer = (c.entry rounds s).answer := rfl
    simp only [chronicle, c.entry_raised h rounds, hanswer, List.map_cons]
    split
    · rw [ih (c.reached_raised h rounds)]
    · rfl

/-- A call that has returned does so with more rounds, too. -/
theorem Call.perform_add {c : Call} {s t : Session} {report : Report} {rounds : Nat}
    (h : c.perform rounds s = some (report, t)) (more : Nat) :
    ∃ report', c.perform (rounds + more) s = some (report', t) ∧
      report'.answer = report.answer := by
  cases c with
  | execute | enter | close => exact ⟨report, h, rfl⟩
  | run source sink =>
    obtain ⟨⟨result, last⟩, hd, ht⟩ := Option.map_eq_some_iff.mp h
    cases ht
    exact ⟨_, congrArg (Option.map _) (Run.drive_add hd more), rfl⟩

/-- Calls that all return are all in the chronicle, with their answers. -/
theorem Plays.chronicle {s t : Session} {calls : List Call} {reports : List Report}
    (h : Plays s calls reports t) :
    ∃ rounds, ∀ more, (Wordcode.chronicle (rounds + more) s calls).map (·.answer) =
      reports.map (some ·.answer) := by
  induction h with
  | nil s => exact ⟨0, fun more => rfl⟩
  | @cons s t u c r cs rs hc _ ih =>
    obtain ⟨n, hc⟩ := hc
    obtain ⟨n', ih⟩ := ih
    refine ⟨n + n', fun more => ?_⟩
    obtain ⟨r', hc', hanswer⟩ := Call.perform_add hc (n' + more)
    rw [← Nat.add_assoc] at hc'
    have hrest := ih (n + more)
    rw [← Nat.add_assoc, Nat.add_comm n' n] at hrest
    have hentry : (c.entry (n + n' + more) s).answer = some r.answer := by
      simp only [Call.entry, hc', Option.map_some, hanswer]
    simp only [Wordcode.chronicle, hentry, Option.isSome_some, if_true, Call.reached_of_perform hc',
      List.map_cons, hrest]

/-! ## Verbosity -/

/-- The session that a host of this verbosity boots. -/
def Session.atVerbosity (v : Nat) (image : List Word) (advance : Advance) : Session :=
  boot { threshold := .ofVerbosity v } image advance

theorem Session.Raised.atVerbosity (v : Nat) (image : List Word) (advance : Advance) :
    Raised (.ofVerbosity v) (Session.atVerbosity 3 image advance)
      (Session.atVerbosity v image advance) :=
  .boot (Level.trace_le _) image advance

/-- **Verbosity filters the journal and does nothing else.** With whatever verbosity an image is
booted, all calls get the same answers, go through the same machines and leave the same streams; the
remarks made by booting and by each call are those of the highest verbosity without the ones below
the threshold. -/
theorem verbosity_only_filters (image : List Word) (advance : Advance) (calls : List Call)
    (rounds : Nat) :
    (∀ v w,
      (Session.atVerbosity v image advance).machine =
        (Session.atVerbosity w image advance).machine ∧
      (chronicle rounds (Session.atVerbosity v image advance) calls).map Entry.silent =
        (chronicle rounds (Session.atVerbosity w image advance) calls).map Entry.silent) ∧
    (∀ v,
      (Session.atVerbosity v image advance).journal.remarks.toList =
        (Session.atVerbosity 3 image advance).journal.remarks.toList.filter
          (.ofVerbosity v ≤ ·.level) ∧
      chronicle rounds (Session.atVerbosity v image advance) calls =
        (chronicle rounds (Session.atVerbosity 3 image advance) calls).map
          (·.above (.ofVerbosity v))) ∧
    ∀ (c : Call) (s : Session), (c.reached rounds s).journal.remarks.toList =
      s.journal.remarks.toList ++ (c.entry rounds s).remarks := by
  have hfilter (v : Nat) := chronicle_raised (.atVerbosity v image advance) rounds calls
  refine ⟨fun v w => ⟨rfl, ?_⟩, fun v => ⟨?_, hfilter v⟩, ?_⟩
  · have hsilent (v : Nat) : Entry.silent ∘ (·.above (.ofVerbosity v)) = Entry.silent := rfl
    rw [hfilter v, hfilter w, List.map_map, List.map_map, hsilent, hsilent]
  · exact (Session.Raised.atVerbosity v image advance).remarks
  · exact fun c s => c.remarks_reached rounds s

end Wordcode
