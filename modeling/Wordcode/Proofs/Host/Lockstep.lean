import Wordcode.Proofs.Host.Calls

/-! Sessions in step. If two sessions agree in some way, and one more instruction keeps them in
agreement and raises the same event on both, then no call of the host tells them apart: it gets
the same answers from both, and both keep agreeing. The instructions may be subject to a
condition; it is asked of one of the two sessions only, and of a run that never ends it is
asked at every instruction. Sessions with the same machine agree in all but their journals, and
without a condition. -/

namespace Wordcode

/-! ## Conditions along calls -/

/-- Every instruction that is tried in the course of the calls is tried on a machine with this
property, also in a call that never returns. -/
def Along (P : Machine → Prop) : Session → List Call → Prop
  | _, [] => True
  | s, c :: cs =>
    (∀ rounds, ∀ m ∈ c.tried rounds s, P m) ∧ ∀ r t, c.Performs s r t → Along P t cs

/-- The property holds along the first of the calls. -/
theorem Along.initial {P : Machine → Prop} {s : Session} {made calls : List Call}
    (h : Along P s calls) (hmade : made <+: calls) : Along P s made := by
  induction made generalizing s calls with
  | nil => trivial
  | cons c made ih =>
    obtain ⟨rest, rfl⟩ := hmade
    exact ⟨h.1, fun r t hc => ih (h.2 r t hc) (List.prefix_append made rest)⟩

universe u v

namespace Run

variable {σ : Type u} {κ : Type v} [LineSource σ] [Sink κ]

/-- A run that has ended tries no more instructions. -/
theorem mem_trail_of_drive {rounds n : Nat} {r : Run σ κ}
    {answer : Except Fault Unit × Run σ κ} (h : r.drive rounds = some answer) {m : Machine}
    (hm : m ∈ r.trail n) : m ∈ r.trail rounds := by
  induction rounds generalizing r n with
  | zero => cases h
  | succ rounds ih =>
    cases n with
    | zero => cases hm
    | succ n =>
      simp only [drive, trail] at h hm ⊢
      cases hround : r.round slice with
      | ends result t =>
        rw [hround] at hm
        exact hm
      | goesOn t =>
        rw [hround] at h hm
        rcases List.mem_append.mp hm with hm | hm
        · exact List.mem_append_left _ hm
        · exact List.mem_append_right _ (ih h hm)

end Run

namespace Call.Performs

variable {c : Call} {s t t' : Session} {r r' : Report}

theorem unique (h : c.Performs s r t) (h' : c.Performs s r' t') : t = t' := by
  obtain ⟨n, h⟩ := h
  obtain ⟨n', h'⟩ := h'
  cases c with
  | execute | enter | close =>
    cases h
    cases h'
    rfl
  | run source sink =>
    obtain ⟨answer, hd, ht⟩ := Option.map_eq_some_iff.mp h
    obtain ⟨answer', hd', ht'⟩ := Option.map_eq_some_iff.mp h'
    cases Run.drive_unique hd hd'
    cases ht
    cases ht'
    rfl

theorem mem_tried (h : c.Performs s r t) {n : Nat} {m : Machine} (hm : m ∈ c.tried n s) :
    m ∈ r.tried := by
  obtain ⟨rounds, h⟩ := h
  cases c with
  | execute | enter | close =>
    cases h
    exact hm
  | run source sink =>
    obtain ⟨answer, hd, hr⟩ := Option.map_eq_some_iff.mp h
    cases hr
    exact Run.mem_trail_of_drive hd hm

end Call.Performs

/-- What the reports show is all that was tried. -/
theorem Plays.along {P : Machine → Prop} {s t : Session} {calls : List Call}
    {reports : List Report} (h : Plays s calls reports t)
    (hP : ∀ m ∈ Report.trail reports, P m) : Along P s calls := by
  induction h with
  | nil => trivial
  | cons hc _ ih =>
    refine ⟨?_, ?_⟩
    · intro rounds m hm
      exact hP m (List.mem_append_left _ (hc.mem_tried hm))
    · intro r' t' hc'
      rw [← hc.unique hc']
      exact ih fun m hm => hP m (List.mem_append_right _ hm)

/-- The calls return from both sessions or from neither, with the same answers, and the sessions
they leave agree. -/
def Alike (Agree : Session → Session → Prop) (s s' : Session) (calls : List Call) : Prop :=
  (∀ reports t, Plays s calls reports t → ∃ reports' t', Plays s' calls reports' t' ∧
    reports'.map (·.answer) = reports.map (·.answer) ∧ Agree t t') ∧
  ∀ reports' t', Plays s' calls reports' t' → ∃ reports t, Plays s calls reports t ∧
    reports'.map (·.answer) = reports.map (·.answer) ∧ Agree t t'

theorem Alike.imp {Agree Agree' : Session → Session → Prop} {s s' : Session} {calls : List Call}
    (h : Alike Agree s s' calls) (himp : ∀ t t', Agree t t' → Agree' t t') :
    Alike Agree' s s' calls := by
  obtain ⟨hforth, hback⟩ := h
  refine ⟨?_, ?_⟩
  · intro reports t hplays
    obtain ⟨reports', t', hplays', hanswers, hagree⟩ := hforth reports t hplays
    exact ⟨reports', t', hplays', hanswers, himp t t' hagree⟩
  · intro reports' t' hplays'
    obtain ⟨reports, t, hplays, hanswers, hagree⟩ := hback reports' t' hplays'
    exact ⟨reports, t, hplays, hanswers, himp t t' hagree⟩

/-! ## Agreement that steps keep -/

/-- Agreeing sessions have the same status and program counter, and what happens to both keeps
them in agreement; an instruction does so if it is tried on a machine with the property `P`. -/
structure Lockstep (P : Machine → Prop) (Agree : Session → Session → Prop) : Prop where
  status {s t : Session} : Agree s t → t.machine.status = s.machine.status
  pc {s t : Session} : Agree s t → t.machine.pc = s.machine.pc
  step {s t : Session} : Agree s t → P s.machine →
    t.step.1 = s.step.1 ∧ Agree s.step.2 t.step.2
  enter {s t : Session} (line : String) : Agree s t → Agree (s.enter line) (t.enter line)
  close {s t : Session} : Agree s t → Agree s.close t.close
  fail {s t : Session} (f : Fault) : Agree s t → Agree (s.fail f) (t.fail f)

/-- Runs of agreeing sessions with the same source and the same sink. -/
structure Run.Paired {σ : Type u} {κ : Type v} (Agree : Session → Session → Prop)
    (r r' : Run σ κ) : Prop where
  session : Agree r.session r'.session
  source : r'.source = r.source
  sink : r'.sink = r.sink

inductive Round.Paired {σ : Type u} {κ : Type v} (Agree : Session → Session → Prop) :
    Round σ κ → Round σ κ → Prop where
  | goesOn {r r' : Run σ κ} : r.Paired Agree r' → Paired Agree (.goesOn r) (.goesOn r')
  | ends {result : Except Fault Unit} {r r' : Run σ κ} : r.Paired Agree r' →
      Paired Agree (.ends result r) (.ends result r')

namespace Lockstep

variable {P : Machine → Prop} {Agree : Session → Session → Prop}

theorem spend (hl : Lockstep P Agree) {budget : Nat} {s t : Session} (h : Agree s t)
    (hP : ∀ m ∈ s.tries budget, P m) :
    (t.spend budget).1 = (s.spend budget).1 ∧ Agree (s.spend budget).2 (t.spend budget).2 := by
  induction budget generalizing s t with
  | zero => exact ⟨rfl, h⟩
  | succ budget ih =>
    simp only [Session.tries] at hP
    have hhere : P s.machine := by
      apply hP
      split <;> simp
    obtain ⟨hevent, hagree⟩ := hl.step h hhere
    simp only [Session.spend]
    cases hs : s.step with
    | mk event s' =>
      cases ht : t.step with
      | mk event' t' =>
        rw [hs, ht] at hevent hagree
        cases hevent
        cases event with
        | some event => exact ⟨rfl, hagree⟩
        | none =>
          rw [hs] at hP
          exact ih hagree fun m hm => hP m (List.mem_cons_of_mem _ hm)

theorem execute (hl : Lockstep P Agree) {budget : Nat} {s t : Session} (h : Agree s t)
    (hP : ∀ m ∈ s.trail budget, P m) :
    (t.execute budget).1 = (s.execute budget).1 ∧
      Agree (s.execute budget).2 (t.execute budget).2 := by
  have hstatus := hl.status h
  cases hrun : s.machine.status with
  | running =>
    rw [Session.execute_of_running hrun, Session.execute_of_running (hstatus.trans hrun)]
    simp only [Session.trail, hrun] at hP
    exact hl.spend h hP
  | halted | faulted f =>
    rw [hrun] at hstatus
    unfold Session.execute
    rw [hrun, hstatus]
    exact ⟨rfl, h⟩

theorem breaks {σ : Type u} {κ : Type v} (hl : Lockstep P Agree) {s t : Session}
    (h : Agree s t) (source : σ) (sink : κ) (e : StreamError) :
    Round.Paired Agree (Run.breaks s source sink e) (Run.breaks t source sink e) := by
  unfold Run.breaks
  rw [hl.pc h]
  exact .ends ⟨hl.fail _ h, rfl, rfl⟩

variable {σ : Type u} {κ : Type v} [LineSource σ] [Sink κ]

theorem round (hl : Lockstep P Agree) {slice : Nat} {r r' : Run σ κ} (h : r.Paired Agree r')
    (hP : ∀ m ∈ r.session.trail slice, P m) :
    (r.round slice).Paired Agree (r'.round slice) := by
  obtain ⟨s, source, sink⟩ := r
  obtain ⟨t, source', sink'⟩ := r'
  obtain ⟨hagree, rfl, rfl⟩ := h
  obtain ⟨hevent, hagree⟩ := hl.execute hagree hP
  simp only [Run.round]
  cases hs : s.execute slice with
  | mk event s' =>
    cases ht : t.execute slice with
    | mk event' t' =>
      rw [hs, ht] at hevent hagree
      cases hevent
      rcases event with _ | ⟨c⟩ | _ | _ | ⟨f⟩
      · exact .goesOn ⟨hagree, rfl, rfl⟩
      · dsimp only
        split
        · exact .goesOn ⟨hagree, rfl, rfl⟩
        · exact hl.breaks hagree _ _ _
      · dsimp only
        split
        · exact .goesOn ⟨hl.enter _ hagree, rfl, rfl⟩
        · exact .goesOn ⟨hl.close hagree, rfl, rfl⟩
        · exact hl.breaks hagree _ _ _
      · exact .ends ⟨hagree, rfl, rfl⟩
      · exact .ends ⟨hagree, rfl, rfl⟩

/-- After so many rounds either both runs have ended, and in the same way, or neither has. -/
theorem drive (hl : Lockstep P Agree) {rounds : Nat} {r r' : Run σ κ} (h : r.Paired Agree r')
    (hP : ∀ m ∈ r.trail rounds, P m) :
    Option.Rel (fun a a' => a'.1 = a.1 ∧ a.2.Paired Agree a'.2) (r.drive rounds)
      (r'.drive rounds) := by
  induction rounds generalizing r r' with
  | zero => exact .none
  | succ rounds ih =>
    simp only [Run.trail] at hP
    have hround := hl.round h fun m hm => hP m (List.mem_append_left _ hm)
    simp only [Run.drive]
    generalize hr : r.round Run.slice = round at hround
    generalize r'.round Run.slice = round' at hround
    rw [hr] at hP
    cases hround with
    | goesOn hpaired => exact ih hpaired fun m hm => hP m (List.mem_append_right _ hm)
    | ends hpaired => exact .some ⟨rfl, hpaired⟩

/-! ## Calls -/

/-- Within so many rounds a call returns from both sessions, with the same answer, or from
neither. -/
theorem perform (hl : Lockstep P Agree) {c : Call} {rounds : Nat} {s s' : Session}
    (h : Agree s s') (hP : ∀ m ∈ c.tried rounds s, P m) :
    Option.Rel (fun a a' => a'.1.answer = a.1.answer ∧ Agree a.2 a'.2) (c.perform rounds s)
      (c.perform rounds s') := by
  cases c with
  | execute budget =>
    obtain ⟨hevent, hagree⟩ := hl.execute h hP
    exact .some ⟨congrArg Answer.event hevent, hagree⟩
  | enter line => exact .some ⟨rfl, hl.enter line h⟩
  | close => exact .some ⟨rfl, hl.close h⟩
  | run source sink =>
    have hpaired : Run.Paired Agree ⟨s, source, sink⟩ ⟨s', source, sink⟩ := ⟨h, rfl, rfl⟩
    have hdrive := hl.drive hpaired hP
    simp only [Call.perform]
    generalize Run.drive rounds ⟨s, source, sink⟩ = answer at hdrive ⊢
    generalize Run.drive rounds ⟨s', source, sink⟩ = answer' at hdrive ⊢
    cases hdrive with
    | none => exact .none
    | some ha =>
      obtain ⟨hresult, hagree, hsource, hsink⟩ := ha
      refine .some ⟨?_, hagree⟩
      dsimp only
      rw [hresult, hsource, hsink]

theorem performs (hl : Lockstep P Agree) {c : Call} {s s' : Session} (h : Agree s s')
    (hP : ∀ rounds, ∀ m ∈ c.tried rounds s, P m) :
    (∀ r t, c.Performs s r t →
      ∃ r' t', c.Performs s' r' t' ∧ r'.answer = r.answer ∧ Agree t t') ∧
    ∀ r' t', c.Performs s' r' t' →
      ∃ r t, c.Performs s r t ∧ r'.answer = r.answer ∧ Agree t t' := by
  refine ⟨?_, ?_⟩
  · rintro r t ⟨rounds, hc⟩
    have hrel := hl.perform h (hP rounds)
    rw [hc] at hrel
    generalize hc' : c.perform rounds s' = answer at hrel
    cases hrel with
    | some ha => exact ⟨_, _, ⟨rounds, hc'⟩, ha⟩
  · rintro r' t' ⟨rounds, hc'⟩
    have hrel := hl.perform h (hP rounds)
    rw [hc'] at hrel
    generalize hc : c.perform rounds s = answer at hrel
    cases hrel with
    | some ha => exact ⟨_, _, ⟨rounds, hc⟩, ha⟩

/-- **The host cannot tell agreeing sessions apart.** -/
theorem plays (hl : Lockstep P Agree) {calls : List Call} {s s' : Session} (h : Agree s s')
    (hP : Along P s calls) : Alike Agree s s' calls := by
  induction calls generalizing s s' with
  | nil =>
    refine ⟨?_, ?_⟩
    · intro reports t hplays
      cases hplays
      exact ⟨[], s', .nil s', rfl, h⟩
    · intro reports' t' hplays
      cases hplays
      exact ⟨[], s, .nil s, rfl, h⟩
  | cons c cs ih =>
    obtain ⟨hforth, hback⟩ := hl.performs h hP.1
    refine ⟨?_, ?_⟩
    · intro reports t hplays
      cases hplays with
      | cons hc hrest =>
        obtain ⟨r', u', hc', hanswer, hagree⟩ := hforth _ _ hc
        obtain ⟨rs', t', hrest', hanswers, hagree'⟩ := (ih hagree (hP.2 _ _ hc)).1 _ _ hrest
        refine ⟨r' :: rs', t', .cons hc' hrest', ?_, hagree'⟩
        rw [List.map_cons, List.map_cons, hanswer, hanswers]
    · intro reports' t' hplays
      cases hplays with
      | cons hc' hrest' =>
        obtain ⟨r, u, hc, hanswer, hagree⟩ := hback _ _ hc'
        obtain ⟨rs, t, hrest, hanswers, hagree'⟩ := (ih hagree (hP.2 _ _ hc)).2 _ _ hrest'
        refine ⟨r :: rs, t, .cons hc hrest, ?_, hagree'⟩
        rw [List.map_cons, List.map_cons, hanswer, hanswers]

end Lockstep

/-! ## Sessions with the same machine -/

/-- The machine is all that a session's course depends on. -/
theorem Session.lockstep_machine :
    Lockstep (fun _ => True) fun s t => t.machine = s.machine where
  status h := congrArg Machine.status h
  pc h := congrArg Machine.pc h
  step h _ := ⟨congrArg (·.step.event) h, congrArg (·.step.machine) h⟩
  enter line h := congrArg (·.enter line) h
  close h := congrArg Machine.close h
  fail f h := congrArg (·.fail f) h

theorem Session.tries_congr {s t : Session} (h : t.machine = s.machine) (budget : Nat) :
    t.tries budget = s.tries budget := by
  induction budget generalizing s t with
  | zero => rfl
  | succ budget ih =>
    obtain ⟨hevent, hmachine⟩ := lockstep_machine.step h trivial
    simp only [tries]
    cases hs : s.step with
    | mk event s' =>
      cases ht : t.step with
      | mk event' t' =>
        rw [hs, ht] at hevent hmachine
        cases hevent
        cases event with
        | some event => simp only [h]
        | none => simp only [h, ih hmachine]

theorem Session.trail_congr {s t : Session} (h : t.machine = s.machine) (budget : Nat) :
    t.trail budget = s.trail budget := by
  unfold trail
  rw [h, tries_congr h]

theorem Run.trail_congr {σ : Type u} {κ : Type v} [LineSource σ] [Sink κ] {r r' : Run σ κ}
    (h : r.Paired (fun s t => t.machine = s.machine) r') (rounds : Nat) :
    r'.trail rounds = r.trail rounds := by
  induction rounds generalizing r r' with
  | zero => rfl
  | succ rounds ih =>
    have hround := Session.lockstep_machine.round h
      (fun _ _ => trivial : ∀ m ∈ r.session.trail slice, True)
    simp only [trail, Session.trail_congr h.session]
    generalize r.round slice = round at hround
    generalize r'.round slice = round' at hround
    cases hround with
    | goesOn hpaired => simp only [ih hpaired]
    | ends hpaired => rfl

/-- The same instructions are tried, whatever the journals. -/
theorem Call.tried_congr {s t : Session} (h : t.machine = s.machine) (rounds : Nat) (c : Call) :
    c.tried rounds t = c.tried rounds s := by
  cases c with
  | execute budget => exact Session.trail_congr h budget
  | enter line | close => rfl
  | run source sink =>
    have hpaired : Run.Paired (fun s t => t.machine = s.machine) ⟨s, source, sink⟩
        ⟨t, source, sink⟩ := ⟨h, rfl, rfl⟩
    exact Run.trail_congr hpaired rounds

end Wordcode
