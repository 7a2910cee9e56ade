import Wordcode.Proofs.Host.Calls
import Wordcode.Proofs.Host.Faults
import Wordcode.Proofs.Machine.Reading

/-! Lines supplied early or on demand. A run asks its source for a line only when it cannot go on
without one, and it cannot tell whether a character it takes was entered long ago or just now.
So it comes out as if all lines had been put into its queue at the start, and the queue closed:
`Run.Fed` relates a run to one that is fed in advance, instruction by instruction. Two runs that
are fed the same characters in advance therefore end alike, however their lines are divided between
queue and source. -/

namespace Wordcode

universe u v w

/-! ## Requests -/

namespace Session

theorem closed_execute (budget : Nat) (s : Session) :
    (s.execute budget).2.machine.input.closed = s.machine.input.closed := by
  refine execute_keeps (Q := fun s _ t => t.machine.input.closed = s.machine.input.closed)
    (fun _ => rfl) ?_ (fun s => Machine.closed_step s.machine) budget s
  intro s t u past past' h h'
  exact h'.trans h

/-- A slice that asks for input has come to an instruction that waits for it. -/
theorem waits_of_execute {budget : Nat} {s t : Session}
    (h : s.execute budget = (some .input, t)) :
    t.machine.status = .running ∧ ∃ i, t.machine.attempt = .waits i := by
  unfold execute at h
  split at h
  · cases h
  · cases h
  · rename_i hrun
    obtain ⟨k, -, u, hu, hstep⟩ := spend_of_event h
    obtain ⟨hevent, hmachine⟩ := step_machine hstep
    obtain ⟨hwaits, hsame⟩ := Machine.waits_of_event hevent
    rw [← hmachine, hsame]
    exact ⟨(status_spend hu).trans hrun, hwaits⟩

/-- One instruction by the rules. -/
theorem execute_one_of_rules {s : Session} {m : Machine} (hs : s.machine = m)
    (hrun : m.status = .running) {i : Instr} {e : Effect} {flow : Flow}
    (hf : m.memory.fetch m.pc = .ok i) (ha : m.Acts i e flow) :
    s.execute 1 = (((m.apply e).tick.follow i flow).event, (s.execute 1).2) ∧
      (s.execute 1).2.machine = ((m.apply e).tick.follow i flow).machine := by
  subst hs
  have hstep := Machine.step_of_rules _ hf ha
  refine ⟨Prod.ext ?_ rfl, ?_⟩
  · rw [event_execute_one hrun, hstep]
    rfl
  · rw [machine_execute_one hrun, hstep]
    rfl

theorem waits_of_execute_one {s t : Session} (h : s.execute 1 = (some .input, t)) :
    s.machine.status = .running ∧ ∃ i, s.machine.attempt = .waits i := by
  cases hrun : s.machine.status with
  | running =>
    have hevent := event_execute_one hrun
    rw [h] at hevent
    exact ⟨rfl, (Machine.waits_of_event hevent.symm).1⟩
  | halted | faulted f =>
    unfold execute at h
    rw [hrun] at h
    cases h

/-- One instruction that does not wait does the same if more input is supplied in advance. -/
theorem execute_one_feed {s f : Session} {rest : List Char}
    (hm : f.machine = s.machine.feed rest)
    (hrest : s.machine.input.closed = true → rest = [])
    (hwait : s.machine.status = .running → ∀ i, s.machine.attempt ≠ .waits i) :
    (f.execute 1).1 = (s.execute 1).1 ∧
      (f.execute 1).2.machine = (s.execute 1).2.machine.feed rest := by
  have hstatus : f.machine.status = s.machine.status := congrArg (fun m => m.status) hm
  cases hrun : s.machine.status with
  | running =>
    rw [hrun] at hstatus
    rw [event_execute_one hrun, event_execute_one hstatus, machine_execute_one hrun,
      machine_execute_one hstatus, hm]
    exact Machine.step_feed (hwait hrun) hrest
  | halted | faulted e =>
    rw [hrun] at hstatus
    unfold execute
    rw [hrun, hstatus]
    exact ⟨rfl, hm⟩

end Session

/-! ## What a source supplies -/

section

variable {σ : Type u} {κ : Type v} [LineSource σ]

/-- The source yields these lines, and then none. -/
def Supplies : σ → List String → Prop
  | source, [] => (LineSource.readLine source).1 = .ok none
  | source, line :: lines =>
    (LineSource.readLine source).1 = .ok (some line) ∧
      Supplies (LineSource.readLine source).2 lines

theorem Supplies.unique {source : σ} {lines lines' : List String} (h : Supplies source lines)
    (h' : Supplies source lines') : lines = lines' := by
  induction lines generalizing source lines' with
  | nil =>
    cases lines' with
    | nil => rfl
    | cons line' rest' => cases h.symm.trans h'.1
  | cons line rest ih =>
    cases lines' with
    | nil => cases h'.symm.trans h.1
    | cons line' rest' =>
      cases h.1.symm.trans h'.1
      rw [ih h.2 h'.2]

namespace Run

/-- The lines the run can still read: the ones its source yields, and none once the input is
closed. -/
structure Unread (r : Run σ κ) (lines : List String) : Prop where
  closed : r.session.machine.input.closed = true → lines = []
  supplies : r.session.machine.input.closed = false → Supplies r.source lines

variable {r t : Run σ κ} {lines lines' : List String}

theorem Unread.unique (h : r.Unread lines) (h' : r.Unread lines') : lines = lines' := by
  cases hclosed : r.session.machine.input.closed with
  | true => rw [h.closed hclosed, h'.closed hclosed]
  | false => exact (h.supplies hclosed).unique (h'.supplies hclosed)

theorem Unread.congr (h : r.Unread lines)
    (hclosed : t.session.machine.input.closed = r.session.machine.input.closed)
    (hsource : t.source = r.source) : t.Unread lines := by
  refine ⟨?_, ?_⟩
  · rw [hclosed]
    exact h.closed
  · rw [hclosed, hsource]
    exact h.supplies

variable [Sink κ]

/-- The reply to a request leaves the lines unread that come after it. -/
theorem Unread.round (h : r.Unread lines) (slice : Nat) :
    ∃ rest, lines = (r.asks slice).filterMap (LineReply.line? ·.2) ++ rest ∧
      (r.round slice).run.Unread rest := by
  obtain ⟨s, source, sink⟩ := r
  have hkeeps := s.closed_execute slice
  simp only [Run.round, asks]
  cases hexec : s.execute slice with
  | mk event u =>
    rw [hexec] at hkeeps
    rcases event with _ | ⟨c⟩ | _ | _ | ⟨f⟩
    · exact ⟨lines, rfl, h.congr hkeeps rfl⟩
    · refine ⟨lines, rfl, ?_⟩
      dsimp only
      split
      · exact h.congr hkeeps rfl
      · exact h.congr hkeeps rfl
    · -- only an open input is asked for
      obtain ⟨-, i, hwaits⟩ := Session.waits_of_execute hexec
      have hopen : u.machine.input.closed = false := by rw [Machine.input_of_waits hwaits]
      have hsupplies : Supplies source lines := h.supplies (hkeeps.symm.trans hopen)
      cases hread : LineSource.readLine source with
      | mk reply source' =>
        cases lines with
        | nil =>
          simp only [Supplies, hread] at hsupplies
          subst hsupplies
          refine ⟨[], rfl, fun _ => rfl, ?_⟩
          intro hopen'
          cases hopen'
        | cons line rest =>
          simp only [Supplies, hread] at hsupplies
          obtain ⟨rfl, hrest⟩ := hsupplies
          refine ⟨rest, rfl, ?_, fun _ => hrest⟩
          intro hclosed
          cases hopen.symm.trans hclosed
    · exact ⟨lines, rfl, h.congr hkeeps rfl⟩
    · exact ⟨lines, rfl, h.congr hkeeps rfl⟩

/-- What a run has entered and what it has left unread is what it could read. -/
theorem Unread.drive {rounds : Nat} {result : Except Fault Unit} (h : r.Unread lines)
    (hd : r.drive rounds = some (result, t)) :
    ∃ rest, lines = r.entered rounds ++ rest ∧ t.Unread rest := by
  induction rounds generalizing r lines with
  | zero => cases hd
  | succ rounds ih =>
    obtain ⟨rest, rfl, hrest⟩ := h.round Run.slice
    simp only [Run.drive] at hd
    simp only [entered, reads, List.filterMap_append]
    cases hround : r.round Run.slice with
    | goesOn r' =>
      rw [hround] at hd hrest
      obtain ⟨rest', rfl, ht⟩ := ih hrest hd
      exact ⟨rest', (List.append_assoc _ _ _).symm, ht⟩
    | ends result' t' =>
      rw [hround] at hd hrest
      cases hd
      exact ⟨rest, by simp, hrest⟩

end Run

end

/-! ## Runs that are fed in advance -/

namespace Run

/-- The run can only go on with a character that is still to be entered. -/
def Hungry {σ : Type u} {κ : Type v} (r : Run σ κ) : Prop :=
  r.session.machine.status = .running ∧ ∃ i, r.session.machine.attempt = .waits i

/-- The second run is the first one with all the lines it can still read already in its queue,
and its input closed behind them. -/
structure Fed {σ : Type u} {ρ : Type w} {κ : Type v} [LineSource σ] (r : Run σ κ)
    (lines : List String) (f : Run ρ κ) : Prop where
  unread : r.Unread lines
  machine : f.session.machine = r.session.machine.feed (lines.flatMap lineChars)
  sink : f.sink = r.sink

end Run

inductive Round.Fed {σ : Type u} {ρ : Type w} {κ : Type v} [LineSource σ]
    (lines : List String) : Round σ κ → Round ρ κ → Prop where
  | goesOn {r : Run σ κ} {f : Run ρ κ} : r.Fed lines f → Fed lines (.goesOn r) (.goesOn f)
  | ends {result : Except Fault Unit} {r : Run σ κ} {f : Run ρ κ} : r.Fed lines f →
      Fed lines (.ends result r) (.ends result f)

namespace Run

variable {σ : Type u} {ρ : Type w} {κ : Type v} [LineSource σ] [Sink κ]
  {r t : Run σ κ} {f g : Run ρ κ} {lines : List String} {result : Except Fault Unit}

/-- A hungry run reads a line or closes its input; the run fed in advance has no need to. -/
theorem Fed.round_of_hungry (h : r.Fed lines f) (hh : r.Hungry) :
    ∃ r' rest, r.round 1 = .goesOn r' ∧ r'.Fed rest f ∧ ¬ r'.Hungry := by
  obtain ⟨s, source, sink⟩ := r
  obtain ⟨hrun, i, hwaits⟩ := hh
  have hevent := Machine.event_of_waits hwaits
  have hsame : s.step.2.machine = s.machine := (Machine.waits_of_event hevent).2
  have hinput : s.machine.input = {} := Machine.input_of_waits hwaits
  have hsupplies : Supplies source lines := h.unread.supplies (by rw [hinput])
  simp only [Run.round, Session.execute_of_event hrun hevent 0]
  generalize s.step.2 = u at hsame
  cases hread : LineSource.readLine source with
  | mk reply source' =>
    cases lines with
    | nil =>
      simp only [Supplies, hread] at hsupplies
      subst hsupplies
      refine ⟨⟨u.close, source', sink⟩, [], rfl, ⟨⟨fun _ => rfl, ?_⟩, ?_, h.sink⟩, ?_⟩
      · intro hopen
        cases hopen
      · rw [h.machine, ← hsame]
        rfl
      · intro hh
        obtain ⟨-, j, hj⟩ := hh
        cases congrArg Input.closed (Machine.input_of_waits hj)
    | cons line rest =>
      simp only [Supplies, hread] at hsupplies
      obtain ⟨rfl, hrest⟩ := hsupplies
      refine ⟨⟨u.enter line, source', sink⟩, rest, rfl, ⟨⟨?_, fun _ => hrest⟩, ?_, h.sink⟩, ?_⟩
      · intro hclosed
        have hopen : u.machine.input.closed = false := by rw [hsame, hinput]
        cases hopen.symm.trans hclosed
      · rw [h.machine, ← hsame]
        simp only [Machine.feed, Session.machine_enter, Machine.enter, Input.enter,
          List.flatMap_cons, List.append_assoc]
      · intro hh
        obtain ⟨-, j, hj⟩ := hh
        have hnil := congrArg Input.pending (Machine.input_of_waits hj)
        rw [Session.machine_enter, Machine.enter, hsame, hinput] at hnil
        exact lineChars_ne_nil line hnil

/-- A hungry run is ready to keep step again after one request. -/
theorem Fed.catch_up (h : r.Fed lines f) :
    ∃ (r' : Run σ κ) (rest : List String), r'.Fed rest f ∧ ¬ r'.Hungry ∧
      ∀ result t, r'.Ends result t → r.Ends result t := by
  by_cases hh : r.Hungry
  · obtain ⟨r', rest, hgoes, hfed, hready⟩ := h.round_of_hungry hh
    exact ⟨r', rest, hfed, hready, fun result t he => .later hgoes he⟩
  · exact ⟨r, lines, h, hh, fun result t he => he⟩

variable [LineSource ρ]

/-- A run that is not hungry keeps step with the one fed in advance. -/
theorem Fed.round (h : r.Fed lines f) (hh : ¬ r.Hungry) :
    Round.Fed lines (r.round 1) (f.round 1) := by
  obtain ⟨s, source, sink⟩ := r
  obtain ⟨s', source', sink'⟩ := f
  obtain ⟨hunread, hmachine, rfl⟩ := h
  have hrest : s.machine.input.closed = true → lines.flatMap lineChars = [] := by
    intro hclosed
    rw [hunread.closed hclosed]
    rfl
  have hwait : s.machine.status = .running → ∀ i, s.machine.attempt ≠ .waits i :=
    fun hrun i hwaits => hh ⟨hrun, i, hwaits⟩
  obtain ⟨hevent, hfed⟩ := Session.execute_one_feed hmachine hrest hwait
  have hkeeps := s.closed_execute 1
  simp only [Run.round]
  cases hs : s.execute 1 with
  | mk event u =>
    cases hs' : s'.execute 1 with
    | mk event' u' =>
      rw [hs, hs'] at hevent hfed
      rw [hs] at hkeeps
      cases hevent
      rcases event with _ | ⟨c⟩ | _ | _ | ⟨e⟩
      · exact .goesOn ⟨hunread.congr hkeeps rfl, hfed, rfl⟩
      · dsimp only
        cases Sink.put sink' c with
        | mk reply sink =>
          cases reply with
          | ok => exact .goesOn ⟨hunread.congr hkeeps rfl, hfed, rfl⟩
          | error e =>
            have hpc : u'.machine.pc = u.machine.pc := congrArg (fun m => m.pc) hfed
            unfold Run.breaks
            dsimp only
            rw [hpc]
            exact .ends ⟨hunread.congr hkeeps rfl, congrArg (Machine.fail · _) hfed, rfl⟩
      · exact absurd (Session.waits_of_execute_one hs) hh
      · exact .ends ⟨hunread.congr hkeeps rfl, hfed, rfl⟩
      · exact .ends ⟨hunread.congr hkeeps rfl, hfed, rfl⟩

/-- A run comes to the end that the run fed in advance comes to. -/
theorem Fed.ends (h : r.Fed lines f) (he : r.Ends result t) :
    ∃ rest g, f.Ends result g ∧ t.Fed rest g := by
  induction he generalizing lines f with
  | @now r t result hround =>
    by_cases hh : r.Hungry
    · obtain ⟨r', rest, hgoes, -⟩ := h.round_of_hungry hh
      cases hround.symm.trans hgoes
    · have hfed := h.round hh
      rw [hround] at hfed
      generalize hf : f.round 1 = round at hfed
      cases hfed with
      | ends hfed => exact ⟨lines, _, .now hf, hfed⟩
  | @later r r' t result hround _ ih =>
    by_cases hh : r.Hungry
    · obtain ⟨r'', rest, hgoes, hfed, -⟩ := h.round_of_hungry hh
      cases hround.symm.trans hgoes
      exact ih hfed
    · have hfed := h.round hh
      rw [hround] at hfed
      generalize hf : f.round 1 = round at hfed
      cases hfed with
      | goesOn hfed =>
        obtain ⟨rest, g, hg, ht⟩ := ih hfed
        exact ⟨rest, g, .later hf hg, ht⟩

theorem Fed.ends_of_ends (h : r.Fed lines f) (he : f.Ends result g) :
    ∃ rest t, r.Ends result t ∧ t.Fed rest g := by
  induction he generalizing lines r with
  | @now f g result hround =>
    obtain ⟨r', rest, hfed, hready, hends⟩ := h.catch_up
    have hfed := hfed.round hready
    rw [hround] at hfed
    generalize hr : r'.round 1 = round at hfed
    cases hfed with
    | ends hfed => exact ⟨rest, _, hends _ _ (.now hr), hfed⟩
  | @later f f' g result hround _ ih =>
    obtain ⟨r', rest, hfed, hready, hends⟩ := h.catch_up
    have hfed := hfed.round hready
    rw [hround] at hfed
    generalize hr : r'.round 1 = round at hfed
    cases hfed with
    | goesOn hfed =>
      obtain ⟨rest', t, ht, hg⟩ := ih hfed
      exact ⟨rest', t, hends _ _ (.later hr ht), hg⟩

theorem Ends.unique {result' : Except Fault Unit} {t' : Run σ κ} (h : r.Ends result t)
    (h' : r.Ends result' t') : result = result' ∧ t = t' := by
  obtain ⟨n, hn⟩ := exists_drive_iff_ends.mpr h
  obtain ⟨n', hn'⟩ := exists_drive_iff_ends.mpr h'
  exact Prod.mk.inj (drive_unique hn hn')

end Run

/-! ## Early or on demand -/

section

variable {σ : Type u} {σ' : Type w} {κ : Type v} [LineSource σ] [LineSource σ'] [Sink κ]

/-- Both runs end or neither does. If they do, it is with the same result, the same sink and the
same machine except for its input; and what is left in the queue and unread of the lines is
the same in both. -/
def EndAlike (lines : List String) (r : Run σ κ) (lines' : List String) (r' : Run σ' κ) : Prop :=
  ((∃ n result t, r.drive n = some (result, t)) ↔ ∃ n result t, r'.drive n = some (result, t)) ∧
  ∀ n n' result result' t t', r.drive n = some (result, t) → r'.drive n' = some (result', t') →
    result' = result ∧ t'.sink = t.sink ∧
    t'.session.machine = { t.session.machine with input := t'.session.machine.input } ∧
    ∃ unread unread', lines = r.entered n ++ unread ∧ lines' = r'.entered n' ++ unread' ∧
      t'.session.machine.input.pending ++ unread'.flatMap lineChars =
        t.session.machine.input.pending ++ unread.flatMap lineChars

theorem Run.Fed.drive_as {ρ : Type} [LineSource ρ] {lines lines' : List String} {r : Run σ κ}
    {r' : Run σ' κ} {f : Run ρ κ} (h : r.Fed lines f) (h' : r'.Fed lines' f)
    (hends : ∃ n result t, r.drive n = some (result, t)) :
    ∃ n result t, r'.drive n = some (result, t) := by
  obtain ⟨n, result, t, hd⟩ := hends
  obtain ⟨rest, g, hg, -⟩ := h.ends (exists_drive_iff_ends.mp ⟨n, hd⟩)
  obtain ⟨rest', t', ht', -⟩ := h'.ends_of_ends hg
  obtain ⟨n', hd'⟩ := exists_drive_iff_ends.mpr ht'
  exact ⟨n', result, t', hd'⟩

/-- Runs that are the same when fed in advance end alike. -/
theorem Run.Fed.endAlike {ρ : Type} [LineSource ρ] {lines lines' : List String} {r : Run σ κ}
    {r' : Run σ' κ} {f : Run ρ κ} (h : r.Fed lines f) (h' : r'.Fed lines' f) :
    EndAlike lines r lines' r' := by
  refine ⟨⟨h.drive_as h', h'.drive_as h⟩, ?_⟩
  intro n n' result result' t t' hd hd'
  obtain ⟨rest, g, hg, ht⟩ := h.ends (exists_drive_iff_ends.mp ⟨n, hd⟩)
  obtain ⟨rest', g', hg', ht'⟩ := h'.ends (exists_drive_iff_ends.mp ⟨n', hd'⟩)
  obtain ⟨rfl, rfl⟩ := hg.unique hg'
  obtain ⟨unread, hlines, hunread⟩ := h.unread.drive hd
  obtain ⟨unread', hlines', hunread'⟩ := h'.unread.drive hd'
  cases hunread.unique ht.unread
  cases hunread'.unique ht'.unread
  have hfeed := ht'.machine.symm.trans ht.machine
  refine ⟨rfl, ht'.sink.symm.trans ht.sink, ?_, _, _, hlines, hlines', ?_⟩
  · exact congrArg (fun m => { m with input := t'.session.machine.input }) hfeed
  · exact congrArg (fun m => m.input.pending) hfeed

/-- The session with all these lines in its queue and its input closed behind them. -/
def Session.fed (s : Session) (lines : List String) : Session :=
  { s with machine := s.machine.feed (lines.flatMap lineChars) }

theorem Session.machine_enterAll (s : Session) (lines : List String) :
    (lines.foldl enter s).machine =
      { s.machine with input :=
        { s.machine.input with pending := s.machine.input.pending ++ lines.flatMap lineChars } } := by
  induction lines generalizing s with
  | nil => simp
  | cons line lines ih =>
    rw [List.foldl_cons, ih, machine_enter, List.flatMap_cons, ← List.append_assoc]
    rfl

/-- **Input may be supplied early or on demand.** Some of the lines are entered before the run
and the rest is read in its course; how many are entered makes no difference, and if all are, it
makes none whether the input is closed as well. -/
theorem supply_early_or_on_demand {s : Session} (hopen : s.machine.input.closed = false)
    {lines : List String} (k : Nat) {source : σ} {source' : σ'} (hsource : Supplies source lines)
    (hsource' : Supplies source' (lines.drop k)) (sink : κ) :
    EndAlike lines ⟨s, source, sink⟩ (lines.drop k)
      ⟨(lines.take k).foldl Session.enter s, source', sink⟩ ∧
    (k = lines.length → EndAlike lines ⟨s, source, sink⟩ (lines.drop k)
      ⟨((lines.take k).foldl Session.enter s).close, source', sink⟩) := by
  have hfed : Run.Fed ⟨s, source, sink⟩ lines (⟨s.fed lines, ⟨⟩, sink⟩ : Run Silence κ) := by
    refine ⟨⟨?_, fun _ => hsource⟩, rfl, rfl⟩
    intro hclosed
    cases hopen.symm.trans hclosed
  have hentered := s.machine_enterAll (lines.take k)
  have hopen' : ((lines.take k).foldl Session.enter s).machine.input.closed = false := by
    rw [hentered]
    exact hopen
  -- what is entered and what is not make up the lines
  have hlines : lines.flatMap lineChars =
      (lines.take k).flatMap lineChars ++ (lines.drop k).flatMap lineChars := by
    rw [← List.flatMap_append, List.take_append_drop]
  have hmachine : (s.fed lines).machine =
      ((lines.take k).foldl Session.enter s).machine.feed ((lines.drop k).flatMap lineChars) := by
    rw [hentered, Session.fed, hlines]
    simp only [Machine.feed, List.append_assoc]
  refine ⟨hfed.endAlike ⟨⟨?_, fun _ => hsource'⟩, hmachine, rfl⟩, ?_⟩
  · intro hclosed
    cases hopen'.symm.trans hclosed
  · intro hall
    refine hfed.endAlike ⟨⟨fun _ => List.drop_of_length_le (Nat.le_of_eq hall.symm), ?_⟩,
      hmachine, rfl⟩
    intro hopen
    cases hopen

end

/-- Prints the first character it reads. -/
def echoImage : List Word := [20, 32768, 19, 32768, 0]

theorem boot_echo :
    ∃ mem s, Session.boot { threshold := .warn } echoImage .flat = s ∧
      s.machine = { memory := mem, advance := .flat } ∧ mem.fetch 0 = .ok (.input 32768) ∧
      mem.fetch 2 = .ok (.out 32768) ∧ mem.fetch 4 = .ok .halt := by
  obtain ⟨mem, s, hboot, hs, -, hfetch⟩ :=
    Session.boot_of_le { threshold := .warn } echoImage .flat (by decide)
  exact ⟨mem, s, hboot, hs, hfetch ⟨_, rfl⟩, hfetch ⟨_, rfl⟩, hfetch ⟨_, rfl⟩⟩

theorem put_echo :
    Sink.put ({} : BoundedSink) 'a' = (.ok (), { accepted := #[97], flushes := 1 }) := by
  have hbytes : String.utf8EncodeChar 'a' = [97] := by decide
  simp [Sink.put, hbytes, Sink.writeAll, Sink.write, BoundedSink.write, BoundedSink.room,
    Sink.flush, BoundedSink.flush]

/-- From whatever source the line comes, it is heard and its first character is printed. -/
theorem converse_echo {σ : Type u} [LineSource σ] {source source' : σ}
    (hsource : LineSource.readLine source = (.ok (some "a"), source')) {mem : Memory}
    (h₀ : mem.fetch 0 = .ok (.input 32768)) (h₂ : mem.fetch 2 = .ok (.out 32768))
    (h₄ : mem.fetch 4 = .ok .halt) {s : Session}
    (hs : s.machine = { memory := mem, advance := .flat }) :
    ∃ t, unitLoop Run.converse 4 (⟨s, source, ({} : BoundedSink)⟩, []) =
        some (.ok (), t, [.heard (.ok (some "a")), .printed 'a']) ∧
      t.sink.accepted = #[97] := by
  have hwaits : s.machine.attempt = .waits (.input 32768) := by
    rw [hs, Machine.attempt_eq_waits_iff]
    exact ⟨h₀, rfl⟩
  have hevent := Machine.event_of_waits hwaits
  have he₀ := Session.execute_of_event (by rw [hs]) hevent 0
  have hs₁ : (s.step.2.enter "a").machine =
      { memory := mem, advance := .flat, input := ⟨['a', '\n'], false⟩ } := by
    have hsame : s.step.2.machine = s.machine := (Machine.waits_of_event hevent).2
    rw [Session.machine_enter, hsame, hs]
    rfl
  generalize s.step.2 = s₀ at he₀ hs₁
  generalize hs₀ : s₀.enter "a" = s₁ at hs₁
  have hdst : Operand.decode 32768 = .ok (.register 0) := Operand.decode_encode (.register 0)
  obtain ⟨he₁, hs₂⟩ := Session.execute_one_of_rules hs₁ rfl h₀ (.inputRegister hdst rfl)
  generalize (s₁.execute 1).2 = s₂ at he₁ hs₂
  have he₁ : s₁.execute 1 = (none, s₂) := he₁
  have hsrc : s₂.machine.value 32768 = .ok 97 := by
    rw [hs₂]
    exact Machine.value_eq_ok_iff.mpr ⟨by decide, rfl⟩
  rw [hs₂] at hsrc
  obtain ⟨he₂, hs₃⟩ := Session.execute_one_of_rules hs₂ rfl h₂ (.out hsrc)
  generalize (s₂.execute 1).2 = s₃ at he₂ hs₃
  have he₂ : s₂.execute 1 = (some (.print 'a'), s₃) := he₂
  obtain ⟨he₃, -⟩ := Session.execute_one_of_rules hs₃ rfl h₄ .halt
  generalize (s₃.execute 1).2 = s₄ at he₃
  have he₃ : s₃.execute 1 = (some .halted, s₄) := he₃
  refine ⟨⟨s₄, source', { accepted := #[97], flushes := 1 }⟩, ?_, rfl⟩
  simp only [Nat.zero_add] at he₀
  simp [unitLoop, loop, Run.converse, Run.round, Run.exchanges, he₀, hsource, hs₀, he₁, he₂,
    put_echo, he₃]

theorem ends_echo {mem : Memory} (h₀ : mem.fetch 0 = .ok (.input 32768))
    (h₂ : mem.fetch 2 = .ok (.out 32768)) (h₄ : mem.fetch 4 = .ok .halt) {s : Session}
    (hs : s.machine = { memory := mem, advance := .flat }) :
    ∃ t : Run Replies BoundedSink, Run.Ends ⟨s, ⟨[.ok (some "a")]⟩, {}⟩ (.ok ()) t ∧
      t.sink.accepted = #[97] := by
  have hsource : LineSource.readLine (⟨[.ok (some "a")]⟩ : Replies) = (.ok (some "a"), ⟨[]⟩) := rfl
  obtain ⟨t, hloop, haccepted⟩ := converse_echo hsource h₀ h₂ h₄ hs
  exact ⟨t, .of_unitLoop hloop, haccepted⟩

/-- The line that is echoed is read on demand, entered early, or entered early with no other line
to follow. -/
theorem supply_early_or_on_demand_of_echo :
    ∃ (s : Session) (n n' n'' : Nat) (t : Run Replies BoundedSink)
      (t' t'' : Run Silence BoundedSink),
      s.Reachable ∧ s.machine.input.closed = false ∧
      Run.drive n ⟨s, ⟨[.ok (some "a")]⟩, {}⟩ = some (.ok (), t) ∧ t.sink.accepted = #[97] ∧
      Run.drive n' ⟨s.enter "a", {}, {}⟩ = some (.ok (), t') ∧ t'.sink = t.sink ∧
      Run.drive n'' ⟨(s.enter "a").close, {}, {}⟩ = some (.ok (), t'') ∧ t''.sink = t.sink := by
  obtain ⟨mem, s, hboot, hs, h₀, h₂, h₄⟩ := boot_echo
  have hreach : s.Reachable := hboot ▸ .boot _ _ _
  have hopen : s.machine.input.closed = false := by rw [hs]
  obtain ⟨t, hends, haccepted⟩ := ends_echo h₀ h₂ h₄ hs
  obtain ⟨n, hd⟩ := Run.exists_drive_iff_ends.mpr hends
  have hsource : Supplies (⟨[.ok (some "a")]⟩ : Replies) ["a"] := ⟨rfl, rfl⟩
  have hsource' : Supplies (⟨⟩ : Silence) (["a"].drop 1) := rfl
  obtain ⟨⟨hentered, hsame⟩, hclosed⟩ :=
    supply_early_or_on_demand hopen 1 hsource hsource' ({} : BoundedSink)
  obtain ⟨hclosed, hsame'⟩ := hclosed rfl
  obtain ⟨n', result', t', hd'⟩ := hentered.mp ⟨n, _, t, hd⟩
  obtain ⟨n'', result'', t'', hd''⟩ := hclosed.mp ⟨n, _, t, hd⟩
  obtain ⟨rfl, hsink, -⟩ := hsame n n' _ _ t t' hd hd'
  obtain ⟨rfl, hsink', -⟩ := hsame' n n'' _ _ t t'' hd hd''
  exact ⟨s, n, n', n'', t, t', t'', hreach, hopen, hd, haccepted, hd', hsink, hd'', hsink'⟩

end Wordcode
