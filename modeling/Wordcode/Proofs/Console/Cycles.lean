import Wordcode.Console.Transcript
import Wordcode.Proofs.Host.Slices
import Wordcode.Proofs.Machine.Encoding

/-! The command line in slices. The number of instructions between two looks at the outside
is at least one for every command line that is accepted, and a console's turns form a
divisible loop, so that number shows in nothing a run leaves behind. -/

namespace Wordcode

/-! ## The number of cycles asked for -/

namespace Options.Draft

/-- A number of cycles that was asked for is not zero. -/
def Counts (d : Draft) : Prop :=
  ∀ n, d.cycles = some n → 0 < n

theorem Counts.of_eq {d e : Draft} (hd : d.Counts) (h : e.cycles = d.cycles) : e.Counts := by
  intro n hn
  exact hd n (h.symm.trans hn)

theorem cycles_place {d e : Draft} {path : String} (h : d.place path = .ok e) :
    e.cycles = d.cycles := by
  unfold place at h
  split at h
  · simp at h
  · split at h
    · simp at h
    · rw [pure_eq_ok_iff] at h
      rw [← h]

theorem cycles_flag {d e : Draft} {letter : Char} (h : d.flag letter = .ok e) :
    e.cycles = d.cycles := by
  unfold flag at h
  split at h
  · rw [pure_eq_ok_iff] at h
    rw [← h]
  · simp at h
  · simp at h

theorem cycles_switch {d e : Draft} {name : String} (h : d.switch name = .ok e) :
    e.cycles = d.cycles := by
  unfold switch at h
  split at h
  · exact cycles_flag h
  · simp at h
  · split at h
    · simp at h
    · rw [pure_eq_ok_iff] at h
      rw [← h]
  · split at h
    · simp at h
    · rw [pure_eq_ok_iff] at h
      rw [← h]
  · simp at h

theorem Counts.assign {d e : Draft} {name value : String} (hd : d.Counts)
    (h : d.assign name value = .ok e) : e.Counts := by
  unfold Draft.assign at h
  split at h
  · split at h
    · simp at h
    · split at h
      · simp at h
      · rw [pure_eq_ok_iff] at h
        exact hd.of_eq (by rw [← h])
  · split at h
    · simp at h
    · split at h
      · rw [pure_eq_ok_iff] at h
        intro n hn
        rw [← h] at hn
        cases hn
        exact Nat.succ_pos _
      · simp at h
  · split at h <;> simp at h

theorem Counts.foldlM {α : Type} {f : Draft → α → Except Usage Draft}
    (hf : ∀ {d e : Draft} {x : α}, f d x = .ok e → e.cycles = d.cycles) {xs : List α}
    {d e : Draft} (hd : d.Counts) (h : xs.foldlM f d = .ok e) : e.Counts := by
  induction xs generalizing d with
  | nil =>
    rw [List.foldlM_nil, pure_eq_ok_iff] at h
    exact h ▸ hd
  | cons x xs ih =>
    rw [List.foldlM_cons, bind_eq_ok_iff] at h
    obtain ⟨d', hx, hxs⟩ := h
    exact ih (hd.of_eq (hf hx)) hxs

theorem Counts.read {args : List String} {d e : Draft} (hd : d.Counts)
    (h : d.read args = .ok e) : e.Counts := by
  fun_induction Draft.read d args with
  | case1 d =>
    rw [pure_eq_ok_iff] at h
    exact h ▸ hd
  | case2 => exact hd.foldlM cycles_place h
  | case3 d _ _ _ _ ih =>
    obtain ⟨d', hplace, hrest⟩ := bind_eq_ok_iff.mp h
    exact ih d' (hd.of_eq (cycles_place hplace)) hrest
  | case4 d _ _ _ _ ih =>
    obtain ⟨d', hflags, hrest⟩ := bind_eq_ok_iff.mp h
    exact ih d' (hd.foldlM cycles_flag hflags) hrest
  | case5 d _ _ _ _ _ ih | case7 d _ _ _ _ _ _ _ _ ih =>
    obtain ⟨d', hassign, hrest⟩ := bind_eq_ok_iff.mp h
    exact ih d' (hd.assign hassign) hrest
  | case6 | case8 => simp at h
  | case9 d _ _ _ _ _ ih =>
    obtain ⟨d', hswitch, hrest⟩ := bind_eq_ok_iff.mp h
    exact ih d' (hd.of_eq (cycles_switch hswitch)) hrest

end Options.Draft

/-- An accepted command line asks for at least one cycle. -/
theorem Options.parse_cycles_pos {args : List String} {o : Options}
    (h : Options.parse args = .ok o) : 0 < o.cycles := by
  unfold Options.parse at h
  obtain ⟨d, hread, hfinish⟩ := bind_eq_ok_iff.mp h
  have hd : d.Counts := Draft.Counts.read (by intro n hn; cases hn) hread
  unfold Draft.finish at hfinish
  split at hfinish
  · simp at hfinish
  · rw [pure_eq_ok_iff] at hfinish
    rw [← hfinish]
    show 0 < d.cycles.getD 5000
    cases hc : d.cycles with
    | none => decide
    | some n => exact hd n hc

/-! ## Turns -/

universe u

namespace Console

/-- A console between two turns without its cycles, with what is left of its standard input
and all that was printed. -/
structure Scene (σ : Type u) where
  stdin : σ
  printed : String
  session : Session
  script : List String

variable {σ : Type u} [LineSource σ]

def scene (c : Console) (stdin : σ) (printed : String) : Scene σ :=
  { stdin, printed, session := c.session, script := c.script }

namespace Scene

def console (x : Scene σ) (cycles : Nat) : Console :=
  { session := x.session, script := x.script, cycles }

/-- One turn with so many cycles, and the answer if a line is asked for. -/
def next (cycles : Nat) (x : Scene σ) : Scene σ ⊕ (Outcome × Scene σ) :=
  match (x.console cycles).turn with
  | .works c => .inl (c.scene x.stdin x.printed)
  | .prints text c => .inl (c.scene x.stdin (x.printed ++ text))
  | .ends outcome c => .inr (outcome, c.scene x.stdin x.printed)
  | .asks c =>
    match LineSource.readLine x.stdin with
    | (reply, stdin) =>
      match c.answer reply with
      | .ok c => .inl (c.scene stdin x.printed)
      | .error f => .inr (.broken f, c.scene stdin x.printed)

/-- A turn shows nothing of its cycles but what executing them leads to. -/
theorem next_congr {cycles cycles' : Nat} {s t : Session}
    (h : s.execute cycles = t.execute cycles') (stdin : σ) (printed : String)
    (script : List String) :
    next cycles ⟨stdin, printed, s, script⟩ = next cycles' ⟨stdin, printed, t, script⟩ := by
  simp only [next, console, turn, h]
  cases t.execute cycles' with
  | mk event u =>
    cases event with
    | none => rfl
    | some event =>
      cases event with
      | print c | halted | fault f => rfl
      | input =>
        cases script with
        | cons line rest => rfl
        | nil =>
          cases LineSource.readLine stdin with
          | mk reply rest => rcases reply with e | _ | line <;> rfl

theorem next_divisible : Divisible (@next σ _) := by
  intro x
  obtain ⟨stdin, printed, s, script⟩ := x
  rcases s.execute_divisible with ⟨t, hone, hrest⟩ | hsame
  · refine .inl ⟨⟨stdin, printed, t, script⟩, ?_, fun b => next_congr (hrest b) _ _ _⟩
    simp [next, console, turn, hone, scene]
  · exact .inr fun b => next_congr (hsame b) _ _ _

end Scene

/-- Playing a console is the loop with its cycles. -/
theorem play_eq_loop (turns : Nat) (stdin : σ) (printed : String) (c : Console) :
    c.play turns stdin printed =
      (loop Scene.next (fun _ => c.cycles) turns (c.scene stdin printed)).map fun answer =>
        (answer.1, answer.2.printed, answer.2.console c.cycles) := by
  induction turns generalizing stdin printed c with
  | zero => rfl
  | succ turns ih =>
    obtain ⟨s, script, cycles⟩ := c
    simp only [play, loop, Scene.next, Scene.console, scene, turn]
    cases s.execute cycles with
    | mk event t =>
      cases event with
      | none => exact ih _ _ _
      | some event =>
        cases event with
        | print c => exact ih _ _ _
        | halted | fault f => rfl
        | input =>
          cases script with
          | cons line rest => exact ih _ _ _
          | nil =>
            cases LineSource.readLine stdin with
            | mk reply rest =>
              rcases reply with e | _ | line
              · rfl
              · exact ih _ _ _
              · exact ih _ _ _

theorem start_with_cycles (files : Files) (reason : String) (o : Options) (n : Nat) :
    start files reason { o with cycles := n } =
      (fun c => { c with cycles := n }) <$> start files reason o := by
  simp only [start, map_bind]
  cases o.script with
  | none => simp
  | some path => simp

theorem cycles_start {files : Files} {reason : String} {o : Options} {c : Console}
    (h : start files reason o = .ok c) : c.cycles = o.cycles := by
  have hself : start files reason o =
      (fun c => { c with cycles := o.cycles }) <$> start files reason o :=
    start_with_cycles files reason o o.cycles
  rw [h] at hself
  exact congrArg Console.cycles (Except.ok.inj hself)

end Console

namespace Transcript

variable {files : Files} {stdin : List UInt8} {time reason : String} {o : Options} {n : Nat}
  {t : Transcript}

/-- Options that differ in the number of cycles lead to the same transcripts. -/
theorem exists_ofOptions_iff (hpos : 0 < o.cycles) (hpos' : 0 < n) :
    (∃ turns, ofOptions turns files stdin time reason o = some t) ↔
      ∃ turns, ofOptions turns files stdin time reason { o with cycles := n } = some t := by
  simp only [ofOptions, Console.start_with_cycles]
  cases hstart : Console.start files reason o with
  | error e => rfl
  | ok c =>
    have hc := Console.cycles_start hstart
    simp only [Functor.map, Except.map, Console.play_eq_loop, Option.map_map]
    exact Console.Scene.next_divisible.map_loop_iff (fun _ => hc ▸ hpos) (fun _ => hpos') _

theorem record_of_parse {args : List String} (h : Options.parse args = .ok o) (turns : Nat) :
    record turns files stdin time args reason = ofOptions turns files stdin time reason o := by
  rw [record, h]

theorem exists_record_iff {args args' : List String} (h : Options.parse args = .ok o)
    (h' : Options.parse args' = .ok { o with cycles := n }) :
    (∃ turns, record turns files stdin time args reason = some t) ↔
      ∃ turns, record turns files stdin time args' reason = some t := by
  simp only [record_of_parse h, record_of_parse h']
  exact exists_ofOptions_iff (Options.parse_cycles_pos h) (Options.parse_cycles_pos h')

end Transcript

/-! ## Slices -/

universe v

/-- **How execution is cut into slices shows nowhere.** A budget can be spent in two parts.
A host that executes with any positive budgets says and hears the same, ends with the same
result and leaves the same run, and `Run.drive` is no exception. The transcript for any options
with at least one cycle does not depend on the cycles, and so that of a command line does not,
which never asks for none. -/
theorem slicing_unobservable :
    (∀ (s : Session) (m n : Nat),
      s.execute (m + n) =
        match s.execute m with
        | (some event, t) => (some event, t)
        | (none, t) => t.execute n) ∧
    (∀ {σ : Type u} {κ : Type v} [LineSource σ] [Sink κ] (r : Run σ κ)
      (budgets budgets' : Nat → Nat), (∀ i, 0 < budgets i) → (∀ i, 0 < budgets' i) →
      ∀ answer, (∃ rounds, loop Run.converse budgets rounds (r, []) = some answer) ↔
        ∃ rounds, loop Run.converse budgets' rounds (r, []) = some answer) ∧
    (∀ {σ : Type u} {κ : Type v} [LineSource σ] [Sink κ] (r t : Run σ κ)
      (result : Except Fault Unit), (∃ rounds, r.drive rounds = some (result, t)) ↔
        ∃ rounds said, loop Run.converse (fun _ => 1) rounds (r, []) = some (result, t, said)) ∧
    (∀ (files : Files) (stdin : List UInt8) (time reason : String) (o : Options) (n : Nat),
      0 < o.cycles → 0 < n →
      ∀ t, (∃ turns, Transcript.ofOptions turns files stdin time reason o = some t) ↔
        ∃ turns,
          Transcript.ofOptions turns files stdin time reason { o with cycles := n } = some t) ∧
    (∀ (files : Files) (stdin : List UInt8) (time reason : String) (args args' : List String)
      (o : Options) (n : Nat), Options.parse args = .ok o →
      Options.parse args' = .ok { o with cycles := n } →
      ∀ t, (∃ turns, Transcript.record turns files stdin time args reason = some t) ↔
        ∃ turns, Transcript.record turns files stdin time args' reason = some t) := by
  refine ⟨?_, ?_, ?_, ?_, ?_⟩
  · intro s m n
    exact s.execute_add m n
  · intro σ κ _ _ r budgets budgets' hpos hpos' answer
    exact Run.converse_divisible.loop_iff hpos hpos'
  · intro σ κ _ _ r t result
    exact Run.exists_drive_iff
  · intro files stdin time reason o n hpos hpos' t
    exact Transcript.exists_ofOptions_iff hpos hpos'
  · intro files stdin time reason args args' o n h h' t
    exact Transcript.exists_record_iff h h'

/-- Does nothing, prints an `A` and halts. -/
def greetingImage : List Word := [21, 19, 65, 0]

def greetingFiles : Files := fun _ => .ok (Image.save greetingImage)

theorem execute_greeting {mem : Memory} (h₀ : mem.fetch 0 = .ok .noop)
    (h₁ : mem.fetch 1 = .ok (.out 65)) (h₃ : mem.fetch 3 = .ok .halt) :
    ∃ t u v, Session.execute 1 ⟨{ memory := mem, advance := .scan }, { threshold := .warn }⟩ =
      (none, t) ∧ t.execute 1 = (some (.print 'A'), u) ∧ u.execute 1 = (some .halted, v) ∧
      v.journal = { threshold := .warn } := by
  have hnext := And.intro (Memory.nextOpcode_of_fetch h₁) (Memory.nextOpcode_of_fetch h₃)
  have hchar : charOfWord 65 = 'A' := by decide
  have htrace : ¬ Level.warn ≤ .trace := by decide
  have hinfo : ¬ Level.warn ≤ .info := by decide
  refine ⟨⟨{ memory := mem, advance := .scan, pc := 1, cycles := 1 }, { threshold := .warn }⟩,
    ⟨{ memory := mem, advance := .scan, pc := 3, cycles := 2 }, { threshold := .warn }⟩,
    ⟨{ memory := mem, advance := .scan, pc := 3, cycles := 3, status := .halted },
      { threshold := .warn }⟩, ?_, ?_, ?_, rfl⟩
  all_goals
    simp [Session.execute, Session.spend, Session.step, Machine.step, Machine.attempt, h₀, h₁, h₃,
      Machine.plan, bind, Except.bind, pure, Except.pure, Machine.value_eq, Machine.denote,
      Machine.apply, Machine.tick, Machine.follow, Machine.proceed, Machine.goTo, Machine.halt,
      Turn.after, StackChange.apply, Machine.nextAddress, Instr.size, Instr.operands, hnext, hchar,
      Journal.noteAll, Journal.note, Remark.level, htrace, hinfo]

theorem boot_greeting :
    ∃ s t u v, Session.boot { threshold := .warn } greetingImage .scan = s ∧
      s.execute 1 = (none, t) ∧ t.execute 1 = (some (.print 'A'), u) ∧
      u.execute 1 = (some .halted, v) ∧ v.journal = { threshold := .warn } := by
  obtain ⟨mem, ⟨m, journal⟩, hboot, rfl, -, hfetch⟩ :=
    Session.boot_of_le { threshold := .warn } greetingImage .scan (by decide)
  have hjournal := Session.journal_boot_of_le { threshold := .warn } .scan
    (show greetingImage.length ≤ memorySize by decide)
  have hdebug : ¬ Level.warn ≤ .debug := by decide
  rw [hboot, Journal.note, Remark.level, if_neg hdebug] at hjournal
  obtain rfl : journal = { threshold := .warn } := hjournal
  obtain ⟨t, u, v, hrun⟩ :=
    execute_greeting (hfetch ⟨_, rfl⟩) (hfetch ⟨_, rfl⟩) (hfetch ⟨_, rfl⟩)
  exact ⟨_, t, u, v, hboot, hrun⟩

theorem ofOptions_greeting :
    Transcript.ofOptions 3 greetingFiles [] "" Console.noTerminfo { image := "a", cycles := 1 } =
      some { status := 0, stdout := "A" } := by
  obtain ⟨s, t, u, v, hs, ht, hu, hv, hjournal⟩ := boot_greeting
  have himage : ((greetingFiles "a").mapError .ofStream >>= Image.load).mapError
      (·, ({ threshold := .warn } : Journal)) = .ok greetingImage := rfl
  have hdebug : ¬ Level.warn ≤ .debug := by decide
  have hinfo : ¬ Level.warn ≤ .info := by decide
  have hstart : Console.start greetingFiles Console.noTerminfo { image := "a", cycles := 1 } =
      .ok ⟨s, [], 1⟩ := by
    simp only [Console.start, Level.ofVerbosity, himage]
    simp [bind, Except.bind, pure, Except.pure, Journal.note, Remark.level, hdebug, hinfo, hs]
  simp [Transcript.ofOptions, hstart, Console.play, Console.turn, ht, hu, hv, hjournal,
    Transcript.close, Outcome.status, Outcome.closing, Journal.lines]

theorem converse_greeting :
    ∃ t, loop Run.converse (fun _ => 1) 3
      (⟨Session.boot { threshold := .warn } greetingImage .scan, ({} : Silence),
        ({} : BoundedSink)⟩, []) = some (.ok (), t, [.printed 'A']) := by
  obtain ⟨s, t, u, v, hs, ht, hu, hv, -⟩ := boot_greeting
  have hput : ∃ k, Sink.put ({} : BoundedSink) 'A' = (.ok (), k) := by
    have hbytes : String.utf8EncodeChar 'A' = [65] := by decide
    simp [Sink.put, hbytes, Sink.writeAll, Sink.write, BoundedSink.write, BoundedSink.room,
      Sink.flush, BoundedSink.flush]
  obtain ⟨k, hput⟩ := hput
  rw [hs]
  simp [loop, Run.converse, Run.round, Run.exchanges, ht, hu, hv, hput]

/-- With one cycle the greeting takes three turns; it is the same in other slices. -/
theorem slicing_unobservable_for_greeting :
    (∃ t rounds, loop Run.converse (fun i => i + 2) rounds
      (⟨Session.boot { threshold := .warn } greetingImage .scan, ({} : Silence),
        ({} : BoundedSink)⟩, []) = some (.ok (), t, [.printed 'A'])) ∧
      (∃ turns, Transcript.record turns greetingFiles [] "" ["a"] =
        some { status := 0, stdout := "A" }) ∧
      ∃ turns, Transcript.ofOptions turns greetingFiles [] "" Console.noTerminfo
        { image := "a", cycles := 2 } = some { status := 0, stdout := "A" } := by
  obtain ⟨-, hloop, -, hoptions, hrecord⟩ := slicing_unobservable.{0, 0}
  have hone : Options.parse ["--cycles=1", "a"] = .ok { image := "a", cycles := 1 } := rfl
  have hmany : Options.parse ["a"] = .ok { image := "a", cycles := 5000 } := rfl
  obtain ⟨t, ht⟩ := converse_greeting
  refine ⟨⟨t, ?_⟩, ?_, ?_⟩
  · exact (hloop _ _ _ (fun _ => by decide) (fun i => by omega) _).mp ⟨3, ht⟩
  · refine (hrecord greetingFiles [] "" _ _ _ _ _ hone hmany _).mp ⟨3, ?_⟩
    rw [Transcript.record_of_parse hone, ofOptions_greeting]
  · exact (hoptions greetingFiles [] "" _ _ 2 Nat.one_pos Nat.two_pos _).mp
      ⟨3, ofOptions_greeting⟩

end Wordcode
