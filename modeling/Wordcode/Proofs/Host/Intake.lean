import Wordcode.Proofs.Host.Supply

/-! Where the characters go. What is entered is queued, and what is queued is taken by the
instructions that read, one character each and in order; nothing is lost on the way. A run enters
no line before the queue is empty, and the line it enters is begun by the very instruction that
asked for it, so at the end at most a part of the last line is left. -/

namespace Wordcode

/-! ## One instruction -/

namespace Operand

theorem toNat_of_decode_literal {raw : Word} {a : Fin wordModulus}
    (h : decode raw = .ok (.literal a)) : a.val = raw.toNat := by
  unfold decode at h
  split at h
  · cases h
    rfl
  · split at h <;> cases h

theorem toNat_of_decode_register {raw : Word} {r : Register}
    (h : decode raw = .ok (.register r)) : 32768 + r.val = raw.toNat := by
  unfold decode at h
  split at h
  · cases h
  · rename_i hle
    split at h
    · rw [← Operand.register.inj (Except.ok.inj h)]
      exact Nat.add_sub_cancel' (Nat.not_lt.mp hle)
    · cases h

end Operand

namespace Machine

variable {m : Machine}

/-- An instruction that reads a character is completed on this machine. -/
def reading (m : Machine) : Bool :=
  match m.completed? with
  | some (.input _) => true
  | _ => false

/-- The instruction tried on this machine takes the character `c` off the queue and stores its
code point, reduced, where its operand word says: in the memory cell of that address, or in the
register that the word names. -/
def Takes (m : Machine) (c : Char) : Prop :=
  ∃ dst, m.completed? = some (.input dst) ∧ m.input.pending.head? = some c ∧
    ((∃ a : Address, a.val = dst.toNat ∧
        (m.step.machine.memory.get a).toNat = c.toNat % 32768) ∨
      ∃ r : Register, 32768 + r.val = dst.toNat ∧
        (m.step.machine.registers.get r).toNat = c.toNat % 32768)

theorem takes_of_reading (h : m.reading = true) :
    ∃ c, m.Takes c ∧ m.step.machine.input = m.input.drop := by
  unfold reading at h
  split at h
  · rename_i dst hcompleted
    obtain ⟨e, flow, hattempt⟩ := completed?_eq_some_iff.mp hcompleted
    obtain ⟨-, ha⟩ := attempt_eq_completes_iff.mp hattempt
    have hframe := (step_follows hattempt).frame
    have hinput := input_step_of_completes hattempt
    cases ha with
    | @inputRegister _ r c hr hc =>
      refine ⟨c, ⟨dst, hcompleted, hc, .inr ⟨r, Operand.toNat_of_decode_register hr, ?_⟩⟩, hinput⟩
      have hregisters : m.step.machine.registers = m.registers.set r (reduce c.toNat) :=
        congrArg (fun n => n.registers) hframe
      rw [hregisters, Registers.get_set_self, toNat_reduce]
      omega
    | @inputCell _ a c hcell hc =>
      refine ⟨c, ⟨dst, hcompleted, hc, .inl ⟨a, Operand.toNat_of_decode_literal hcell, ?_⟩⟩, hinput⟩
      have hmemory : m.step.machine.memory = m.memory.set a (reduce c.toNat) :=
        congrArg (fun n => n.memory) hframe
      rw [hmemory, Memory.get_set_self, toNat_reduce]
      omega
  · cases h

theorem input_step_of_not_reading (h : m.reading = false) : m.step.machine.input = m.input := by
  by_cases hc : ∃ i e flow, m.attempt = .completes i e flow
  · obtain ⟨i, e, flow, hattempt⟩ := hc
    obtain ⟨-, ha⟩ := attempt_eq_completes_iff.mp hattempt
    rw [input_step_of_completes hattempt, if_neg]
    intro hreads
    obtain ⟨dst, c, rfl, -⟩ := ha.next_of_reads hreads
    simp only [reading, completed?, hattempt] at h
    cases h
  · exact input_step_of_not_completes fun i e flow hattempt => hc ⟨i, e, flow, hattempt⟩

end Machine

/-- The machines on which an instruction that reads was completed. -/
def readings (past : List Machine) : List Machine :=
  past.filter (·.reading)

/-! ## Conservation -/

namespace Session

/-- On the way from `s` to `t`, with these lines entered and instructions tried on these machines,
all characters are accounted for: those that were queued or entered have been taken, each by an
instruction that read it, or are still queued. -/
def Conserves (s : Session) (entered : List String) (past : List Machine) (t : Session) : Prop :=
  ∃ taken, s.machine.input.pending ++ entered.flatMap lineChars =
      taken ++ t.machine.input.pending ∧
    List.Forall₂ Machine.Takes (readings past) taken

theorem Conserves.of_eq {s t : Session}
    (h : t.machine.input.pending = s.machine.input.pending) : Conserves s [] [] t :=
  ⟨[], by simp [h], .nil⟩

theorem Conserves.trans {s t u : Session} {entered entered' : List String}
    {past past' : List Machine} (h : Conserves s entered past t)
    (h' : Conserves t entered' past' u) :
    Conserves s (entered ++ entered') (past ++ past') u := by
  obtain ⟨taken, heq, htaken⟩ := h
  obtain ⟨taken', heq', htaken'⟩ := h'
  refine ⟨taken ++ taken', ?_, ?_⟩
  · calc s.machine.input.pending ++ (entered ++ entered').flatMap lineChars
        = taken ++ (t.machine.input.pending ++ entered'.flatMap lineChars) := by
          rw [List.flatMap_append, ← List.append_assoc, heq, List.append_assoc]
      _ = taken ++ taken' ++ u.machine.input.pending := by
          rw [heq', List.append_assoc]
  · unfold readings
    rw [List.filter_append]
    exact List.rel_append htaken htaken'

theorem Conserves.step (s : Session) : Conserves s [] [s.machine] s.step.2 := by
  have hstep : s.step.2.machine = s.machine.step.machine := rfl
  unfold Conserves
  rw [hstep]
  cases hreading : s.machine.reading with
  | true =>
    obtain ⟨c, htakes, hinput⟩ := Machine.takes_of_reading hreading
    refine ⟨[c], ?_, ?_⟩
    · obtain ⟨dst, -, hhead, -⟩ := id htakes
      obtain ⟨rest, hpending⟩ := List.head?_eq_some_iff.mp hhead
      rw [hinput, Input.drop, hpending, List.flatMap_nil, List.append_nil]
      rfl
    · simpa [readings, hreading] using htakes
  | false =>
    refine ⟨[], ?_, ?_⟩
    · rw [Machine.input_step_of_not_reading hreading]
      simp
    · simp [readings, hreading]

theorem Conserves.enter (s : Session) (line : String) : Conserves s [line] [] (s.enter line) :=
  ⟨[], by simp [machine_enter, Machine.enter, Input.enter], .nil⟩

theorem Conserves.execute (budget : Nat) (s : Session) :
    Conserves s [] (s.trail budget) (s.execute budget).2 :=
  execute_keeps (Q := fun s past t => Conserves s [] past t) (fun _ => .of_eq rfl)
    (fun _ _ _ _ _ h h' => h.trans h') Conserves.step budget s

/-- Nothing is put into the queue while a slice is executed. -/
theorem suffix_execute (budget : Nat) (s : Session) :
    (s.execute budget).2.machine.input.pending <:+ s.machine.input.pending := by
  obtain ⟨taken, heq, -⟩ := Conserves.execute budget s
  rw [List.flatMap_nil, List.append_nil] at heq
  exact ⟨taken, heq.symm⟩

end Session

universe u v

namespace Run

variable {σ : Type u} {κ : Type v} [LineSource σ] [Sink κ]

theorem conserves_round (slice : Nat) (r : Run σ κ) :
    Session.Conserves r.session ((r.asks slice).filterMap (LineReply.line? ·.2))
      (r.session.trail slice) (r.round slice).run.session := by
  obtain ⟨s, source, sink⟩ := r
  have h := Session.Conserves.execute slice s
  simp only [Run.round, asks]
  cases hexec : s.execute slice with
  | mk event u =>
    rw [hexec] at h
    rcases event with _ | ⟨c⟩ | _ | _ | ⟨f⟩
    · exact h
    · dsimp only
      split
      · exact h
      · exact h
    · cases hread : LineSource.readLine source with
      | mk reply source' =>
        rcases reply with e | _ | line
        · exact h
        · exact h
        · have hentered := h.trans (Session.Conserves.enter u line)
          rw [List.append_nil] at hentered
          exact hentered
    · exact h
    · exact h

theorem conserves_drive {rounds : Nat} {r t : Run σ κ} {result : Except Fault Unit}
    (h : r.drive rounds = some (result, t)) :
    Session.Conserves r.session (r.entered rounds) (r.trail rounds) t.session := by
  induction rounds generalizing r with
  | zero => cases h
  | succ rounds ih =>
    have hround := conserves_round slice r
    simp only [drive] at h
    simp only [entered, reads, trail, List.filterMap_append]
    cases hr : r.round slice with
    | goesOn next =>
      rw [hr] at h hround
      exact hround.trans (ih h)
    | ends final last =>
      rw [hr] at h hround
      cases h
      rw [List.filterMap_nil, List.append_nil, List.append_nil]
      exact hround

end Run

theorem Call.Performs.conserves {c : Call} {s t : Session} {r : Report} (h : c.Performs s r t) :
    Session.Conserves s r.entered r.tried t := by
  obtain ⟨rounds, h⟩ := h
  cases c with
  | execute budget =>
    cases h
    exact .execute budget s
  | enter line =>
    cases h
    exact .enter s line
  | close =>
    cases h
    exact .of_eq rfl
  | run source sink =>
    obtain ⟨⟨result, u⟩, hd, hu⟩ := Option.map_eq_some_iff.mp h
    cases hu
    exact Run.conserves_drive hd

theorem Plays.conserves {s t : Session} {calls : List Call} {reports : List Report}
    (h : Plays s calls reports t) :
    Session.Conserves s (reports.flatMap (·.entered)) (Report.trail reports) t := by
  induction h with
  | nil s => exact .of_eq rfl
  | cons hc _ ih => exact hc.conserves.trans ih

/-! ## Lines on demand -/

/-- What can be left of the last line that was entered: a part of it without its beginning. Of no
line nothing is left. -/
def Leftover : (last : Option String) → (pending : List Char) → Prop
  | none, pending => pending = []
  | some line, pending => pending <:+ lineChars line ∧ pending ≠ lineChars line

theorem Leftover.of_suffix {last : Option String} {pending pending' : List Char}
    (h : Leftover last pending) (hs : pending' <:+ pending) : Leftover last pending' := by
  cases last with
  | none =>
    cases h
    exact List.suffix_nil.mp hs
  | some line =>
    obtain ⟨hsuffix, hne⟩ := h
    refine ⟨hs.trans hsuffix, ?_⟩
    intro heq
    rw [heq] at hs
    exact hne (hsuffix.eq_of_length_le hs.length_le)

/-- What waits for input reads as soon as a line is entered. -/
theorem Machine.reading_enter {m : Machine} {i : Instr} (h : m.attempt = .waits i)
    (line : String) : (m.enter line).reading = true := by
  obtain ⟨hf, hplan⟩ := attempt_eq_waits_iff.mp h
  obtain ⟨dst, place, rfl, hplace, -, -⟩ := plan_eq_wait_iff.mp hplan
  obtain ⟨c, hc⟩ : ∃ c, (m.enter line).input.next? = some c := by
    rw [enter, input_of_waits h]
    exact ⟨_, List.head?_eq_some_head (lineChars_ne_nil line)⟩
  have hcompleted : (m.enter line).completed? = some (.input dst) := by
    rw [completed?_eq_some_iff]
    cases place with
    | register r => exact ⟨_, _, attempt_eq_completes_iff.mpr ⟨hf, .inputRegister hplace hc⟩⟩
    | literal a => exact ⟨_, _, attempt_eq_completes_iff.mpr ⟨hf, .inputCell hplace hc⟩⟩
  simp only [reading, hcompleted]

/-- A slice that starts with a reading instruction takes the first of the pending characters. -/
theorem Session.leftover_execute {s : Session} {line : String}
    (hpending : s.machine.input.pending = lineChars line) (hrun : s.machine.status = .running)
    (hreading : s.machine.reading = true) (budget : Nat) :
    Leftover (some line) (s.execute (budget + 1)).2.machine.input.pending := by
  obtain ⟨taken, heq, htaken⟩ := Conserves.execute (budget + 1) s
  have hfirst : s.machine ∈ readings (s.trail (budget + 1)) := by
    refine List.mem_filter.mpr ⟨?_, hreading⟩
    simp only [trail, hrun, tries]
    split <;> simp
  have hpos : 0 < taken.length := by
    rw [← htaken.length_eq]
    exact List.length_pos_of_mem hfirst
  rw [hpending, List.flatMap_nil, List.append_nil] at heq
  refine ⟨⟨taken, heq.symm⟩, ?_⟩
  intro hwhole
  have hlength := congrArg List.length heq
  rw [hwhole, List.length_append] at hlength
  omega

namespace Run

variable {σ : Type u} {κ : Type v}

/-- Between two rounds: the queue holds what is left of the last line, or the line is still whole
and the next instruction begins it. -/
def Served (last : Option String) (r : Run σ κ) : Prop :=
  Leftover last r.session.machine.input.pending ∨
    ∃ line, last = some line ∧ r.session.machine.input.pending = lineChars line ∧
      r.session.machine.status = .running ∧ r.session.machine.reading = true

variable {last : Option String} {r t : Run σ κ}

/-- Whatever happens in a slice, the line has been begun at its end. -/
theorem Served.execute (h : r.Served last) {budget : Nat} (hpos : 0 < budget) :
    Leftover last (r.session.execute budget).2.machine.input.pending := by
  obtain ⟨budget, rfl⟩ := Nat.exists_eq_add_one.mpr hpos
  rcases h with hleft | ⟨line, rfl, hpending, hrun, hreading⟩
  · exact hleft.of_suffix (Session.suffix_execute _ _)
  · exact Session.leftover_execute hpending hrun hreading budget

variable [LineSource σ] [Sink κ]

/-- A round may enter a line after its slice, but only if the run goes on to begin it. -/
theorem Served.round (h : r.Served last) {budget : Nat} (hpos : 0 < budget) :
    match r.round budget with
    | .goesOn next =>
      next.Served (((r.asks budget).filterMap (LineReply.line? ·.2)).getLast?.or last)
    | .ends _ next =>
      Leftover (((r.asks budget).filterMap (LineReply.line? ·.2)).getLast?.or last)
        next.session.machine.input.pending := by
  have hleft := h.execute hpos
  obtain ⟨s, source, sink⟩ := r
  simp only [Run.round, asks]
  cases hexec : s.execute budget with
  | mk event u =>
    rw [hexec] at hleft
    rcases event with _ | ⟨c⟩ | _ | _ | ⟨f⟩
    · exact .inl hleft
    · dsimp only
      cases Sink.put sink c with
      | mk reply sink' =>
        cases reply with
        | ok => exact .inl hleft
        | error e => exact hleft
    · obtain ⟨hrun, i, hwaits⟩ := Session.waits_of_execute hexec
      cases hread : LineSource.readLine source with
      | mk reply source' =>
        rcases reply with e | _ | line
        · exact hleft
        · exact .inl hleft
        · refine .inr ⟨line, rfl, ?_, hrun, Machine.reading_enter hwaits line⟩
          dsimp only
          rw [Session.machine_enter, Machine.enter, Machine.input_of_waits hwaits]
          rfl
    · exact hleft
    · exact hleft

theorem Served.drive {rounds : Nat} {result : Except Fault Unit} (h : r.Served last)
    (hd : r.drive rounds = some (result, t)) :
    Leftover ((r.entered rounds).getLast?.or last) t.session.machine.input.pending := by
  induction rounds generalizing r last with
  | zero => cases hd
  | succ rounds ih =>
    have hround := h.round (show 0 < slice by decide)
    simp only [Run.drive] at hd
    simp only [entered, reads, List.filterMap_append, List.getLast?_append, Option.or_assoc]
    cases hr : r.round slice with
    | goesOn next =>
      rw [hr] at hd hround
      exact ih hround hd
    | ends final next =>
      rw [hr] at hd hround
      cases hd
      exact hround

/-- A line is asked for only while the queue is empty. -/
theorem pending_of_reads {rounds : Nat} {ask : Input × LineReply} (h : ask ∈ r.reads rounds) :
    ask.1.pending = [] := by
  induction rounds generalizing r with
  | zero => cases h
  | succ rounds ih =>
    rcases List.mem_append.mp h with h | h
    · unfold asks at h
      split at h
      · rename_i u hexec
        obtain ⟨-, i, hwaits⟩ := Session.waits_of_execute hexec
        cases List.mem_singleton.mp h
        rw [Machine.input_of_waits hwaits]
      · cases h
    · cases hr : r.round slice with
      | goesOn next =>
        rw [hr] at h
        exact ih h
      | ends final next =>
        rw [hr] at h
        cases h

end Run

/-! ## The ends of lines -/

/-- Such an ending is all that ends the line `body ++ ending`: at most one line feed, and before it
at most one carriage return. -/
def LineEnding (body ending : List Char) : Prop :=
  ending = ['\r', '\n'] ∨ ending = ['\n'] ∧ ¬ ['\r'] <:+ body ∨ ending = ['\r'] ∨
    ending = [] ∧ ¬ ['\n'] <:+ body ∧ ¬ ['\r'] <:+ body

theorem dropFinal_append (c : Char) (cs : List Char) : dropFinal c (cs ++ [c]) = cs := by
  simp [dropFinal]

theorem dropFinal_of_not_suffix {c : Char} {cs : List Char} (h : ¬ [c] <:+ cs) :
    dropFinal c cs = cs := by
  unfold dropFinal
  rw [if_neg]
  intro hlast
  obtain ⟨front, rfl⟩ := List.getLast?_eq_some_iff.mp hlast
  exact h (List.suffix_append front [c])

/-- A line is queued with a line feed in place of whatever ended it. -/
theorem lineChars_of_ending (line : String) :
    ∃ body ending, line.toList = body ++ ending ∧ LineEnding body ending ∧
      lineChars line = body ++ ['\n'] := by
  have hcr (cs : List Char) : ∃ body ending, cs = body ++ ending ∧ dropFinal '\r' cs = body ∧
      (ending = ['\r'] ∨ ending = [] ∧ ¬ ['\r'] <:+ body) := by
    by_cases h : ['\r'] <:+ cs
    · obtain ⟨body, rfl⟩ := h
      exact ⟨body, ['\r'], rfl, dropFinal_append _ _, .inl rfl⟩
    · exact ⟨cs, [], by simp, dropFinal_of_not_suffix h, .inr ⟨rfl, h⟩⟩
  unfold lineChars
  by_cases hlf : ['\n'] <:+ line.toList
  · obtain ⟨front, hfront⟩ := hlf
    obtain ⟨body, ending, rfl, hdrop, hending⟩ := hcr front
    rw [← hfront, dropFinal_append, hdrop]
    refine ⟨body, ending ++ ['\n'], by simp, ?_, rfl⟩
    rcases hending with rfl | ⟨rfl, hnot⟩
    · exact .inl rfl
    · exact .inr (.inl ⟨rfl, hnot⟩)
  · rw [dropFinal_of_not_suffix hlf]
    obtain ⟨body, ending, hline, hdrop, hending⟩ := hcr line.toList
    rw [hdrop]
    refine ⟨body, ending, hline, ?_, rfl⟩
    rcases hending with rfl | ⟨rfl, hnot⟩
    · exact .inr (.inr (.inl rfl))
    · rw [hline, List.append_nil] at hlf
      exact .inr (.inr (.inr ⟨rfl, hlf, hnot⟩))

/-! ## No character is lost -/

/-- **No character is lost, doubled or put out of order.** What was entered so far, each line with
one line feed for its end, is what the completed reading instructions have taken, in their
order, and behind it what is queued. A run that starts with an empty queue asks for a line only
while the queue is empty, and leaves at most a part of the last line it read. -/
theorem input_conserved {threshold : Level} {image : List Word} {advance : Advance}
    {calls : List Call} {reports : List Report} {t : Session}
    (h : Plays (Session.boot { threshold := threshold } image advance) calls reports t) :
    (∀ line : String, ∃ body ending, line.toList = body ++ ending ∧ LineEnding body ending ∧
      lineChars line = body ++ ['\n']) ∧
    (∃ taken, (reports.flatMap (·.entered)).flatMap lineChars =
        taken ++ t.machine.input.pending ∧
      List.Forall₂ Machine.Takes (readings (Report.trail reports)) taken) ∧
    ∀ (σ κ : Type) [LineSource σ] [Sink κ] (source : σ) (sink : κ) (rounds : Nat),
      t.machine.input.pending = [] →
      (∀ ask ∈ Run.reads rounds ⟨t, source, sink⟩, ask.1.pending = []) ∧
      ∀ result u, Run.drive rounds ⟨t, source, sink⟩ = some (result, u) →
        Leftover (Run.entered rounds ⟨t, source, sink⟩).getLast?
          u.session.machine.input.pending := by
  refine ⟨lineChars_of_ending, h.conserves, ?_⟩
  intro σ κ _ _ source sink rounds hempty
  refine ⟨fun ask hask => Run.pending_of_reads hask, ?_⟩
  intro result u hd
  have hserved : Run.Served none ⟨t, source, sink⟩ := .inl hempty
  have hleft := hserved.drive hd
  rw [Option.or_none] at hleft
  exact hleft

/-- The program that echoes a character takes it from a line entered before, or from one it asks
for. -/
theorem input_conserved_by_echo :
    ∃ s t m reports, Plays s [.enter "a\r\n", .execute 1] reports t ∧
      t.machine.input.pending = ['\n'] ∧ readings (Report.trail reports) = [m] ∧ m.Takes 'a' ∧
      ∃ (rounds : Nat) (u : Run Replies BoundedSink),
        Run.drive rounds ⟨s, ⟨[.ok (some "a")]⟩, {}⟩ = some (.ok (), u) ∧
        Leftover
          (Run.entered rounds ⟨s, (⟨[.ok (some "a")]⟩ : Replies), ({} : BoundedSink)⟩).getLast?
          u.session.machine.input.pending := by
  obtain ⟨mem, s, hboot, hs, h₀, h₂, h₄⟩ := boot_echo
  have hplays : Plays s [.enter "a\r\n", .execute 1] _ _ :=
    .cons ⟨0, rfl⟩ (.cons ⟨0, rfl⟩ (.nil _))
  have hchars : lineChars "a\r\n" = ['a', '\n'] := by decide
  have hp : (s.enter "a\r\n").machine =
      { memory := mem, advance := .flat, input := ⟨['a', '\n'], false⟩ } := by
    rw [Session.machine_enter, hs, Machine.enter, Input.enter, hchars]
    rfl
  generalize s.enter "a\r\n" = p at hp hplays
  have hdst : Operand.decode 32768 = .ok (.register 0) := Operand.decode_encode (.register 0)
  obtain ⟨-, ht⟩ := Session.execute_one_of_rules hp rfl h₀ (.inputRegister hdst rfl)
  have hpending : (p.execute 1).2.machine.input.pending = ['\n'] := by
    rw [ht]
    rfl
  obtain ⟨-, ⟨taken, heq, htakes⟩, -⟩ := input_conserved (hboot ▸ hplays)
  have htaken : taken = ['a'] := by
    rw [hpending] at heq
    have hentered : taken ++ ['\n'] = ['a'] ++ ['\n'] :=
      heq.symm.trans ((List.append_nil _).trans hchars)
    exact List.append_cancel_right hentered
  subst htaken
  generalize hr : readings (Report.trail _) = ms at htakes
  cases htakes with
  | cons htakes hrest =>
    cases hrest
    obtain ⟨u, hends, -⟩ := ends_echo h₀ h₂ h₄ hs
    obtain ⟨rounds, hd⟩ := Run.exists_drive_iff_ends.mpr hends
    have hnone : Plays (Session.boot { threshold := .warn } echoImage .flat) [] [] s := by
      rw [hboot]
      exact .nil s
    obtain ⟨-, -, hlazy⟩ := input_conserved hnone
    obtain ⟨-, hleft⟩ := hlazy _ _ (⟨[.ok (some "a")]⟩ : Replies) ({} : BoundedSink) rounds
      (by rw [hs])
    exact ⟨s, _, _, _, hplays, hpending, hr, htakes, rounds, u, hd, hleft _ _ hd⟩

end Wordcode
