import Wordcode.Proofs.Code.RoundTrip
import Wordcode.Proofs.Console.Cycles
import Wordcode.Proofs.Host.Endings
import Wordcode.Proofs.Host.Lockstep
import Wordcode.Proofs.Host.TextBytes

/-! The command line and `Run.drive`. A console and a run are two loops around the same session;
they differ in the number of instructions between two looks at the outside, in the journal they
keep, and in that the console shows the lines of its script as it reads them. They are kept in step
turn by turn, with the conversation of the run as the witness of what was printed and read when. -/

namespace Wordcode

universe u

/-! ## Faults of the machine's own -/

namespace Machine

variable {image : List Word} {m : Machine}

/-- The words of a machine never show that a stream failed. -/
theorem kind_of_diagnosis {f : Fault} (h : m.diagnosis = some f) : f.kind ≠ .io := by
  unfold diagnosis blame at h
  repeat' split at h
  all_goals cases h
  all_goals simp

/-- The machine keeps its bounds, and no stream has made it fault. -/
structure Internal (image : List Word) (m : Machine) : Prop where
  bounded : m.Bounded image
  kind : ∀ f, m.status = .faulted f → f.kind ≠ .io

theorem Internal.step (h : m.Internal image) : m.step.machine.Internal image := by
  refine ⟨h.bounded.step, ?_⟩
  have ht := step_trial m
  generalize m.step.machine = after at ht ⊢
  generalize m.step.event = event at ht
  intro f hf
  cases ht with
  | @fault g hg =>
    cases hf
    refine kind_of_diagnosis (m := m) ?_
    rw [h.bounded.diagnosis_eq, hg]
    rfl
  | wait => exact h.kind f hf
  | complete _ _ hfollow =>
    cases hfollow with
    | jump | next | print => exact h.kind f hf
    | halt | last | lastPrint => cases hf

theorem Internal.withInput (h : m.Internal image) (input : Input) :
    Internal image { m with input } :=
  ⟨h.bounded.congr rfl rfl rfl h.bounded.pc, h.kind⟩

end Machine

/-! ## What the journal notes -/

/-- The journal has this threshold and holds only remarks that reach it, and no warning. -/
structure Journal.Within (low : Level) (j : Journal) : Prop where
  threshold : j.threshold = low
  remarks : ∀ r ∈ j.remarks.toList, low ≤ r.level ∧ r.level < .warn

theorem Journal.Within.noteAll {low : Level} {j : Journal} (h : j.Within low) {rs : List Remark}
    (hrs : ∀ r ∈ rs, r.level < .warn) : (j.noteAll rs).Within low := by
  obtain ⟨hlow, hremarks⟩ := h
  refine ⟨(threshold_noteAll j rs).trans hlow, ?_⟩
  intro r hr
  rw [remarks_noteAll, hlow, List.mem_append, List.mem_filter] at hr
  rcases hr with hr | ⟨hr, hreaches⟩
  · exact hremarks r hr
  · exact ⟨by simpa using hreaches, hrs r hr⟩

theorem Journal.Within.note {low : Level} {j : Journal} (h : j.Within low) {r : Remark}
    (hr : r.level < .warn) : (j.note r).Within low :=
  h.noteAll (List.forall_mem_singleton.mpr hr)

theorem Machine.level_of_follow (m : Machine) (i : Instr) (flow : Flow) :
    ∀ r ∈ (m.follow i flow).remarks, r.level < .warn := by
  have hinfo : Level.info < .warn := by decide
  have hproceed (printed : Option Char) : ∀ r ∈ (m.proceed i printed).remarks, r.level < .warn := by
    unfold proceed
    split
    · simp
    · simp [halt, Remark.level, hinfo]
  cases flow with
  | next => exact hproceed none
  | print c => exact hproceed (some c)
  | jump target => simp [follow]
  | halt => simp [follow, halt, Remark.level, hinfo]

/-- A machine gives no warnings. -/
theorem Machine.level_of_step (m : Machine) : ∀ r ∈ m.step.remarks, r.level < .warn := by
  have htrace : Level.trace < .warn := by decide
  have hdebug : Level.debug < .warn := by decide
  unfold step
  split
  · simp [abort, Remark.level, hdebug]
  · simp [abort, Turn.after, Remark.level, hdebug, htrace]
  · simp [Remark.level, htrace]
  · rename_i i effect flow _
    have hfollow := (m.apply effect).tick.level_of_follow i flow
    exact List.forall_mem_cons.mpr ⟨htrace, hfollow⟩

namespace Session

variable {s : Session} {low : Level} {image : List Word}

theorem within_execute (h : s.journal.Within low) (budget : Nat) :
    (s.execute budget).2.journal.Within low := by
  refine execute_preserves (P := fun s => s.journal.Within low) ?_ h budget
  intro s h
  exact h.noteAll s.machine.level_of_step

theorem internal_execute (h : s.machine.Internal image) (budget : Nat) :
    (s.execute budget).2.machine.Internal image := by
  refine execute_preserves (P := fun s => s.machine.Internal image) ?_ h budget
  intro s h
  exact h.step

end Session

/-! ## What is shown -/

/-- What is shown of a conversation to someone who sees the script: the characters printed and, as
long as the script lasts, for each line that was asked for the next line of the script. -/
def shown : (script : List String) → List Exchange → List Char
  | _, [] => []
  | script, .printed c :: said => c :: shown script said
  | line :: script, .heard _ :: said => line.toList ++ '\n' :: shown script said
  | [], .heard _ :: said => shown [] said

/-- The lines of the script that were not yet asked for. -/
def unread : (script : List String) → List Exchange → List String
  | script, [] => script
  | script, .printed _ :: said => unread script said
  | script, .heard _ :: said => unread script.tail said

theorem unread_append (script : List String) (said more : List Exchange) :
    unread script (said ++ more) = unread (unread script said) more := by
  induction said generalizing script with
  | nil => rfl
  | cons e said ih => cases e <;> exact ih _

theorem shown_append (script : List String) (said more : List Exchange) :
    shown script (said ++ more) = shown script said ++ shown (unread script said) more := by
  induction said generalizing script with
  | nil => rfl
  | cons e said ih =>
    cases e with
    | printed c => simp [shown, unread, ih]
    | heard reply => cases script <;> simp [shown, unread, ih]

theorem shown_printed (script : List String) (said : List Exchange) (c : Char) :
    shown script (said ++ [.printed c]) = shown script said ++ [c] := by
  rw [shown_append]
  rfl

theorem unread_heard (script : List String) (said : List Exchange) (reply : LineReply) :
    unread script (said ++ [.heard reply]) = (unread script said).tail :=
  unread_append script said _

/-- Without a script, what is heard does not show. -/
theorem shown_heard_of_nil {script : List String} {said : List Exchange}
    (h : unread script said = []) (reply : LineReply) :
    shown script (said ++ [.heard reply]) = shown script said := by
  rw [shown_append, h]
  exact List.append_nil _

theorem shown_heard_of_cons {script rest : List String} {said : List Exchange} {line : String}
    (h : unread script said = line :: rest) (reply : LineReply) :
    shown script (said ++ [.heard reply]) = shown script said ++ (line ++ "\n").toList := by
  rw [shown_append, h, String.toList_append]
  rfl

theorem unread_nil (said : List Exchange) : unread [] said = [] := by
  induction said with
  | nil => rfl
  | cons e said ih => cases e <;> exact ih

/-! ## Turn by turn -/

namespace Console.Scene

variable {σ : Type u}

/-- A console and a run that have come equally far: their machines are the same, they have the same
lines before them, and each has written its account of what was said. -/
structure InStep (low : Level) (image : List Word) (script : List String) (x : Scene σ)
    (a : Run (Script σ) BoundedSink × List Exchange) : Prop where
  machine : a.1.session.machine = x.session.machine
  source : a.1.source = ⟨x.script, x.stdin⟩
  left : x.script = unread script a.2
  printed : x.printed.toList = shown script a.2
  sink : a.1.sink = ({} : BoundedSink).filled (shown [] a.2)
  journal : x.session.journal.Within low
  internal : x.session.machine.Internal image

section Kept

variable {low : Level} {image : List Word} {script : List String} {x : Scene σ}
  {r : Run (Script σ) BoundedSink} {said : List Exchange}

/-- Executing a slice tells both the same. -/
theorem InStep.execute (h : InStep low image script x (r, said)) (budget : Nat) :
    (r.session.execute budget).1 = (x.session.execute budget).1 ∧
      InStep low image script { x with session := (x.session.execute budget).2 }
        ({ r with session := (r.session.execute budget).2 }, said) := by
  obtain ⟨hevent, hmachine⟩ := Session.lockstep_machine.execute h.machine
    (fun _ _ => trivial : ∀ m ∈ x.session.trail budget, True)
  exact ⟨hevent, { h with
    machine := hmachine
    journal := Session.within_execute h.journal budget
    internal := Session.internal_execute h.internal budget }⟩

theorem InStep.print (h : InStep low image script x (r, said)) (c : Char) :
    InStep low image script { x with printed := x.printed ++ c.toString }
      ({ r with sink := r.sink.filled [c] }, said ++ [.printed c]) := by
  refine { h with left := ?_, printed := ?_, sink := ?_ }
  · rw [unread_append]
    exact h.left
  · simp [shown_printed, ← h.printed]
  · rw [shown_printed, ← BoundedSink.filled_filled, ← h.sink]

/-- A line of the script is shown as it is read. -/
theorem InStep.replay (h : InStep low image script x (r, said)) {line : String}
    {rest : List String} (hscript : x.script = line :: rest) (reply : LineReply) :
    InStep low image script { x with printed := x.printed ++ (line ++ "\n"), script := rest }
      ({ r with source := ⟨rest, x.stdin⟩ }, said ++ [.heard reply]) := by
  have hleft : unread script said = line :: rest := h.left.symm.trans hscript
  refine { h with source := rfl, left := ?_, printed := ?_, sink := ?_ }
  · rw [unread_heard, hleft]
    rfl
  · rw [shown_heard_of_cons hleft, ← h.printed]
    exact String.toList_append
  · rw [shown_heard_of_nil (unread_nil said)]
    exact h.sink

/-- A line of standard input is not shown. -/
theorem InStep.read (h : InStep low image script x (r, said)) (hscript : x.script = [])
    (reply : LineReply) (stdin : σ) :
    InStep low image script { x with stdin }
      ({ r with source := ⟨x.script, stdin⟩ }, said ++ [.heard reply]) := by
  have hleft : unread script said = [] := h.left.symm.trans hscript
  refine { h with source := rfl, left := ?_, printed := ?_, sink := ?_ }
  · rw [unread_heard, hleft]
    exact hscript
  · rw [shown_heard_of_nil hleft]
    exact h.printed
  · rw [shown_heard_of_nil (unread_nil said)]
    exact h.sink

theorem InStep.enter (h : InStep low image script x (r, said)) (line : String) :
    InStep low image script { x with session := x.session.enter line }
      ({ r with session := r.session.enter line }, said) :=
  { h with
    machine := congrArg (·.enter line) h.machine
    journal := h.journal.note (show Level.debug < .warn by decide)
    internal := h.internal.withInput _ }

theorem InStep.close (h : InStep low image script x (r, said)) :
    InStep low image script { x with session := x.session.close }
      ({ r with session := r.session.close }, said) :=
  { h with
    machine := congrArg Machine.close h.machine
    journal := h.journal.note (show Level.debug < .warn by decide)
    internal := h.internal.withInput _ }

end Kept

variable [LineSource σ]

/-- How the command line ends if the run ends with this result. A stream's failure is told by the
run with an address, by the command line without. -/
inductive Tells (σ : Type u) [LineSource σ] : Except Fault Unit → Outcome → Prop where
  | halted : Tells σ (.ok ()) .halted
  | faulted {f : Fault} : f.kind ≠ .io → Tells σ (.error f) (.faulted f)
  | broken {e : StreamError} {source : σ} (pc : Nat) : (LineSource.readLine source).1 = .error e →
      Tells σ (.error ((Fault.ofStream e).located pc)) (.broken (.ofStream e))

/-- A console and a run that have ended alike. -/
structure EndInStep (low : Level) (script : List String) (x : Outcome × Scene σ)
    (a : Except Fault Unit × Run (Script σ) BoundedSink × List Exchange) : Prop where
  outcome : Tells σ a.1 x.1
  printed : x.2.printed.toList = shown script a.2.2
  sink : a.2.1.sink = ({} : BoundedSink).filled (shown [] a.2.2)
  journal : x.2.session.journal.Within low

/-- A sink without a limit takes every character. -/
theorem put_filled (cs : List Char) (c : Char) :
    Sink.put (({} : BoundedSink).filled cs) c =
      (.ok (), (({} : BoundedSink).filled cs).filled [c]) := by
  rw [BoundedSink.put_of_room rfl]
  rfl

/-- One turn of the console and one round of the run with the same budget. -/
theorem next_inStep {low : Level} {image : List Word} {script : List String} {x : Scene σ}
    {a : Run (Script σ) BoundedSink × List Exchange} (h : InStep low image script x a)
    (budget : Nat) :
    Sum.LiftRel (InStep low image script) (EndInStep low script) (x.next budget)
      (Run.converse budget a) := by
  obtain ⟨stdin, printed, s, left⟩ := x
  obtain ⟨⟨t, source, sink⟩, said⟩ := a
  obtain ⟨hevent, hafter⟩ := h.execute budget
  obtain rfl : source = ⟨left, stdin⟩ := h.source
  simp only [next, console, turn, Run.converse, Run.round, Run.exchanges]
  cases hs : s.execute budget with
  | mk event s' =>
    cases ht : t.execute budget with
    | mk event' t' =>
      simp only [hs, ht] at hevent hafter
      subst hevent
      rcases event' with _ | c | _ | _ | f
      · rw [List.append_nil]
        exact .inl hafter
      · have hput := put_filled (shown [] said) c
        rw [← h.sink] at hput
        simp only [hput]
        exact .inl (hafter.print c)
      · cases left with
        | cons line rest => exact .inl ((hafter.replay rfl _).enter line)
        | nil =>
          cases hreply : LineSource.readLine stdin with
          | mk reply stdin' =>
            have hread : LineSource.readLine (⟨[], stdin⟩ : Script σ) = (reply, ⟨[], stdin'⟩) := by
              simp only [LineSource.readLine, Script.readLine] at hreply ⊢
              rw [hreply]
            have hheard := hafter.read rfl reply stdin'
            simp only [hread]
            rcases reply with e | _ | line
            · exact .inr ⟨.broken _ (congrArg Prod.fst hreply), hheard.printed, hheard.sink,
                hheard.journal⟩
            · exact .inl hheard.close
            · exact .inl (hheard.enter line)
      · rw [List.append_nil]
        exact .inr ⟨.halted, hafter.printed, hafter.sink, hafter.journal⟩
      · have hstatus : s'.machine.status = .ofResult (.error f) := Session.status_of_execute hs
        rw [List.append_nil]
        exact .inr ⟨.faulted (hafter.internal.kind f hstatus), hafter.printed, hafter.sink,
          hafter.journal⟩

theorem loop_inStep {low : Level} {image : List Word} {script : List String} {x : Scene σ}
    {a : Run (Script σ) BoundedSink × List Exchange} (h : InStep low image script x a)
    (budgets : Nat → Nat) (rounds : Nat) :
    Option.Rel (EndInStep low script) (loop next budgets rounds x)
      (loop Run.converse budgets rounds a) :=
  loop_rel (R := InStep low image script) (fun budget _ _ h => next_inStep h budget) h

end Console.Scene

/-! ## From the command line -/

/-- Standard input fails only if it is no text. -/
theorem ByteLines.eq_of_error {source : ByteLines} {e : StreamError}
    (h : (LineSource.readLine source).1 = .error e) : e = .invalidUtf8 := by
  simp only [LineSource.readLine, ByteLines.readLine] at h
  split at h
  · cases h
  · simp only [decodeUtf8] at h
    split at h <;> cases h
    rfl

/-- Booting an image that fits is no reason for a warning. -/
theorem Session.within_boot {low : Level} {journal : Journal} {words : List Word}
    (h : journal.Within low) (hfits : words.length ≤ memorySize) (advance : Advance) :
    (boot journal words advance).journal.Within low := by
  rw [journal_boot_of_le journal advance hfits]
  exact h.note (show Level.debug < .warn by decide)

/-- With an accepted image and a script that is text, the console starts. -/
theorem Console.start_eq_ok {files : Files} {o : Options} {bytes : List UInt8} {words : List Word}
    {script : Option String} (reason : String) (himage : files o.image = .ok bytes)
    (hload : Image.load bytes = .ok words)
    (hscript : o.script.map files = script.map fun text => .ok (utf8 text.toList)) :
    ∃ journal : Journal, journal.Within (.ofVerbosity o.verbosity) ∧
      start files reason o = .ok { session := .boot journal words o.advance
                                   script := (script.map textLines).getD []
                                   cycles := o.cycles } := by
  have hdebug : Level.debug < .warn := by decide
  have hinfo : Level.info < .warn := by decide
  have hempty : ({ threshold := .ofVerbosity o.verbosity } : Journal).Within
      (.ofVerbosity o.verbosity) := ⟨rfl, by simp⟩
  have hread : ((files o.image).mapError .ofStream >>= Image.load) = .ok words := by
    rw [himage]
    exact hload
  refine ⟨_, (hempty.note (r := .imageRead o.image words.length) hinfo).note
    (r := .plainInput reason) hdebug, ?_⟩
  simp only [start, hread]
  cases hpath : o.script with
  | none =>
    rw [hpath] at hscript
    cases script with
    | none => rfl
    | some text => cases hscript
  | some path =>
    rw [hpath] at hscript
    cases script with
    | none => cases hscript
    | some text =>
      have hfile : files path = .ok (utf8 text.toList) := Option.some.inj hscript
      have htext : (files path >>= decodeUtf8) = .ok text := by
        rw [hfile]
        exact decodeUtf8_utf8 text
      simp only [htext]
      rfl

/-- The run that the options stand for: the image with a source that has the lines of the script
before those of standard input, and a sink that takes everything. -/
def Options.run (o : Options) (journal : Journal) (words : List Word) (lines : List String)
    (stdin : List UInt8) : Run (Script ByteLines) BoundedSink :=
  ⟨.boot journal words o.advance, ⟨lines, ⟨stdin⟩⟩, {}⟩

/-- The transcript of a console whose loop has ended. -/
theorem Transcript.ofOptions_of_loop {files : Files} {stdin : List UInt8} {reason : String}
    {o : Options} {c : Console} {turns : Nat} {outcome : Outcome} {x : Console.Scene ByteLines}
    (time : String) (hstart : Console.start files reason o = .ok c)
    (hloop : loop Console.Scene.next (fun _ => c.cycles) turns (c.scene ⟨stdin⟩ "") =
      some (outcome, x)) :
    ofOptions turns files stdin time reason o =
      some (close (o.stamp time) x.session.journal x.printed outcome) := by
  simp only [ofOptions, hstart, Console.play_eq_loop, hloop]
  rfl

/-- How the standard error of a command line ends if its run ends with this result. -/
def farewell (stamp : Option String) : Except Fault Unit → List String
  | .ok _ => []
  | .error f =>
    if f.kind = .io then [bold "I/O ERROR; stream did not contain valid UTF-8"]
    else ["", bold f.text, Level.error.line stamp ("run aborted: " ++ f.text)]

namespace Console.Scene

variable {result : Except Fault Unit} {outcome : Outcome}

theorem Tells.status (h : Tells ByteLines result outcome) :
    outcome.status = if result.isOk then 0 else 1 := by
  cases h <;> rfl

theorem Tells.closing (h : Tells ByteLines result outcome) (stamp : Option String) :
    outcome.closing stamp = farewell stamp result := by
  cases h with
  | halted => rfl
  | faulted hkind =>
    simp only [Outcome.closing, farewell, if_neg hkind]
    rfl
  | broken pc herror =>
    cases ByteLines.eq_of_error herror
    rfl

/-- Both begin with the same machine and with nothing said. -/
theorem inStep_start (o : Options) {low : Level} {journal : Journal} {words : List Word}
    (h : journal.Within low) (hfits : words.length ≤ memorySize) (journal' : Journal)
    (lines : List String) (stdin : List UInt8) :
    InStep low words lines ⟨⟨stdin⟩, "", .boot journal words o.advance, lines⟩
      (o.run journal' words lines stdin, []) where
  machine := rfl
  source := rfl
  left := rfl
  printed := rfl
  sink := (BoundedSink.filled_nil _).symm
  journal := Session.within_boot h hfits o.advance
  internal := by
    refine ⟨Machine.Bounded.boot words o.advance, ?_⟩
    intro f hf
    rw [Session.machine_boot, Machine.boot_of_le hfits] at hf
    cases hf

end Console.Scene

/-- **The command line does what `Run.drive` does.** Whenever the run of an accepted image ends,
its options end in a transcript as well, whatever their cycles, as long as there is one; so does
every command line that asks for these options, and none asks for less
(`Options.parse_cycles_pos`). The status tells whether the run halted; standard output is what the
sink got, with each line of the script where it was read; standard error is the journal, which
holds no warning, and the words for the result. -/
theorem command_line_agrees_with_run {files : Files} {stdin : List UInt8} {time reason : String}
    {o : Options} {bytes : List UInt8} {words : List Word} {script : Option String}
    {journal : Journal} {n : Nat} {result : Except Fault Unit}
    {t : Run (Script ByteLines) BoundedSink} (hcycles : 0 < o.cycles)
    (himage : files o.image = .ok bytes) (hload : Image.load bytes = .ok words)
    (hscript : o.script.map files = script.map fun text => .ok (utf8 text.toList))
    (hdrive : (o.run journal words ((script.map textLines).getD []) stdin).drive n =
      some (result, t)) :
    ∃ (turns : Nat) (transcript : Transcript) (said : List Exchange) (remarks : List Remark),
      Transcript.ofOptions turns files stdin time reason o = some transcript ∧
      (∀ args, Options.parse args = .ok o →
        Transcript.record turns files stdin time args reason = some transcript) ∧
      loop Run.converse (fun _ => Run.slice) n
        (o.run journal words ((script.map textLines).getD []) stdin, []) =
          some (result, t, said) ∧
      t.sink.accepted.toList = utf8 (shown [] said) ∧
      transcript.stdout.toList = shown ((script.map textLines).getD []) said ∧
      transcript.status = (if result.isOk then 0 else 1) ∧
      transcript.stderr =
        remarks.map (·.line (o.stamp time)) ++ farewell (o.stamp time) result ∧
      ∀ r ∈ remarks, .ofVerbosity o.verbosity ≤ r.level ∧ r.level < .warn := by
  obtain ⟨journal', hjournal, hstart⟩ := Console.start_eq_ok reason himage hload hscript
  generalize (script.map textLines).getD [] = lines at hdrive hstart ⊢
  have hbegin := Console.Scene.inStep_start o hjournal (Image.length_le_of_load hload) journal
    lines stdin
  rw [Run.drive_eq_loop n _ []] at hdrive
  obtain ⟨⟨_, _, said⟩, hsaid, hanswer⟩ := Option.map_eq_some_iff.mp hdrive
  cases hanswer
  -- with the same slices the console ends together with the run
  have hrel := Console.Scene.loop_inStep hbegin (fun _ => Run.slice) n
  rw [hsaid] at hrel
  generalize hloop : loop (@Console.Scene.next ByteLines _) _ n _ = answer at hrel
  cases hrel with
  | @some y _ hend =>
    obtain ⟨outcome, y⟩ := y
    obtain ⟨turns, hturns⟩ := (Console.Scene.next_divisible.loop_iff
      (fun _ => show 0 < Run.slice by decide) (fun _ => hcycles)).mp ⟨n, hloop⟩
    have htranscript := Transcript.ofOptions_of_loop time hstart hturns
    refine ⟨turns, .close (o.stamp time) y.session.journal y.printed outcome, said,
      y.session.journal.remarks.toList, htranscript, ?_, hsaid, ?_, hend.printed,
      hend.outcome.status, ?_, hend.journal.remarks⟩
    · intro args hparse
      rw [Transcript.record_of_parse hparse]
      exact htranscript
    · rw [hend.sink]
      simp [BoundedSink.filled]
    · rw [← hend.outcome.closing, Transcript.close, Journal.lines, Array.toList_map]

/-- The echo, and a script of one line. -/
def echoFiles : Files := fun path =>
  .ok (if path = "s" then utf8 "a".toList else Image.save echoImage)

def echoArgs : List String := ["--flat-advance", "--script=s", "e"]

def echoOptions : Options := { image := "e", script := some "s", advance := .flat }

theorem parse_echoArgs : Options.parse echoArgs = .ok echoOptions := by
  have hflat : Argument.ofString "--flat-advance" = .named "flat-advance" none := by decide
  have hscript : Argument.ofString "--script=s" = .named "script" (some "s") := by decide
  have himage : Argument.ofString "e" = .plain "e" := by decide
  simp [echoArgs, echoOptions, Options.parse, Options.Draft.read, hflat, hscript, himage,
    Options.Draft.takesValue, Options.Draft.switch, Options.Draft.assign, Options.Draft.place,
    Options.Draft.finish, bind, Except.bind, pure, Except.pure]

/-- The run hears the line of the script and echoes its first character. -/
theorem converse_echoOptions :
    ∃ n t, loop Run.converse (fun _ => Run.slice) n
      (echoOptions.run { threshold := .warn } echoImage ["a"] [], []) =
        some (.ok (), t, [.heard (.ok (some "a")), .printed 'a']) := by
  obtain ⟨mem, s, hboot, hs, h₀, h₂, h₄⟩ := boot_echo
  have hsource : LineSource.readLine (⟨["a"], ⟨[]⟩⟩ : Script ByteLines) =
      (.ok (some "a"), ⟨[], ⟨[]⟩⟩) := rfl
  obtain ⟨t, hunit, -⟩ := converse_echo hsource h₀ h₂ h₄ hs
  obtain ⟨n, hloop⟩ := (Run.converse_divisible.loop_iff (fun _ => Nat.one_pos)
    (fun _ => show 0 < Run.slice by decide)).mp ⟨4, hunit⟩
  refine ⟨n, t, ?_⟩
  rw [Options.run, echoOptions, hboot]
  exact hloop

/-- The line of the script is shown where it is read, before its first character is echoed. -/
theorem command_line_agrees_with_run_of_echo :
    ∃ turns, Transcript.record turns echoFiles [] "" echoArgs =
      some { status := 0, stdout := "a\na" } := by
  obtain ⟨n, t, hloop⟩ := converse_echoOptions
  have hlines : ((some "a").map textLines).getD [] = ["a"] := by decide
  have hload : Image.load (Image.save echoImage) = .ok echoImage := rfl
  have hdrive : (echoOptions.run { threshold := .warn } echoImage
      (((some "a").map textLines).getD []) []).drive n = some (.ok (), t) := by
    rw [hlines, Run.drive_eq_loop n _ [], hloop]
    rfl
  have hscript : echoOptions.script.map echoFiles =
      (some "a").map fun text => .ok (utf8 text.toList) := rfl
  obtain ⟨turns, ⟨status, stdout, stderr⟩, said, remarks, -, hrecord, hsaid, -, hstdout, hstatus,
    hstderr, hremarks⟩ := command_line_agrees_with_run (Options.parse_cycles_pos parse_echoArgs)
      rfl hload hscript hdrive
  replace hrecord := hrecord echoArgs parse_echoArgs
  rw [hlines] at hsaid hstdout
  cases hloop.symm.trans hsaid
  have hquiet : remarks = [] := by
    apply List.eq_nil_iff_forall_not_mem.mpr
    intro r hr
    obtain ⟨hwarn, hbelow⟩ := hremarks r hr
    exact absurd hbelow (Nat.not_lt.mpr hwarn)
  subst hquiet
  have hshown : stdout = "a\na" := String.toList_inj.mp hstdout
  cases hstatus
  cases hstderr
  rw [hshown] at hrecord
  exact ⟨turns, hrecord⟩

end Wordcode
