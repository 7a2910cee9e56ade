import Wordcode.Proofs.Host.Brackets
import Wordcode.Proofs.Host.Lockstep

/-! Scanning and flat sessions. A program is aligned if an opcode stands right behind each of
its instructions; on such a program the two advances lead to the same answers and the same
machines, call by call. A flat session that halts is aligned almost by itself: whatever it went
on to was executed next, so it was an opcode, and only the calls are left to look at. -/

namespace Wordcode

namespace Session

/-- The second session is the first, a flat one, made to scan. -/
structure Twin (s t : Session) : Prop where
  flat : s.machine.advance = .flat
  machine : t.machine = s.machine.scanning

theorem Twin.lockstep : Lockstep Machine.Aligned Twin where
  status h := by
    rw [h.machine]
    rfl
  pc h := by
    rw [h.machine]
    rfl
  step {s t} h ha := by
    obtain ⟨hevent, hmachine⟩ := Machine.step_scanning h.flat ha
    rw [← h.machine] at hevent hmachine
    exact ⟨hevent, (Machine.advance_step s.machine).trans h.flat, hmachine⟩
  enter line h := ⟨h.flat, congrArg (Machine.enter · line) h.machine⟩
  close h := ⟨h.flat, congrArg Machine.close h.machine⟩
  fail f h := ⟨h.flat, congrArg (Machine.fail · f) h.machine⟩

theorem Twin.boot (journal journal' : Journal) (image : List Word) :
    Twin (Session.boot journal image .flat) (Session.boot journal' image .scan) :=
  ⟨rfl, rfl⟩

end Session

/-! ## Halting sessions -/

namespace Machine

/-- If a call is completed on this machine, an opcode or the end of memory follows it. -/
def CallAligned (m : Machine) : Prop :=
  ∀ target, m.completed? = some (.call target) →
    m.pc + 2 = 32768 ∨ m.memory.OpcodeAt (m.pc + 2)

/-- The machine has halted, or it goes on with an opcode. -/
def OnTrack (m : Machine) : Prop :=
  m.status = .halted ∨ m.status = .running ∧ m.memory.OpcodeAt m.pc

section Halting

variable {m : Machine}

theorem nextAddress_of_flat (hflat : m.advance = .flat) (start : Nat) :
    m.nextAddress start = if start < memorySize then some start else none := by
  simp only [nextAddress, hflat]

/-- A flat machine that is on track after an instruction has completed an aligned one. -/
theorem aligned_of_step (hflat : m.advance = .flat) (hrun : m.status = .running)
    (hcall : m.CallAligned) (hnext : m.step.machine.OnTrack) : m.Aligned := by
  intro i e flow hattempt hflow
  obtain ⟨hf, ha⟩ := attempt_eq_completes_iff.mp hattempt
  have hsize : m.pc + i.size ≤ 32768 := Memory.fetch_size_le hf
  have hfollow := step_follows hattempt
  have hflat' : (m.apply e).tick.advance = .flat := hflat
  generalize m.step.machine = after at hnext hfollow ⊢
  generalize m.step.event = event at hfollow
  cases hfollow with
  | next hn | print hn =>
    -- what follows is executed next, so it is an opcode
    rw [nextAddress_of_flat hflat', Option.ite_none_right_eq_some] at hn
    obtain ⟨-, hn⟩ := hn
    cases hn
    rcases hnext with hhalted | ⟨-, hop⟩
    · exact nomatch hrun.symm.trans hhalted
    · exact .inr hop
  | last hn | lastPrint hn =>
    rw [nextAddress_of_flat hflat', ite_eq_right_iff] at hn
    have hend : ¬ m.pc + i.size < 32768 := fun hlt => nomatch hn hlt
    exact .inl (by omega)
  | halt =>
    rcases hflow with hflow | ⟨c, hflow⟩ | ⟨target, rfl⟩
    · cases hflow
    · cases hflow
    · cases ha
  | jump t =>
    rcases hflow with hflow | ⟨c, hflow⟩ | ⟨target, rfl⟩
    · cases hflow
    · cases hflow
    · cases ha
      exact hcall target (completed?_eq_some_iff.mpr ⟨_, _, hattempt⟩)

/-- A running machine that is on track after a step was so before. -/
theorem onTrack_of_step (hrun : m.status = .running) (hnext : m.step.machine.OnTrack) :
    m.OnTrack := by
  have ht := step_trial m
  generalize m.step.machine = after at ht hnext
  generalize m.step.event = event at ht
  cases ht with
  | fault => rcases hnext with h | ⟨h, -⟩ <;> cases h
  | wait => exact hnext
  | complete hf => exact .inr ⟨hrun, Memory.opcodeAt_of_fetch hf⟩

theorem callAligned_of_fetch {i : Instr} (hf : m.memory.fetch m.pc = .ok i)
    (h : (∃ target, i = .call target) → m.memory.OpcodeAt (m.pc + 2)) : m.CallAligned := by
  intro target hcompleted
  obtain ⟨e, flow, hf', -⟩ := rules_of_completed hcompleted
  cases hf.symm.trans hf'
  exact .inr (h ⟨target, rfl⟩)

end Halting

end Machine

namespace Session

theorem Moves.advance {s t : Session} {past : List Machine} (h : Moves s past t) :
    t.machine.advance = s.machine.advance := by
  induction h with
  | refl => rfl
  | @tail t u past now _ hm ih =>
    cases hm with
    | step => exact (Machine.advance_step t.machine).trans ih
    | enter | close | broken => exact ih

/-- In a flat session that is on track at its end every instruction was aligned, if the calls
were. The past is gone through from its end: what an instruction was followed by is known from
the one tried next. -/
theorem Moves.aligned {s t : Session} {past : List Machine} (h : Moves s past t)
    (hflat : s.machine.advance = .flat) (hcalls : ∀ m ∈ past, m.CallAligned)
    (hend : t.machine.OnTrack) : ∀ m ∈ past, m.Aligned := by
  induction h with
  | refl => simp
  | @tail t u past now hmoves hm ih =>
    have hearlier : ∀ m ∈ past, m.CallAligned :=
      fun m hmem => hcalls m (List.mem_append_left _ hmem)
    cases hm with
    | step hrun =>
      intro m hmem
      rcases List.mem_append.mp hmem with hmem | hmem
      · exact ih hearlier (Machine.onTrack_of_step hrun hend) m hmem
      · have hcall := hcalls m (List.mem_append_right _ hmem)
        cases List.mem_singleton.mp hmem
        exact Machine.aligned_of_step (hmoves.advance.trans hflat) hrun hcall hend
    | enter | close =>
      rw [List.append_nil]
      exact ih hearlier hend
    | broken => rcases hend with h | ⟨h, -⟩ <;> cases h

/-! ## The two advances, call by call -/

/-- The host cannot tell the two sessions apart by these calls, and the second machine comes out
as the first one made to scan. -/
def ScansAlike : Session → Session → List Call → Prop :=
  Alike fun t t' => t'.machine = t.machine.scanning

theorem Twin.scansAlike {s s' : Session} {calls : List Call} (h : Twin s s')
    (ha : Along Machine.Aligned s calls) : ScansAlike s s' calls :=
  (Twin.lockstep.plays h ha).imp fun _ _ htwin => htwin.machine

/-- **On an aligned program scanning makes no difference**, after each of the calls; and a
program that halts without scanning is aligned if its calls are. -/
theorem scan_agrees_with_flat (threshold : Level) (image : List Word) (calls : List Call) :
    (Along Machine.Aligned (Session.boot { threshold := threshold } image .flat) calls →
      ∀ made, made <+: calls →
        ScansAlike (Session.boot { threshold := threshold } image .flat)
          (Session.boot { threshold := threshold } image .scan) made) ∧
    ∀ reports t, Plays (Session.boot { threshold := threshold } image .flat) calls reports t →
      t.machine.status = .halted → (∀ m ∈ Report.trail reports, m.CallAligned) →
      ∀ made, made <+: calls →
        ScansAlike (Session.boot { threshold := threshold } image .flat)
          (Session.boot { threshold := threshold } image .scan) made := by
  have htwin := Twin.boot { threshold := threshold } { threshold := threshold } image
  refine ⟨?_, ?_⟩
  · intro ha made hmade
    exact htwin.scansAlike (ha.initial hmade)
  · intro reports t hplays hhalted hcalls made hmade
    have haligned := hplays.moves.aligned htwin.flat hcalls (.inl hhalted)
    exact htwin.scansAlike ((hplays.along haligned).initial hmade)

/-- A call of a routine that returns at once, and a halt behind the call. -/
def alignedImage : List Word := [17, 3, 0, 18]

theorem scan_agrees_with_flat_on_call :
    ∃ t reports,
      Plays (Session.boot { threshold := .warn } alignedImage .flat)
        [.execute 1, .execute 1, .execute 1] reports t ∧
      (∀ m ∈ Report.trail reports, m.CallAligned) ∧ t.machine.status = .halted ∧
      Along Machine.Aligned (Session.boot { threshold := .warn } alignedImage .flat)
        [.execute 1, .execute 1, .execute 1] ∧
      ScansAlike (Session.boot { threshold := .warn } alignedImage .flat)
        (Session.boot { threshold := .warn } alignedImage .scan) [.execute 1] ∧
      ScansAlike (Session.boot { threshold := .warn } alignedImage .flat)
        (Session.boot { threshold := .warn } alignedImage .scan)
        [.execute 1, .execute 1, .execute 1] := by
  have hagree := scan_agrees_with_flat .warn alignedImage [.execute 1, .execute 1, .execute 1]
  obtain ⟨mem, b, hb, hboot, -, hfetch⟩ :=
    boot_of_le { threshold := .warn } alignedImage .flat (by decide)
  have h₀ : mem.fetch 0 = .ok (.call 3) := hfetch ⟨_, rfl⟩
  have h₂ : mem.fetch 2 = .ok .halt := hfetch ⟨_, rfl⟩
  have h₃ : mem.fetch 3 = .ok .ret := hfetch ⟨_, rfl⟩
  rw [hb] at hagree ⊢
  have hret : (b.execute 1).2.machine =
      { memory := mem, advance := .flat, stack := ⟨[2]⟩, pc := 3, cycles := 1 } := by
    rw [machine_execute_one (by rw [hboot]), hboot, Machine.step_of_rules _ h₀ (.call rfl)]
    rfl
  have hplays : Plays b [.execute 1, .execute 1, .execute 1] _ _ :=
    .cons ⟨0, rfl⟩ (.cons ⟨0, rfl⟩ (.cons ⟨0, rfl⟩ (.nil _)))
  generalize (b.execute 1).2 = p at hret hplays
  have hhalt : (p.execute 1).2.machine =
      { memory := mem, advance := .flat, pc := 2, cycles := 2 } := by
    rw [machine_execute_one (by rw [hret]), hret, Machine.step_of_rules _ h₃ (.ret rfl)]
    rfl
  generalize (p.execute 1).2 = q at hhalt hplays
  have hend : (q.execute 1).2.machine.status = .halted := by
    rw [machine_execute_one (by rw [hhalt]), hhalt, Machine.step_of_rules _ h₂ .halt]
    rfl
  generalize (q.execute 1).2 = t at hend hplays
  have htrail : b.trail 1 ++ (p.trail 1 ++ (q.trail 1 ++ [])) =
      [b.machine, p.machine, q.machine] := by
    rw [trail_one (by rw [hboot]), trail_one (by rw [hret]), trail_one (by rw [hhalt])]
    rfl
  have hcalls : ∀ m ∈ b.trail 1 ++ (p.trail 1 ++ (q.trail 1 ++ [])), m.CallAligned := by
    rw [htrail, hboot, hret, hhalt]
    simp only [List.forall_mem_cons, List.not_mem_nil, false_imp_iff, implies_true, and_true]
    refine ⟨?_, ?_, ?_⟩
    · exact Machine.callAligned_of_fetch h₀ fun _ => Memory.opcodeAt_of_fetch h₂
    · exact Machine.callAligned_of_fetch h₃ nofun
    · exact Machine.callAligned_of_fetch h₂ nofun
  have haligned := hplays.moves.aligned (by rw [hboot]) hcalls (.inl hend)
  have halong := hplays.along haligned
  exact ⟨t, _, hplays, hcalls, hend, halong, hagree.1 halong _ ⟨_, rfl⟩,
    hagree.2 _ _ hplays hend hcalls _ (List.prefix_refl _)⟩

end Session

end Wordcode
