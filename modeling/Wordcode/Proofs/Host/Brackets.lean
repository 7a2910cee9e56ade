import Wordcode.Proofs.Host.Calls
import Wordcode.Proofs.Host.Faults
import Wordcode.Proofs.Machine.Advance

/-! Calls and returns, pushes and pops as brackets. What lies on the stack below a pushed word
cannot change while the word is there, whatever is executed, entered or run in between; so the
instruction that takes the word off again finds the very word that was pushed, and leaves the
stack that was there before. -/

namespace Wordcode

namespace Machine

/-! ## The lower part of the stack -/

/-- A step changes only the top of the stack: what is not deeper than the stack afterwards
stays. -/
theorem suffix_step {m : Machine} {base : List Word} (h : base <:+ m.stack.words)
    (hdepth : base.length ≤ m.step.machine.stack.depth) :
    base <:+ m.step.machine.stack.words := by
  have ht := step_trial m
  generalize m.step.machine = after at ht hdepth ⊢
  generalize m.step.event = event at ht
  cases ht with
  | fault | wait => exact h
  | @complete i e flow _ _ hf ha hfollow =>
    have hstack : after.stack = e.stack.apply m.stack :=
      congrArg (fun n => n.stack) hfollow.frame
    rw [hstack] at hdepth ⊢
    cases he : e.stack with
    | keep => exact h
    | push w => exact h.trans (List.suffix_cons w _)
    | drop =>
      rw [he] at hdepth
      exact List.suffix_of_suffix_length_le h (List.tail_suffix _) hdepth

/-! ## Opening and closing instructions -/

/-- What an opening instruction pushes. -/
theorem stack_step_of_opener {m : Machine} {opener : Instr} (h : m.completed? = some opener)
    (hopener : (∃ target, opener = .call target) ∨ ∃ src, opener = .push src) :
    ∃ w, m.step.machine.stack = m.stack.push w ∧
      ((∃ target, opener = .call target ∧ m.ReturnPoint w.toNat) ∨
        ∃ src, opener = .push src ∧ m.value src = .ok w) := by
  obtain ⟨e, flow, hf, ha, hfollow⟩ := rules_of_completed h
  have hstack : m.step.machine.stack = e.stack.apply m.stack :=
    congrArg (fun n => n.stack) hfollow.frame
  rcases hopener with ⟨target, rfl⟩ | ⟨src, rfl⟩
  · cases ha
    exact ⟨_, hstack, .inl ⟨target, rfl, returnPoint_returnAddress hf⟩⟩
  · cases ha with
    | push hv => exact ⟨_, hstack, .inr ⟨src, rfl, hv⟩⟩

/-- A return goes to the word it takes off the stack. -/
theorem step_of_ret {m : Machine} {st : Stack} {w : Word} (h : m.completed? = some .ret)
    (hst : m.stack = st.push w) :
    m.step.machine.stack = st ∧ m.step.machine.pc = w.toNat := by
  obtain ⟨e, flow, hf, ha, hfollow⟩ := rules_of_completed h
  cases ha with
  | @ret v hv =>
    have hstack : m.step.machine.stack = m.stack.drop :=
      congrArg (fun n => n.stack) hfollow.frame
    rw [hst] at hv hstack
    cases hv
    generalize m.step.event = event at hfollow
    refine ⟨hstack, ?_⟩
    generalize m.step.machine = after at hfollow
    cases hfollow
    rfl

/-- A pop puts the word it takes off the stack, reduced, into its register. -/
theorem step_of_pop {m : Machine} {st : Stack} {dst w : Word}
    (h : m.completed? = some (.pop dst)) (hst : m.stack = st.push w) :
    m.step.machine.stack = st ∧
      m.step.machine.registers.get (Register.wrap dst.toNat) = reduce w.toNat := by
  obtain ⟨e, flow, hf, ha, hfollow⟩ := rules_of_completed h
  cases ha with
  | @pop _ v hv =>
    have hstack : m.step.machine.stack = m.stack.drop :=
      congrArg (fun n => n.stack) hfollow.frame
    have hregisters : m.step.machine.registers =
        m.registers.set (Operand.target dst) (reduce v.toNat) :=
      congrArg (fun n => n.registers) hfollow.frame
    rw [hst] at hv hstack
    cases hv
    rw [hregisters]
    exact ⟨hstack, Registers.get_set_self _ _ _⟩

/-- What an opening instruction on `m` hands over to the instruction that closes its bracket and
leaves the machine `after`. -/
def HandsOver (m after : Machine) : (opener closer : Instr) → Prop
  | .call _, .ret => m.ReturnPoint after.pc
  | .push src, .pop dst => m.value src = .ok (after.registers.get (Register.wrap dst.toNat))
  | .push src, .ret => ∃ v, m.value src = .ok v ∧ after.pc = v.toNat
  | .call _, .pop dst =>
    ∃ a, m.ReturnPoint a ∧
      (after.registers.get (Register.wrap dst.toNat)).toNat = a % 32768
  | _, _ => True

end Machine

namespace Session

/-- **What lies at the bottom of the stack stays there** as long as the stack does not become
less deep. -/
theorem Moves.suffix {s t : Session} {past : List Machine} (h : Moves s past t)
    {base : List Word} (hbase : base <:+ s.machine.stack.words)
    (hpast : ∀ m ∈ past, base.length ≤ m.stack.depth)
    (hend : base.length ≤ t.machine.stack.depth) :
    ∀ m ∈ past ++ [t.machine], base <:+ m.stack.words := by
  induction h with
  | refl => simpa using hbase
  | @tail t u past now hmoves hm ih =>
    cases hm with
    | step hrun =>
      have hbefore : ∀ m ∈ past ++ [t.machine], base <:+ m.stack.words := by
        refine ih ?_ (hpast t.machine (by simp))
        intro m hmem
        exact hpast m (List.mem_append_left _ hmem)
      intro m hmem
      rcases List.mem_append.mp hmem with hmem | hmem
      · exact hbefore m hmem
      · cases List.mem_singleton.mp hmem
        exact Machine.suffix_step (hbefore t.machine (by simp)) hend
    | enter | close | broken =>
      -- no instruction is tried, and the stack is the same
      rw [List.append_nil] at hpast ⊢
      intro m hmem
      rcases List.mem_append.mp hmem with hmem | hmem
      · exact ih hpast hend m (List.mem_append_left _ hmem)
      · cases List.mem_singleton.mp hmem
        exact ih hpast hend t.machine (by simp)

/-- The word that an opening instruction pushes is the one a closing instruction finds. -/
theorem stack_of_bracket {s t : Session} {calls : List Call} {reports : List Report}
    (hplays : Plays s calls reports t)
    (hdepth : ∀ m ∈ Report.trail reports, s.machine.stack.depth ≤ m.stack.depth)
    (hend : t.machine.stack.depth = s.machine.stack.depth) :
    t.machine.stack = s.machine.stack := by
  have hsuffix := hplays.moves.suffix (List.suffix_refl _) hdepth (Nat.le_of_eq hend.symm)
    t.machine (by simp)
  have hwords := hsuffix.eq_of_length hend.symm
  exact congrArg Stack.mk hwords.symm

/-- **Brackets match.** Let a call or a push be completed. As long as the stack is deeper than
before it, whatever the host does, the word it pushed and all words below stay as they are. If
then a return or a pop takes that word off, the stack is what it was, and the closing
instruction gets what the opening one left. -/
theorem brackets_match {s t : Session} {opener : Instr} {calls : List Call}
    {reports : List Report} (hs : Reachable s) (hrun : s.machine.status = .running)
    (hopen : s.machine.completed? = some opener)
    (hopener : (∃ target, opener = .call target) ∨ ∃ src, opener = .push src)
    (hplays : Plays (s.execute 1).2 calls reports t)
    (hdepth : ∀ m ∈ Report.trail reports, s.machine.stack.depth + 1 ≤ m.stack.depth)
    (hend : s.machine.stack.depth + 1 ≤ t.machine.stack.depth) :
    (s.execute 1).2.machine.stack.depth = s.machine.stack.depth + 1 ∧
    (∀ m ∈ Report.trail reports ++ [t.machine],
      (s.execute 1).2.machine.stack.words <:+ m.stack.words) ∧
    ∀ closer, t.machine.stack.depth = s.machine.stack.depth + 1 →
      t.machine.status = .running → t.machine.completed? = some closer →
      (closer = .ret ∨ ∃ dst, closer = .pop dst) →
      (t.execute 1).2.machine.stack = s.machine.stack ∧
        s.machine.HandsOver (t.execute 1).2.machine opener closer := by
  obtain ⟨image, hb⟩ := hs.bounded
  obtain ⟨w, hw, hleft⟩ := Machine.stack_step_of_opener hopen hopener
  rw [← machine_execute_one hrun] at hw
  have hopened : (s.execute 1).2.machine.stack.depth = s.machine.stack.depth + 1 := by
    rw [hw, Stack.depth_push]
  rw [← hopened] at hdepth hend
  refine ⟨hopened, hplays.moves.suffix (List.suffix_refl _) hdepth hend, ?_⟩
  intro closer hclosed hrun' hclose hcloser
  have hst : t.machine.stack = s.machine.stack.push w := by
    rw [← hw]
    exact stack_of_bracket hplays hdepth (hclosed.trans hopened.symm)
  rw [machine_execute_one hrun']
  rcases hcloser with rfl | ⟨dst, rfl⟩
  · obtain ⟨hstack, hpc⟩ := Machine.step_of_ret hclose hst
    refine ⟨hstack, ?_⟩
    rcases hleft with ⟨target, rfl, hreturn⟩ | ⟨src, rfl, hv⟩
    · show s.machine.ReturnPoint _
      rw [hpc]
      exact hreturn
    · exact ⟨w, hv, hpc⟩
  · obtain ⟨hstack, hregister⟩ := Machine.step_of_pop hclose hst
    refine ⟨hstack, ?_⟩
    rcases hleft with ⟨target, rfl, hreturn⟩ | ⟨src, rfl, hv⟩
    · refine ⟨w.toNat, hreturn, ?_⟩
      rw [hregister, toNat_reduce]
      omega
    · show s.machine.value src = .ok _
      rw [hregister, reduce_of_lt (hb.value_lt hv)]
      exact hv

/-- A jump to the last two words, and behind it a routine that pushes and pops a word before it
returns. -/
def bracketHead : List Word := [6, 32766, 2, 7, 3, 32769, 18]

/-- In the last two words the routine is called. -/
def bracketImage : List Word :=
  bracketHead ++ (List.replicate 32759 21 ++ [17, 2])

theorem length_bracketImage : bracketImage.length = 32768 := by
  rw [bracketImage, List.length_append, List.length_append, List.length_replicate]
  rfl

theorem boot_bracketImage :
    ∃ mem b, boot { threshold := .warn } bracketImage .flat = b ∧
      b.machine = { memory := mem, advance := .flat } ∧ mem.fetch 0 = .ok (.jump 32766) ∧
      mem.fetch 32766 = .ok (.call 2) ∧ mem.fetch 2 = .ok (.push 7) ∧
      mem.fetch 4 = .ok (.pop 32769) ∧ mem.fetch 6 = .ok .ret := by
  obtain ⟨mem, b, hb, hboot, -, hfetch⟩ :=
    boot_of_le { threshold := .warn } bracketImage .flat (Nat.le_of_eq length_bracketImage)
  have hlast : bracketImage.drop 32766 = [17, 2] := by
    have hdrop := drop_padded bracketHead [17, 2] 32759
    have hlen : bracketHead.length + 32759 = 32766 := rfl
    rw [hlen] at hdrop
    exact hdrop
  exact ⟨mem, b, hb, hboot, hfetch ⟨_, rfl⟩, hfetch (hlast ▸ List.prefix_refl _), hfetch ⟨_, rfl⟩,
    hfetch ⟨_, rfl⟩, hfetch ⟨_, rfl⟩⟩

/-- The call in the last two words, the routine it calls with a line entered on the way, and the
return behind the end of memory. -/
theorem brackets_match_at_edge :
    ∃ s t calls reports, Reachable s ∧ s.machine.pc = 32766 ∧
      s.machine.completed? = some (.call 2) ∧ Plays (s.execute 1).2 calls reports t ∧
      t.machine.completed? = some .ret ∧ (t.execute 1).2.machine.stack = s.machine.stack ∧
      (t.execute 1).2.machine.pc = 32768 := by
  obtain ⟨mem, b, hb, hboot, h₀, h₁, h₂, h₄, h₆⟩ := boot_bracketImage
  have hreach : Reachable b := hb ▸ .boot _ _ _
  have hcall : (b.execute 1).2.machine =
      { memory := mem, advance := .flat, pc := 32766, cycles := 1 } := by
    rw [machine_execute_one (by rw [hboot]), hboot, Machine.step_of_rules _ h₀ (.jump rfl)]
    rfl
  have hs : Reachable (b.execute 1).2 := hreach.execute 1
  generalize (b.execute 1).2 = s at hcall hs
  have hopen : s.machine.completed? = some (.call 2) := by
    rw [hcall, Machine.completed?_eq_some_iff]
    exact ⟨_, _, Machine.attempt_eq_completes_iff.mpr ⟨h₁, .call rfl⟩⟩
  have hpush : (s.execute 1).2.machine =
      { memory := mem, advance := .flat, stack := ⟨[32768]⟩, pc := 2, cycles := 2 } := by
    rw [machine_execute_one (by rw [hcall]), hcall, Machine.step_of_rules _ h₁ (.call rfl)]
    rfl
  have hplays : Plays (s.execute 1).2 [.execute 1, .enter "x", .execute 1] _ _ :=
    .cons ⟨0, rfl⟩ (.cons ⟨0, rfl⟩ (.cons ⟨0, rfl⟩ (.nil _)))
  have hmatch := brackets_match hs (by rw [hcall]) hopen (.inl ⟨2, rfl⟩) hplays
  generalize hp : (s.execute 1).2 = p at hpush hplays hmatch
  have hpushed : (p.execute 1).2.machine =
      { memory := mem, advance := .flat, stack := ⟨[7, 32768]⟩, pc := 4, cycles := 3 } := by
    rw [machine_execute_one (by rw [hpush]), hpush, Machine.step_of_rules _ h₂ (.push rfl)]
    rfl
  have hpop : ((p.execute 1).2.enter "x").machine =
      { memory := mem, advance := .flat, stack := ⟨[7, 32768]⟩, pc := 4, cycles := 3,
        input := Input.enter {} "x" } := by
    rw [machine_enter, hpushed, Machine.enter]
  generalize (p.execute 1).2.enter "x" = q at hpop hplays hmatch
  have hret : (q.execute 1).2.machine =
      { memory := mem, registers := Registers.zero.set 1 7, advance := .flat,
        stack := ⟨[32768]⟩, pc := 6, cycles := 4, input := Input.enter {} "x" } := by
    rw [machine_execute_one (by rw [hpop]), hpop, Machine.step_of_rules _ h₄ (.pop rfl)]
    rfl
  have hclose : (q.execute 1).2.machine.completed? = some .ret := by
    rw [hret, Machine.completed?_eq_some_iff]
    exact ⟨_, _, Machine.attempt_eq_completes_iff.mpr ⟨h₆, .ret rfl⟩⟩
  have hdepth : ∀ m ∈ p.trail 1 ++ ([] ++ (q.trail 1 ++ [])),
      s.machine.stack.depth + 1 ≤ m.stack.depth := by
    rw [trail_one (by rw [hpush]), trail_one (by rw [hpop])]
    simp [hcall, hpush, hpop, Stack.depth, Stack.empty]
  have hend : (q.execute 1).2.machine.stack.depth = s.machine.stack.depth + 1 := by
    rw [hret, hcall]
    rfl
  obtain ⟨-, -, hclosed⟩ := hmatch hdepth hend.ge
  obtain ⟨hstack, hreturn⟩ := hclosed .ret hend (by rw [hret]) hclose (.inl rfl)
  have hpc := Machine.returnPoint_iff_of_flat (by rw [hcall]) |>.mp hreturn
  have hpc₀ : s.machine.pc = 32766 := by rw [hcall]
  rw [hpc₀] at hpc
  exact ⟨s, (q.execute 1).2, _, _, hs, hpc₀, hopen, hp ▸ hplays, hclose, hstack, hpc⟩

end Session

end Wordcode
