import Mathlib.Data.List.Forall2
import Wordcode.Proofs.Host.History
import Wordcode.Proofs.Machine.Bounds

/-! Reachable machines are sound. Beside the bounds on what is stored, every word on the
stack is accounted for by the completed instruction that pushed it, and a program counter
behind the last word by the return that led there. The five bounds lean on each other, so
they are carried through a history together. -/

namespace Wordcode

/-! ## Who pushed what -/

/-- The pushing machines after one more instruction was tried. -/
def Machine.recordPush (pushed : List Machine) (m : Machine) : List Machine :=
  match m.attempt with
  | .completes _ e _ =>
    match e.stack with
    | .keep => pushed
    | .push _ => m :: pushed
    | .drop => pushed.tail
  | _ => pushed

/-- For each word on the stack the machine whose instruction pushed it, the top one's first. -/
def pushers (past : List Machine) : List Machine :=
  past.foldl Machine.recordPush []

/-- The last instruction that was completed. -/
def lastCompleted (past : List Machine) : Option Instr :=
  (past.filterMap Machine.completed?).getLast?

namespace Machine

/-- The instruction completed on `p` pushed the word `w`. Only a call in the last two words
pushes the address behind them. -/
def PushedBy (w : Word) (p : Machine) : Prop :=
  (∃ i e flow, p.attempt = .completes i e flow ∧ e.stack = .push w) ∧
    (w.toNat = 32768 → (∃ target, p.completed? = some (.call target)) ∧ p.pc = 32766)

/-- What a machine owes to its image and its past. -/
structure Sound (image : List Word) (past : List Machine) (m : Machine) : Prop where
  bounded : Bounded image m
  pushed : List.Forall₂ PushedBy m.stack.words (pushers past)
  returned : m.pc = 32768 → lastCompleted past = some .ret

section Accounts

variable {past : List Machine} {m : Machine}

theorem pushers_append (past : List Machine) (m : Machine) :
    pushers (past ++ [m]) = recordPush (pushers past) m := by
  simp only [pushers, List.foldl_append, List.foldl_cons, List.foldl_nil]

theorem recordPush_of_not_completed (h : m.completed? = none) (pushed : List Machine) :
    recordPush pushed m = pushed := by
  unfold completed? at h
  unfold recordPush
  cases ha : m.attempt <;> simp_all

theorem lastCompleted_of_some {i : Instr} (h : m.completed? = some i) :
    lastCompleted (past ++ [m]) = some i := by
  simp [lastCompleted, h]

theorem lastCompleted_of_none (h : m.completed? = none) :
    lastCompleted (past ++ [m]) = lastCompleted past := by
  simp [lastCompleted, h]

theorem completed?_of_fault {f : Fault} (h : m.attempt.fault? = some f) :
    m.completed? = none := by
  unfold completed?
  cases ha : m.attempt <;> simp_all [Attempt.fault?]

theorem completed?_of_waits {i : Instr} (h : m.attempt = .waits i) : m.completed? = none := by
  simp [completed?, h]

theorem completed?_eq_some_iff {i : Instr} :
    m.completed? = some i ↔ ∃ e flow, m.attempt = .completes i e flow := by
  unfold completed?
  cases m.attempt <;> simp

/-- What a completed instruction does, by the rules. -/
theorem rules_of_completed {i : Instr} (h : m.completed? = some i) :
    ∃ e flow, m.memory.fetch m.pc = .ok i ∧ Acts m i e flow ∧
      Follows (m.apply e).tick i flow m.step.machine m.step.event := by
  obtain ⟨e, flow, hattempt⟩ := completed?_eq_some_iff.mp h
  obtain ⟨hf, ha⟩ := attempt_eq_completes_iff.mp hattempt
  exact ⟨e, flow, hf, ha, step_follows hattempt⟩

end Accounts

section Kept

variable {image : List Word} {past : List Machine} {m : Machine}

theorem Sound.boot (image : List Word) (advance : Advance) :
    Sound image [] (Machine.boot image advance) where
  bounded := Bounded.boot image advance
  pushed := .nil
  returned h := by cases h

/-- Nothing but storage and program counter matters. -/
theorem Sound.congr (h : Sound image past m) {n : Machine} (hm : n.memory = m.memory)
    (hr : n.registers = m.registers) (hs : n.stack = m.stack) (hp : n.pc = m.pc) :
    Sound image past n where
  bounded := h.bounded.congr hm hr hs (hp ▸ h.bounded.pc)
  pushed := hs ▸ h.pushed
  returned := hp ▸ h.returned

/-- A try that completes nothing leaves the accounts as they are. -/
theorem Sound.uncompleted (h : Sound image past m) (hc : m.completed? = none) :
    Sound image (past ++ [m]) m where
  bounded := h.bounded
  pushed := by
    rw [pushers_append, recordPush_of_not_completed hc]
    exact h.pushed
  returned := by
    rw [lastCompleted_of_none hc]
    exact h.returned

/-- The accounts after a completed instruction, wherever it leads. -/
theorem Sound.pushed_of_completed (h : Sound image past m) {i : Instr} {e : Effect} {flow : Flow}
    (hf : m.memory.fetch m.pc = .ok i) (ha : Acts m i e flow) :
    List.Forall₂ PushedBy (e.stack.apply m.stack).words (pushers (past ++ [m])) := by
  have hattempt := attempt_eq_completes_iff.mpr ⟨hf, ha⟩
  rw [pushers_append]
  simp only [recordPush, hattempt]
  cases he : e.stack with
  | keep => exact h.pushed
  | drop =>
    have htail := List.forall₂_drop 1 h.pushed
    rwa [List.drop_one, List.drop_one] at htail
  | push w =>
    obtain ⟨-, hcall⟩ := ha.push_le h.bounded hf he
    refine .cons ⟨⟨i, e, flow, hattempt, he⟩, fun hw => ?_⟩ h.pushed
    obtain ⟨⟨target, rfl⟩, hpc⟩ := hcall hw
    exact ⟨⟨target, by simp [completed?, hattempt]⟩, hpc⟩

theorem Sound.step (h : Sound image past m) : Sound image (past ++ [m]) m.step.machine := by
  have hb := h.bounded.step
  generalize hm : m.step.machine = after at hb ⊢
  generalize he : m.step.event = event
  have ht : Trial m after event := hm ▸ he ▸ step_trial m
  cases ht with
  | fault hf => exact (h.uncompleted (completed?_of_fault hf)).congr rfl rfl rfl rfl
  | wait hw => exact h.uncompleted (completed?_of_waits hw)
  | @complete i e flow _ _ hf ha hfollow =>
    have hcompleted : m.completed? = some i := by
      simp [completed?, attempt_eq_completes_iff.mpr ⟨hf, ha⟩]
    have hpushed := h.pushed_of_completed hf ha
    -- only a jump can lead behind the last word, and there is no instruction to halt on there
    have hsize : m.pc + i.size ≤ 32768 := Memory.fetch_size_le hf
    have hpos := i.size_pos
    refine ⟨hb, ?_, ?_⟩
    · cases hfollow <;> exact hpushed
    · rw [lastCompleted_of_some hcompleted]
      intro hpc
      cases hfollow with
      | jump t => exact congrArg some ((ha.jump_le h.bounded).2 hpc)
      | next hn | print hn =>
        have hlt := (nextAddress_lt hn).2
        exact absurd hpc (Nat.ne_of_lt hlt)
      | halt | last | lastPrint =>
        change m.pc = 32768 at hpc
        omega

end Kept

/-! ## Printing -/

/-- A value below the modulus is a code point, so the replacement character is never printed
for one. -/
theorem toNat_charOfWord {w : Word} (h : w.toNat < 32768) :
    w.toNat.isValidChar ∧ (charOfWord w).toNat = w.toNat := by
  have hvalid : w.toNat.isValidChar := Or.inl (by omega)
  refine ⟨hvalid, ?_⟩
  rw [charOfWord, if_pos hvalid, Char.ofNat, dif_pos hvalid]
  rfl

theorem event_step_of_out {m : Machine} {src w : Word}
    (hf : m.memory.fetch m.pc = .ok (.out src)) (hw : m.value src = .ok w) :
    m.step.event = some (.print (charOfWord w)) :=
  (step_follows (attempt_eq_completes_iff.mpr ⟨hf, .out hw⟩)).event_of_print

end Machine

namespace Session

/-! ## Reachable machines -/

theorem Moves.sound {image : List Word} {s t : Session} {past : List Machine}
    (h : Moves s past t) (hs : Machine.Sound image [] s.machine) :
    Machine.Sound image past t.machine := by
  induction h with
  | refl => exact hs
  | tail _ hm ih =>
    cases hm with
    | step => exact ih.step
    | enter | close | broken =>
      rw [List.append_nil]
      exact ih.congr rfl rfl rfl rfl

theorem History.sound {image : List Word} {advance : Advance} {past : List Machine}
    {s : Session} (h : History image advance past s) : Machine.Sound image past s.machine := by
  obtain ⟨threshold, hm⟩ := h.moves
  exact hm.sound (Machine.Sound.boot image advance)

/-- The first event ends a slice. -/
theorem execute_of_event {s : Session} {event : Event} (hrun : s.machine.status = .running)
    (he : s.machine.step.event = some event) (budget : Nat) :
    s.execute (budget + 1) = (some event, s.step.2) := by
  have hstep : s.step = (some event, s.step.2) := Prod.ext he rfl
  rw [execute_of_running hrun, spend, hstep]

/-- **What holds of every machine a host can bring about.** The past shows for each word on
the stack who pushed it, and which instruction was completed last. -/
theorem reachable_machine_sound {image : List Word} {advance : Advance} {past : List Machine}
    {s : Session} (h : History image advance past s) :
    s.machine.memory.toList.length = 32768 ∧
    (∀ r, (s.machine.registers.get r).toNat < 32768) ∧
    (∀ w ∈ s.machine.stack.words, w.toNat ≤ 32768) ∧
    List.Forall₂ (fun w p =>
      (∃ i e flow, p.attempt = .completes i e flow ∧ e.stack = .push w) ∧
        (w.toNat = 32768 → (∃ target, p.completed? = some (.call target)) ∧ p.pc = 32766))
      s.machine.stack.words (pushers past) ∧
    (∀ target, s.machine.memory.fetch s.machine.pc = .ok (.call target) →
      (s.machine.returnAddress (.call target)).toNat =
        (s.machine.nextAddress (s.machine.pc + 2)).getD (s.machine.pc + 2)) ∧
    s.machine.pc ≤ 32768 ∧
    (s.machine.pc = 32768 → lastCompleted past = some .ret) ∧
    (∀ a : Address, s.machine.memory.get a = image.getD a 21 ∨
      (s.machine.memory.get a).toNat < 32768) ∧
    (∀ src w budget, s.machine.status = .running →
      s.machine.memory.fetch s.machine.pc = .ok (.out src) → s.machine.value src = .ok w →
      w.toNat.isValidChar ∧
        ∃ c : Char, c.toNat = w.toNat ∧ (s.execute (budget + 1)).1 = some (.print c)) := by
  have hs := h.sound
  refine ⟨Memory.length_toList _, hs.bounded.registers, hs.bounded.stack, hs.pushed,
    fun target hf => (Machine.toNat_returnAddress hf).1, hs.bounded.pc, hs.returned,
    hs.bounded.memory, ?_⟩
  intro src w budget hrun hf hw
  obtain ⟨hvalid, hc⟩ := Machine.toNat_charOfWord (hs.bounded.value_lt hw)
  refine ⟨hvalid, charOfWord w, hc, ?_⟩
  rw [execute_of_event hrun (Machine.event_step_of_out hf hw)]

/-- Behind the padding of an image stands the rest. -/
theorem drop_padded (head rest : List Word) (pad : Nat) :
    (head ++ (List.replicate pad 21 ++ rest)).drop (head.length + pad) = rest := by
  rw [List.drop_length_add_append, List.drop_left' List.length_replicate]

/-- A jump to the last two words, where a call stands; what it calls returns at once. -/
def edgeImage : List Word :=
  [6, 32766, 18] ++ (List.replicate 32763 21 ++ [17, 2])

theorem length_edgeImage : edgeImage.length = 32768 := by
  rw [edgeImage, List.length_append, List.length_append, List.length_replicate]
  simp only [List.length_cons, List.length_nil]

theorem drop_edgeImage : edgeImage.drop 32766 = [17, 2] := by
  have hdrop := drop_padded [6, 32766, 18] [17, 2] 32763
  have hlen : [6, 32766, (18 : Word)].length + 32763 = 32766 := rfl
  rw [hlen] at hdrop
  exact hdrop

theorem pc_execute_edge {mem : Memory} (h₀ : mem.fetch 0 = .ok (.jump 32766))
    (h₁ : mem.fetch 32766 = .ok (.call 2)) (h₂ : mem.fetch 2 = .ok .ret) (journal : Journal) :
    (execute 3 ⟨{ memory := mem, advance := .flat }, journal⟩).2.machine.pc = 32768 := by
  simp [execute, spend, step, Machine.step, Machine.attempt, h₀, h₁, h₂, Machine.plan, bind,
    Except.bind, pure, Except.pure, Machine.value_eq, Machine.denote, Machine.apply, Machine.tick,
    Machine.follow, Machine.goTo, Turn.after, StackChange.apply, Stack.top, Stack.top?, Stack.push,
    Machine.returnAddress, Machine.nextAddress, Instr.size, Instr.operands]

/-- The program counter does get behind the last word, and a return was completed last. -/
theorem reachable_machine_sound_at_edge :
    ∃ past s, History edgeImage .flat past s ∧ s.machine.pc = 32768 ∧
      lastCompleted past = some .ret := by
  have h : History edgeImage .flat _ _ := (History.boot .warn).execute 3
  have hpc : ((Session.boot { threshold := .warn } edgeImage .flat).execute 3).2.machine.pc =
      32768 := by
    -- the image is too long to be looked at, so its memory is known by what is fetched from it
    obtain ⟨mem, ⟨m, journal⟩, hboot, rfl, -, hfetch⟩ :=
      boot_of_le { threshold := .warn } edgeImage .flat (Nat.le_of_eq length_edgeImage)
    have h₀ : mem.fetch 0 = .ok (.jump 32766) :=
      hfetch ⟨18 :: (List.replicate 32763 21 ++ [17, 2]), rfl⟩
    have h₁ : mem.fetch 32766 = .ok (.call 2) := hfetch (drop_edgeImage ▸ List.prefix_refl _)
    have h₂ : mem.fetch 2 = .ok .ret := hfetch ⟨List.replicate 32763 21 ++ [17, 2], rfl⟩
    rw [hboot]
    exact pc_execute_edge h₀ h₁ h₂ journal
  obtain ⟨-, -, -, -, -, -, hreturned, -⟩ := reachable_machine_sound h
  exact ⟨_, _, h, hpc, hreturned hpc⟩

end Session

end Wordcode
