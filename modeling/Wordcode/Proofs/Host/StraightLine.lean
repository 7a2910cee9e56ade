import Wordcode.Proofs.Host.Landing
import Wordcode.Proofs.Host.Progress

/-! Straight-line execution. As long as no instruction transfers control, the program counter moves
past every instruction it completes and never turns back. That holds of whatever memory contains,
so a program that rewrites itself runs out of addresses like any other: there is a bound on the
number of instructions between two transfers of control that depends on the program counter
alone. -/

namespace Wordcode

/-- No completed instruction has transferred control. -/
def Straight (past : List Machine) : Prop :=
  ∀ m ∈ past, ∀ i, m.completed? = some i → m.destination i = none

theorem straight_append {past past' : List Machine} :
    Straight (past ++ past') ↔ Straight past ∧ Straight past' :=
  List.forall_mem_append

/-- The number of words that the completed instructions take, opcodes and operands. -/
def extent (past : List Machine) : Nat :=
  ((past.filterMap Machine.completed?).map fun i => 1 + i.opcode.arity).sum

theorem extent_append (past past' : List Machine) :
    extent (past ++ past') = extent past + extent past' := by
  rw [extent, List.filterMap_append, List.map_append, List.sum_append]
  rfl

/-- Every instruction takes a word at least. -/
theorem completions_le_extent (past : List Machine) : completions past ≤ extent past := by
  unfold completions extent
  induction past.filterMap Machine.completed? with
  | nil => exact Nat.le_refl 0
  | cons i instrs ih =>
    rw [List.map_cons, List.sum_cons, List.length_cons]
    omega

namespace Machine

variable {m : Machine} {i : Instr}

theorem extent_of_some (h : m.completed? = some i) : extent [m] = 1 + i.opcode.arity := by
  simp [extent, h]

theorem extent_of_none (h : m.completed? = none) : extent [m] = 0 := by
  simp [extent, h]

/-! ## The program counter -/

/-- What becomes of the program counter as long as control is not transferred. A machine that has
stopped may stand anywhere, but what it has completed was all found within memory. -/
structure Forward (m : Machine) (past : List Machine) (n : Machine) : Prop where
  advance : n.advance = m.advance
  le : n.status = .running → m.pc + extent past ≤ n.pc
  flat : n.status = .running → m.advance = .flat → n.pc = m.pc + extent past
  inside : n.status = .running → n.pc < memorySize ∨ n.pc = m.pc
  bound : 0 < completions past → m.pc + completions past ≤ memorySize

theorem Forward.refl (m : Machine) : m.Forward [] m where
  advance := rfl
  le _ := Nat.le_refl _
  flat _ _ := rfl
  inside _ := .inr rfl
  bound h := nomatch h

/-- Nothing but program counter, advance and status matters. -/
theorem Forward.congr {past : List Machine} {n o : Machine} (h : m.Forward past n)
    (ha : o.advance = n.advance) (hp : o.pc = n.pc)
    (hs : o.status = .running → n.status = .running) : m.Forward past o where
  advance := ha.trans h.advance
  le hrun := hp ▸ h.le (hs hrun)
  flat hrun := hp ▸ h.flat (hs hrun)
  inside hrun := hp ▸ h.inside (hs hrun)
  bound := h.bound

theorem Forward.trans {past past' : List Machine} {n o : Machine} (h : m.Forward past n)
    (hrun : n.status = .running) (h' : n.Forward past' o) : m.Forward (past ++ past') o := by
  have hle := h.le hrun
  have hcount := completions_le_extent past
  refine ⟨h'.advance.trans h.advance, ?_, ?_, ?_, ?_⟩
  · intro ho
    have hle' := h'.le ho
    rw [extent_append]
    omega
  · intro ho hflat
    have heq := h.flat hrun hflat
    have heq' := h'.flat ho (h.advance.trans hflat)
    rw [extent_append]
    omega
  · intro ho
    rcases h'.inside ho with hlt | hsame
    · exact .inl hlt
    · rw [hsame]
      exact h.inside hrun
  · intro hpos
    -- what is completed from `n` on is bounded by what memory has left behind the words passed
    rw [completions_append] at hpos ⊢
    have hbound := h.bound
    have hbound' := h'.bound
    omega

/-- A completed instruction that does not transfer control leaves the machine behind itself. -/
theorem forward_step_of_completed (hrun : m.status = .running) (h : m.completed? = some i)
    (hstraight : m.destination i = none) : m.Forward [m] m.step.machine := by
  have hleft (hrun' : m.step.machine.status = .running) :=
    nextAddress_of_straight hrun h hstraight hrun'
  refine ⟨advance_step m, ?_, ?_, ?_, ?_⟩
  · intro hrun'
    obtain ⟨hle, -⟩ := nextAddress_lt (hleft hrun')
    rw [extent_of_some h]
    omega
  · intro hrun' hflat
    have hnext := hleft hrun'
    rw [nextAddress_of_flat ((advance_step m).trans hflat)] at hnext
    split at hnext
    · rw [extent_of_some h, ← Option.some.inj hnext]
      omega
    · cases hnext
  · intro hrun'
    exact .inl (nextAddress_lt (hleft hrun')).2
  · intro _
    obtain ⟨e, flow, hf, -⟩ := rules_of_completed h
    have hsize := Memory.fetch_size_le hf
    have hpos := i.size_pos
    rw [completions_of_some h]
    omega

/-- An instruction that is not completed leaves the machine where it is. -/
theorem forward_step_of_uncompleted (h : m.completed? = none) : m.Forward [m] m.step.machine := by
  have hpc : m.step.machine.pc = m.pc := by
    rcases step_of_uncompleted h with hsame | ⟨f, hfault⟩
    · rw [hsame]
    · rw [hfault]
  refine ⟨advance_step m, ?_, ?_, fun _ => .inr hpc, ?_⟩
  · intro _
    rw [extent_of_none h, hpc]
    exact Nat.le_refl _
  · intro _ _
    rw [extent_of_none h, hpc]
    rfl
  · rw [completions_of_none h]
    nofun

theorem forward_step (hrun : m.status = .running) (hstraight : Straight [m]) :
    m.Forward [m] m.step.machine := by
  cases h : m.completed? with
  | none => exact forward_step_of_uncompleted h
  | some i => exact forward_step_of_completed hrun h (hstraight m (List.mem_singleton_self m) i h)

end Machine

namespace Session

/-- The program counter moves on whatever the host does in between. -/
theorem Moves.forward {s t : Session} {past : List Machine} (h : Moves s past t)
    (hstraight : Straight past) : s.machine.Forward past t.machine := by
  induction h with
  | refl => exact .refl _
  | tail _ hm ih =>
    obtain ⟨hpast, hnow⟩ := straight_append.mp hstraight
    have hforward := ih hpast
    cases hm with
    | step hrun => exact hforward.trans hrun (Machine.forward_step hrun hnow)
    | enter | close =>
      rw [List.append_nil]
      exact hforward.congr rfl rfl id
    | broken =>
      rw [List.append_nil]
      exact hforward.congr rfl rfl nofun

/-- **Straight-line execution ends.** Between two transfers of control the program counter passes
all the words of the instructions that are completed, and under the flat advance no others. So
there are fewer of them than addresses from the first one on, but for one that is the last because
the machine halts; a slice that is longer brings an event or transfers control. -/
theorem straight_line_ends {s : Session} :
    (∀ past t, Moves s past t → Straight past →
      (t.machine.status = .running → 0 < completions past →
        s.machine.pc + extent past ≤ t.machine.pc ∧
        (s.machine.advance = .flat → t.machine.pc = s.machine.pc + extent past) ∧
        completions past ≤ 32767 - s.machine.pc) ∧
      completions past ≤ 32768 - s.machine.pc) ∧
    ∀ n, s.machine.status = .running → 32768 - s.machine.pc < n → (s.execute n).1 = none →
      ∃ m ∈ s.trail n, ∃ i a, m.completed? = some i ∧ m.destination i = some a := by
  have hbound {past : List Machine} {t : Session} (h : Moves s past t) (hstraight : Straight past) :
      completions past ≤ 32768 - s.machine.pc := by
    have hbound := (h.forward hstraight).bound
    unfold memorySize at hbound
    omega
  refine ⟨?_, ?_⟩
  · intro past t h hstraight
    refine ⟨?_, hbound h hstraight⟩
    intro hrun hpos
    have hforward := h.forward hstraight
    have hle := hforward.le hrun
    refine ⟨hle, hforward.flat hrun, ?_⟩
    have hcount := completions_le_extent past
    have hinside := hforward.inside hrun
    unfold memorySize at hinside
    omega
  · intro n hrun hn hnone
    by_contra hnever
    have hstraight : Straight (s.trail n) := by
      intro m hm i hi
      cases hdestination : m.destination i with
      | none => rfl
      | some a => exact absurd ⟨m, hm, i, a, hi, hdestination⟩ hnever
    have hle := hbound (execute_moves n s) hstraight
    have hspent := spent_execute hrun n
    rw [hnone] at hspent
    have hall : completions (s.trail n) = n := hspent
    omega

/-- Makes an instruction of the data behind the first one, and halts. -/
def rewritingImage : List Word := [16, 3, 21, 500, 0]

theorem execute_rewriting {mem : Memory} (h₀ : mem.fetch 0 = .ok (.store 3 21)) {s : Session}
    (hs : s.machine = { memory := mem, advance := .flat }) :
    s.machine.completed? = some (.store 3 21) ∧
      (s.execute 1).2.machine.status = .running ∧
      (s.execute 1).2.machine.completed? = some .noop ∧
      ((s.execute 1).2.execute 1).2.machine.status = .running := by
  have hplace : 3 < memorySize := by decide
  have hstore : Machine.Acts { memory := mem, advance := .flat } (.store 3 21) _ _ :=
    .store rfl rfl (Memory.locate_of_lt hplace)
  have ht : (s.execute 1).2.machine =
      { memory := mem.set ⟨3, hplace⟩ 21, advance := .flat, pc := 3, cycles := 1 } := by
    rw [(execute_one_of_rules hs rfl h₀ hstore).2]
    rfl
  have h₃ : (mem.set ⟨3, hplace⟩ 21).fetch 3 = .ok .noop := by
    refine Memory.fetch_eq_ok_iff.mpr ⟨?_, trivial⟩
    rw [Memory.read_of_lt _ hplace, Memory.get_set_self]
    rfl
  generalize mem.set ⟨3, hplace⟩ 21 = mem' at ht h₃
  have hu : ((s.execute 1).2.execute 1).2.machine.status = .running := by
    rw [(execute_one_of_rules ht rfl h₃ .noop).2]
    rfl
  refine ⟨?_, by rw [ht], ?_, hu⟩
  · rw [hs]
    exact Machine.completed_of_rules h₀ hstore
  · rw [ht]
    exact Machine.completed_of_rules h₃ .noop

/-- The data that have become an instruction are passed like one; a program that goes on for longer
than memory has addresses transfers control. -/
theorem straight_line_ends_of_rewriting :
    (∃ s t past, Reachable s ∧ Moves s past t ∧ Straight past ∧ completions past = 2 ∧
      t.machine.status = .running ∧ t.machine.pc = 4) ∧
    ∃ s, Reachable s ∧ (s.execute 40000).1 = none ∧
      ∃ m ∈ s.trail 40000, ∃ i a, m.completed? = some i ∧ m.destination i = some a := by
  refine ⟨?_, ?_⟩
  · obtain ⟨mem, s, hboot, hs, -, hfetch⟩ :=
      boot_of_le { threshold := .warn } rewritingImage .flat (by decide)
    have h₀ : mem.fetch 0 = .ok (.store 3 21) := hfetch ⟨_, rfl⟩
    have hreach : Reachable s := hboot ▸ .boot _ _ _
    obtain ⟨hstore, hrun, hnoop, hleft⟩ := execute_rewriting h₀ hs
    have hmoves := (execute_moves 1 s).trans (execute_moves 1 (s.execute 1).2)
    rw [trail_one (by rw [hs]), trail_one hrun] at hmoves
    have hstraight : Straight ([s.machine] ++ [(s.execute 1).2.machine]) := by
      intro m hm i hi
      rcases List.mem_pair.mp hm with rfl | rfl
      · cases hstore.symm.trans hi
        rfl
      · cases hnoop.symm.trans hi
        rfl
    have hcount : completions ([s.machine] ++ [(s.execute 1).2.machine]) = 2 := by
      rw [completions_append, Machine.completions_of_some hstore, Machine.completions_of_some hnoop]
    obtain ⟨hpassed, -⟩ := straight_line_ends
    obtain ⟨-, hflat, -⟩ := (hpassed _ _ hmoves hstraight).1 hleft (by rw [hcount]; decide)
    refine ⟨s, _, _, hreach, hmoves, hstraight, hcount, hleft, ?_⟩
    rw [hflat (by rw [hs]), extent_append, Machine.extent_of_some hstore,
      Machine.extent_of_some hnoop, hs]
    rfl
  · obtain ⟨mem, s, hboot, hs, -, hfetch⟩ :=
      boot_of_le { threshold := .warn } spinImage .flat (by decide)
    have h₀ : mem.fetch 0 = .ok (.jump 0) := hfetch ⟨_, rfl⟩
    obtain ⟨t, c, hexec, -⟩ := execute_spin h₀ 40000 hs
    have hnone : (s.execute 40000).1 = none := by rw [hexec]
    obtain ⟨-, htransfers⟩ := straight_line_ends
    refine ⟨s, hboot ▸ .boot _ _ _, hnone, htransfers 40000 ?_ ?_ hnone⟩
    · rw [hs]
    · rw [hs]
      show 32768 - 0 < 40000
      decide

end Session

end Wordcode
