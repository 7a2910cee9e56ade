import Wordcode.Proofs.Host.Arithmetic
import Wordcode.Proofs.Host.Brackets
import Wordcode.Proofs.Host.Intake

/-! The footprint of an instruction. Tables say, for each instruction, which cell and which register
it writes and what, what becomes of the stack and of the queue, and where control goes. They are
read off the operands and the machine before; a completed instruction changes what the tables name
and nothing else. -/

namespace Wordcode

/-- A word that is no opcode is passed over. -/
theorem Memory.nextOpcode_of_skip {mem : Memory} {a : Nat} (h : ¬ mem.OpcodeAt a)
    (hnext : mem.OpcodeAt (a + 1)) : mem.nextOpcode a = some (a + 1) := by
  refine nextOpcode_eq_some_iff_isLeast.mpr ⟨⟨Nat.le_succ a, hnext⟩, ?_⟩
  rintro b ⟨hb, hop⟩
  refine Nat.succ_le_of_lt (Nat.lt_of_le_of_ne hb ?_)
  rintro rfl
  exact h hop

/-- The address of a jump. -/
def Flow.target? : Flow → Option Nat
  | .jump t => some t.toNat
  | .next | .print _ | .halt => none

namespace Machine

/-! ## The tables -/

/-- The cell an instruction writes, and the number it writes there. -/
def cellWrite (m : Machine) : Instr → Option (Nat × Nat)
  | .store addr src => some ((m.denote addr).toNat, (m.denote src).toNat)
  | .input dst =>
    if dst.toNat < 32768 then m.input.next?.map fun c => (dst.toNat, c.toNat % 32768) else none
  | _ => none

/-- The register an instruction writes, and the number it writes there. -/
def registerWrite (m : Machine) : Instr → Option (Nat × Nat)
  | .set dst src => some (dst.toNat % 8, (m.denote src).toNat)
  | .pop dst => m.stack.top?.map fun w => (dst.toNat % 8, w.toNat % 32768)
  | .compute op dst lhs rhs =>
    some (dst.toNat % 8, op.exact (m.denote lhs).toNat (m.denote rhs).toNat)
  | .not dst src => some (dst.toNat % 8, 32767 - (m.denote src).toNat)
  | .load dst addr =>
    some (dst.toNat % 8, (m.memory.toList.getD (m.denote addr).toNat 0).toNat % 32768)
  | .input dst =>
    if dst.toNat < 32768 then none else m.input.next?.map fun c => (dst.toNat % 8, c.toNat % 32768)
  | _ => none

/-- What an instruction leaves of the stack. -/
def StackAfter (m : Machine) (st : Stack) : Instr → Prop
  | .push src => st = m.stack.push (m.denote src)
  | .call _ => ∃ w, m.ReturnPoint w.toNat ∧ st = m.stack.push w
  | .pop _ | .ret => ∃ w, m.stack = st.push w
  | _ => st = m.stack

/-- What an instruction leaves of the queue. -/
def PendingAfter (m : Machine) (pending : List Char) : Instr → Prop
  | .input _ => ∃ c, m.input.pending = c :: pending
  | _ => pending = m.input.pending

/-- The address an instruction transfers control to: jumps, calls, returns and the branches that
are taken have one, and no other instruction. -/
def destination (m : Machine) : Instr → Option Nat
  | .jump target | .call target => some (m.denote target).toNat
  | .branch sense cond target =>
    if (m.denote cond != 0) = sense then some (m.denote target).toNat else none
  | .ret => m.stack.top?.map (·.toNat)
  | _ => none

/-- The address at which the machine `after` goes on behind an instruction, if it does. Where
control is not transferred, the memory it is looked for in is the one the instruction left. -/
def onward (m after : Machine) (i : Instr) : Option Nat :=
  if i = .halt then none
  else (m.destination i).or (after.nextAddress (m.pc + 1 + i.opcode.arity))

/-- The number at a place of which at most one is written. -/
def overwritten (write : Option (Nat × Nat)) (place old : Nat) : Nat :=
  match write with
  | some (written, n) => if written = place then n else old
  | none => old

/-- The machine `after` is `m` with what the instruction changes, and with nothing else changed. -/
structure Footprint (m : Machine) (i : Instr) (after : Machine) : Prop where
  cycles : after.cycles.toNat = (m.cycles.toNat + 1) % 2 ^ 64
  closed : after.input.closed = m.input.closed
  advance : after.advance = m.advance
  memory : ∀ a : Address, (after.memory.get a).toNat =
    overwritten (m.cellWrite i) a (m.memory.get a).toNat
  registers : ∀ r : Register, (after.registers.get r).toNat =
    overwritten (m.registerWrite i) r (m.registers.get r).toNat
  stack : m.StackAfter after.stack i
  pending : m.PendingAfter after.input.pending i
  pc : after.pc = (m.onward after i).getD m.pc
  status : after.status = if (m.onward after i).isSome then .running else .halted

/-! ## The rules against the tables -/

section Acts

variable {image : List Word} {m : Machine} {i : Instr} {e : Effect} {flow : Flow}

theorem toNat_reduce_natCast (n : Nat) : (reduce n).toNat = n % 32768 := by
  rw [toNat_reduce]
  omega

theorem stack_eq_push {w : Word} (h : m.stack.top? = some w) : m.stack = m.stack.drop.push w := by
  obtain ⟨rest, hrest⟩ := List.head?_eq_some_iff.mp h
  rw [Stack.drop, Stack.push, hrest, List.tail_cons, ← hrest]

theorem pending_eq_cons {c : Char} (h : m.input.next? = some c) :
    m.input.pending = c :: m.input.drop.pending := by
  obtain ⟨rest, hrest⟩ := List.head?_eq_some_iff.mp h
  rw [Input.drop, hrest, List.tail_cons]

theorem Acts.cellWrite_eq (ha : Acts m i e flow) :
    m.cellWrite i = e.cell.map fun write => (write.1.val, write.2.toNat) := by
  cases ha with
  | @store addr src a w place hx hw hp =>
    obtain ⟨-, rfl⟩ := value_eq_ok_iff.mp hx
    obtain ⟨-, rfl⟩ := value_eq_ok_iff.mp hw
    unfold Memory.locate at hp
    split at hp
    · cases hp
      rfl
    · cases hp
  | @inputRegister dst r c hdst hc =>
    have hname := Operand.toNat_of_decode_register hdst
    exact if_neg (by omega)
  | @inputCell dst a c hdst hc =>
    have hplace := Operand.toNat_of_decode_literal hdst
    have hlt : dst.toNat < 32768 := hplace ▸ a.isLt
    simp only [cellWrite, if_pos hlt, hc, Option.map_some, hplace, toNat_reduce_natCast]
  | _ => rfl

theorem Bounded.registerWrite_eq (hb : Bounded image m) (ha : Acts m i e flow) :
    m.registerWrite i = e.register.map fun write => (write.1.val, write.2.toNat) := by
  cases ha with
  | @set dst src x hx =>
    obtain ⟨-, rfl⟩ := value_eq_ok_iff.mp hx
    simp only [registerWrite, Option.map_some, reduce_of_lt (hb.denote_lt src)]
    rfl
  | @pop dst w hw =>
    simp only [registerWrite, Option.map_some, hw, toNat_reduce_natCast]
    rfl
  | @compute op dst lhs rhs x y z hx hy hz =>
    obtain ⟨-, rfl⟩ := value_eq_ok_iff.mp hx
    obtain ⟨-, rfl⟩ := value_eq_ok_iff.mp hy
    simp only [registerWrite, Option.map_some,
      Operator.toNat_of_eval? (hb.denote_lt lhs) (hb.denote_lt rhs) hz]
    rfl
  | @not dst src x hx =>
    obtain ⟨-, rfl⟩ := value_eq_ok_iff.mp hx
    simp only [registerWrite, Option.map_some, (toNat_reduce_not (hb.denote_lt src)).1]
    rfl
  | @load dst addr a w hx hw =>
    obtain ⟨-, rfl⟩ := value_eq_ok_iff.mp hx
    obtain ⟨hlt, rfl⟩ := Memory.read_eq_ok_iff.mp hw
    have hword : m.memory.toList.getD (m.denote addr).toNat 0 = m.memory.get ⟨_, hlt⟩ := by
      simp [Memory.toList, Memory.get, hlt]
    simp only [registerWrite, Option.map_some, hword, toNat_reduce_natCast]
    rfl
  | @inputRegister dst r c hdst hc =>
    have hname := Operand.toNat_of_decode_register hdst
    have hlt : r.val < 8 := r.isLt
    have hr : dst.toNat % 8 = r.val := by omega
    have hge : ¬ dst.toNat < 32768 := by omega
    simp only [registerWrite, if_neg hge, hc, Option.map_some, hr, toNat_reduce_natCast]
  | @inputCell dst a c hdst hc =>
    have hplace := Operand.toNat_of_decode_literal hdst
    have hlt : dst.toNat < 32768 := hplace ▸ a.isLt
    exact if_pos hlt
  | _ => rfl

theorem Acts.stackAfter (hf : m.memory.fetch m.pc = .ok i) (ha : Acts m i e flow) :
    m.StackAfter (e.stack.apply m.stack) i := by
  cases ha with
  | push hx =>
    obtain ⟨-, rfl⟩ := value_eq_ok_iff.mp hx
    rfl
  | call => exact ⟨_, returnPoint_returnAddress hf, rfl⟩
  | pop hw | ret hw => exact ⟨_, stack_eq_push hw⟩
  | _ => rfl

theorem Acts.pendingAfter (ha : Acts m i e flow) :
    m.PendingAfter (if e.reads then m.input.drop else m.input).pending i := by
  cases ha with
  | inputRegister _ hc | inputCell _ hc => exact ⟨_, pending_eq_cons hc⟩
  | _ => rfl

/-- Control is transferred by the instructions that have a destination, and it goes there. -/
theorem Acts.destination_eq (ha : Acts m i e flow) : m.destination i = flow.target? := by
  cases ha with
  | jump ht | call ht =>
    obtain ⟨-, rfl⟩ := value_eq_ok_iff.mp ht
    rfl
  | taken hx htaken ht =>
    obtain ⟨-, rfl⟩ := value_eq_ok_iff.mp hx
    obtain ⟨-, rfl⟩ := value_eq_ok_iff.mp ht
    exact if_pos htaken
  | passed hx hpassed =>
    obtain ⟨-, rfl⟩ := value_eq_ok_iff.mp hx
    exact if_neg hpassed
  | ret hw => exact congrArg (Option.map _) hw
  | _ => rfl

theorem Acts.halt_iff (ha : Acts m i e flow) : i = .halt ↔ flow = .halt := by
  cases ha <;> simp

end Acts

/-! ## A completed instruction -/

section Completed

variable {image : List Word} {m : Machine} {i : Instr}

/-- What the rules allow is completed. -/
theorem completed_of_rules {e : Effect} {flow : Flow} (hf : m.memory.fetch m.pc = .ok i)
    (ha : Acts m i e flow) : m.completed? = some i :=
  completed?_eq_some_iff.mpr ⟨e, flow, attempt_eq_completes_iff.mpr ⟨hf, ha⟩⟩

theorem pc_add_size (m : Machine) (i : Instr) : m.pc + i.size = m.pc + 1 + i.opcode.arity := by
  rw [Instr.size, Instr.length_operands]
  omega

theorem nextAddress_of_scan (hscan : m.advance = .scan) (start : Nat) :
    m.nextAddress start = m.memory.nextOpcode start := by
  simp only [nextAddress, hscan]

/-- Where control is neither transferred nor given up, the advance leads on. -/
theorem onward_of_straight (hhalt : i ≠ .halt) (hstraight : m.destination i = none)
    (after : Machine) : m.onward after i = after.nextAddress (m.pc + 1 + i.opcode.arity) := by
  rw [onward, if_neg hhalt, hstraight, Option.none_or]

/-- Where a completed instruction goes on, by the flow of control. -/
theorem Acts.onward_eq {e : Effect} {flow : Flow} (ha : Acts m i e flow) (after : Machine) :
    m.onward after i =
      if flow = .halt then none else flow.target?.or (after.nextAddress (m.pc + i.size)) := by
  simp only [onward, ha.halt_iff, ha.destination_eq, pc_add_size]

/-- A completed instruction is followed by the one at the address the tables give, or it halts. -/
theorem onward_of_completed (hrun : m.status = .running) (h : m.completed? = some i) :
    m.step.machine.pc = (m.onward m.step.machine i).getD m.pc ∧
      m.step.machine.status =
        if (m.onward m.step.machine i).isSome then .running else .halted := by
  obtain ⟨e, flow, hf, ha, hfollow⟩ := rules_of_completed h
  have honward := ha.onward_eq m.step.machine
  generalize m.step.machine = after at hfollow honward ⊢
  generalize m.step.event = event at hfollow
  cases hfollow with
  | jump t =>
    rw [honward]
    exact ⟨rfl, hrun⟩
  | halt =>
    rw [honward]
    exact ⟨rfl, rfl⟩
  | @next a hn | @print c a hn =>
    have hnext : m.onward ((m.apply e).tick.goTo a) i = some a := honward.trans hn
    rw [hnext]
    exact ⟨rfl, hrun⟩
  | last hn | lastPrint hn =>
    have hnext : m.onward { (m.apply e).tick with status := .halted } i = none := honward.trans hn
    rw [hnext]
    exact ⟨rfl, rfl⟩

/-- One place is written, and all others keep their word. -/
theorem toNat_eq_overwritten {k : Nat} {write : Option (Fin k × Word)} {a : Fin k} {old new : Word}
    (hself : ∀ w, write = some (a, w) → new = w)
    (hother : (∀ b w, write = some (b, w) → b ≠ a) → new = old) :
    new.toNat =
      overwritten (write.map fun write => (write.1.val, write.2.toNat)) a old.toNat := by
  cases write with
  | none => rw [hother nofun]; rfl
  | some write =>
    obtain ⟨b, w⟩ := write
    simp only [Option.map_some, overwritten, Fin.val_inj]
    by_cases hb : b = a
    · rw [if_pos hb, hself w (by rw [hb])]
    · rw [if_neg hb, hother]
      rintro b' w' ⟨⟩
      exact hb

theorem toNat_get_memory_apply (m : Machine) (e : Effect) (a : Address) :
    ((m.apply e).memory.get a).toNat =
      overwritten (e.cell.map fun write => (write.1.val, write.2.toNat)) a
        (m.memory.get a).toNat := by
  apply toNat_eq_overwritten <;> rw [memory_apply]
  · intro w hw
    rw [hw]
    exact Memory.get_set_self _ a w
  · intro hne
    cases hcell : e.cell with
    | none => rfl
    | some write => exact Memory.get_set_of_ne _ (hne write.1 write.2 hcell) _

theorem toNat_get_registers_apply (m : Machine) (e : Effect) (r : Register) :
    ((m.apply e).registers.get r).toNat =
      overwritten (e.register.map fun write => (write.1.val, write.2.toNat)) r
        (m.registers.get r).toNat := by
  apply toNat_eq_overwritten <;> rw [registers_apply]
  · intro w hw
    rw [hw]
    exact Registers.get_set_self _ r w
  · intro hne
    cases hregister : e.register with
    | none => rfl
    | some write => exact Registers.get_set_of_ne _ (hne write.1 write.2 hregister) _

/-- **A completed instruction leaves its footprint.** -/
theorem Bounded.footprint (hb : Bounded image m) (hrun : m.status = .running)
    (h : m.completed? = some i) : m.Footprint i m.step.machine := by
  obtain ⟨hpc, hstatus⟩ := onward_of_completed hrun h
  obtain ⟨e, flow, hf, ha, hfollow⟩ := rules_of_completed h
  have hframe := hfollow.frame
  refine ⟨?_, ?_, ?_, ?_, ?_, ?_, ?_, hpc, hstatus⟩
  · have hcycles : m.step.machine.cycles = m.cycles + 1 := congrArg (fun n => n.cycles) hframe
    rw [hcycles, UInt64.toNat_add]
    rfl
  · exact closed_step m
  · exact advance_step m
  · intro a
    have hmemory : m.step.machine.memory = (m.apply e).memory :=
      congrArg (fun n => n.memory) hframe
    rw [hmemory, ha.cellWrite_eq]
    exact toNat_get_memory_apply m e a
  · intro r
    have hregisters : m.step.machine.registers = (m.apply e).registers :=
      congrArg (fun n => n.registers) hframe
    rw [hregisters, hb.registerWrite_eq ha]
    exact toNat_get_registers_apply m e r
  · have hstack : m.step.machine.stack = e.stack.apply m.stack :=
      congrArg (fun n => n.stack) hframe
    rw [hstack]
    exact ha.stackAfter hf
  · have hinput : m.step.machine.input = if e.reads then m.input.drop else m.input :=
      congrArg (fun n => n.input) hframe
    rw [hinput]
    exact ha.pendingAfter

/-- What neither faults nor waits is completed. -/
theorem completed_of_event (hfault : ∀ f, m.step.event ≠ some (.fault f))
    (hwait : m.step.event ≠ some .input) : ∃ i, m.completed? = some i := by
  have ht := m.step_trial
  generalize m.step.event = event at ht hfault hwait
  generalize m.step.machine = after at ht
  cases ht with
  | fault => exact absurd rfl (hfault _)
  | wait => exact absurd rfl hwait
  | complete hf ha => exact ⟨_, completed_of_rules hf ha⟩

/-- What is not completed changes nothing, or it stops the machine and changes nothing else. -/
theorem step_of_uncompleted (h : m.completed? = none) :
    m.step.machine = m ∨ ∃ f, m.step.machine = { m with status := .faulted f } := by
  have ht := m.step_trial
  generalize m.step.event = event at ht
  generalize m.step.machine = after at ht ⊢
  cases ht with
  | fault => exact .inr ⟨_, rfl⟩
  | wait => exact .inl rfl
  | complete hf ha => cases h.symm.trans (completed_of_rules hf ha)

theorem event_of_completed (h : m.completed? = some i) :
    (∀ f, m.step.event ≠ some (.fault f)) ∧ m.step.event ≠ some .input := by
  obtain ⟨e, flow, -, -, hfollow⟩ := rules_of_completed h
  refine ⟨hfollow.event_ne_fault, ?_⟩
  generalize m.step.machine = after at hfollow
  generalize m.step.event = event at hfollow ⊢
  cases hfollow <;> nofun

end Completed

end Machine

namespace Session

/-- **An instruction leaves its footprint and nothing else.** Whatever a reachable machine executes
without a fault and without waiting is the instruction at its program counter, and the machine
afterwards differs from the one before in what the tables name for that instruction. -/
theorem instruction_footprint {s : Session} (h : Reachable s) (hrun : s.machine.status = .running)
    (hfault : ∀ f, (s.execute 1).1 ≠ some (.fault f)) (hwait : (s.execute 1).1 ≠ some .input) :
    ∃ i, s.machine.memory.fetch s.machine.pc = .ok i ∧
      s.machine.Footprint i (s.execute 1).2.machine := by
  obtain ⟨image, hb⟩ := h.bounded
  rw [event_execute_one hrun] at hfault hwait
  obtain ⟨i, hcompleted⟩ := Machine.completed_of_event hfault hwait
  obtain ⟨e, flow, hf, -, -⟩ := Machine.rules_of_completed hcompleted
  rw [machine_execute_one hrun]
  exact ⟨i, hf, hb.footprint hrun hcompleted⟩

/-- Stores an opcode among the data behind the instruction itself. -/
def patchImage : List Word := [16, 4, 21, 500, 600, 0]

/-- The stored opcode is where a scanning machine goes on; nothing else has changed in memory. -/
theorem instruction_footprint_of_patch :
    ∃ s, Reachable s ∧ s.machine.advance = .scan ∧ (s.execute 1).2.machine.pc = 4 ∧
      ∀ a : Address, ((s.execute 1).2.machine.memory.get a).toNat =
        if 4 = a.val then 21 else (s.machine.memory.get a).toNat := by
  obtain ⟨mem, s, hboot, hs, hwords, hfetch⟩ :=
    boot_of_le { threshold := .warn } patchImage .scan (by decide)
  have hreach : Reachable s := hboot ▸ .boot _ _ _
  have hf : mem.fetch 0 = .ok (.store 4 21) := hfetch ⟨_, rfl⟩
  have hdata (h : 3 < memorySize) : mem.get ⟨3, h⟩ = 500 := hwords _
  have hrun : s.machine.status = .running := by rw [hs]
  have hcompleted : s.machine.completed? = some (.store 4 21) := by
    rw [hs]
    exact Machine.completed_of_rules hf (.store rfl rfl (Memory.locate_of_lt (by decide)))
  obtain ⟨hfault, hwait⟩ := Machine.event_of_completed hcompleted
  rw [← event_execute_one hrun] at hfault hwait
  obtain ⟨i, hi, hfootprint⟩ := instruction_footprint hreach hrun hfault hwait
  have hi' : s.machine.memory.fetch s.machine.pc = .ok (.store 4 21) := by
    rw [hs]
    exact hf
  cases hi'.symm.trans hi
  refine ⟨s, hreach, by rw [hs], ?_, hfootprint.memory⟩
  generalize (s.execute 1).2.machine = after at hfootprint ⊢
  have hadvance : after.advance = .scan := by rw [hfootprint.advance, hs]
  have hwrite : s.machine.cellWrite (.store 4 21) = some (4, 21) := rfl
  have hpatched : after.memory.OpcodeAt 4 := by
    refine ⟨_, Memory.read_of_lt _ (by decide), ?_⟩
    rw [hfootprint.memory, hwrite, Machine.overwritten, if_pos rfl]
  have hkept : ¬ after.memory.OpcodeAt 3 := by
    rintro ⟨w, hread, hle⟩
    obtain ⟨hlt, rfl⟩ := Memory.read_eq_ok_iff.mp hread
    have hne : 4 ≠ (⟨3, hlt⟩ : Address).val := by simp
    rw [hfootprint.memory, hwrite, Machine.overwritten, if_neg hne, hs, hdata hlt] at hle
    exact absurd hle (by decide)
  have hbehind : s.machine.pc + 1 + (Instr.store 4 21).opcode.arity = 3 := by
    rw [hs]
    rfl
  have hstraight := Machine.onward_of_straight (show Instr.store 4 21 ≠ .halt from nofun)
    (show s.machine.destination (.store 4 21) = none from rfl) after
  rw [hfootprint.pc, hstraight, hbehind, Machine.nextAddress_of_scan hadvance,
    Memory.nextOpcode_of_skip hkept hpatched, Option.getD_some]

end Session

end Wordcode
