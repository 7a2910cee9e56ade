import Wordcode.Machine.Step

/-! Instructions as handlers. A handler works on the machine itself, one thing after the other: it
evaluates an operand, takes a word off the stack or a character off the queue, stores a result. If
it fails, the machine stays as the handler has left it by then. `Machine.plan` works everything out
beforehand and `Machine.apply` makes all the changes at once. The two come to the same for every
instruction on every machine, because no handler fails once it has changed something. -/

namespace Wordcode

/-- A computation on the machine. If it fails, what it has changed before stays changed. -/
abbrev Handler := EStateM Fault Machine

namespace Handler

/-! ## The handlers -/

/-- Asks the machine something and leaves it as it is. -/
def ask {α : Type} (question : Machine → Except Fault α) : Handler α := do
  MonadExcept.ofExcept (question (← get))

def value (raw : Word) : Handler Word :=
  ask (·.value raw)

/-- Stores a result in the destination's register. -/
def assign (dst : Word) (n : Int) : Handler Unit :=
  modify fun m => { m with registers := m.registers.set (Operand.target dst) (reduce n) }

def write (address : Nat) (w : Word) : Handler Unit := do
  let memory ← ask (·.memory.write address w)
  modify fun m => { m with memory }

/-- Stores a word where the operand says. -/
def put : Operand → Word → Handler Unit
  | .register r, w => modify fun m => { m with registers := m.registers.set r w }
  | .literal a, w => write a w

def push (w : Word) : Handler Unit :=
  modify fun m => { m with stack := m.stack.push w }

/-- Takes the top word off the stack. -/
def pop : Handler Word := do
  let (w, stack) ← ask (·.stack.pop Machine.underflowDetail)
  modify fun m => { m with stack }
  return w

/-- Takes the first pending character off the queue, if there is one. -/
def take? : Handler (Option Char) := do
  match (← get).input.take? with
  | none => return none
  | some (c, input) =>
    modify fun m => { m with input }
    return some c

/-- Carries the instruction at the program counter out and tells where control goes; without
an answer the instruction has to wait for input. -/
def dispatch (i : Instr) : Handler (Option Flow) :=
  match i with
  | .halt => return some .halt
  | .noop => return some .next
  | .set dst src => do
    assign dst (← value src).toNat
    return some .next
  | .push src => do
    push (← value src)
    return some .next
  | .pop dst => do
    assign dst (← pop).toNat
    return some .next
  | .compute op dst lhs rhs => do
    let x ← value lhs
    let y ← value rhs
    if op = .mod ∧ y = 0 then
      throw .divisionByZero
    assign dst (op.raw x.toNat y.toNat)
    return some .next
  | .not dst src => do
    assign dst (-(← value src).toNat - 1)
    return some .next
  | .jump target => return some (.jump (← value target))
  | .branch sense cond target => do
    let x ← value cond
    if (x != 0) = sense then
      return some (.jump (← value target))
    return some .next
  | .load dst addr => do
    let a ← value addr
    assign dst (← ask (·.memory.read a.toNat)).toNat
    return some .next
  | .store addr src => do
    let a ← value addr
    let w ← value src
    write a.toNat w
    return some .next
  | .call target => do
    let t ← value target
    push ((← get).returnAddress i)
    return some (.jump t)
  | .ret => return some (.jump (← pop))
  | .out src => return some (.print (charOfWord (← value src)))
  | .input dst => do
    let place ← ask fun _ => Operand.decode dst
    match ← take? with
    | some c =>
      -- the character is off the queue before it is known that it can be stored
      put place (reduce c.toNat)
      return some .next
    | none =>
      if (← get).input.closed then
        throw .inputExhausted
      return none

/-! ## What the parts of a handler do -/

/-- A word is off the stack before anything is done with it. -/
theorem run_pop_bind (k : Word → Handler (Option Flow)) (m : Machine) :
    (pop >>= k).run m =
      match m.stack.top Machine.underflowDetail with
      | .ok w => (k w).run { m with stack := m.stack.drop }
      | .error f => .error f m := by
  have hpop : (pop >>= k).run m = ((do
      let (w, stack) ← MonadExcept.ofExcept (m.stack.pop Machine.underflowDetail)
      modify fun m => { m with stack }
      return w : Handler Word) >>= k).run m := rfl
  rw [hpop, Stack.pop]
  cases m.stack.top Machine.underflowDetail <;> rfl

/-- So is a character off the queue. -/
theorem run_take_bind (k : Option Char → Handler (Option Flow)) (m : Machine) :
    (take? >>= k).run m =
      match m.input.next? with
      | some c => (k (some c)).run { m with input := m.input.drop }
      | none => (k none).run m := by
  have htake : (take? >>= k).run m = ((match m.input.take? with
      | none => return none
      | some (c, input) => do
        modify fun m => { m with input }
        return some c : Handler (Option Char)) >>= k).run m := rfl
  rw [htake, Input.take?]
  cases m.input.next? <;> rfl

theorem run_write_bind (address : Nat) (w : Word) (k : Unit → Handler (Option Flow))
    (m : Machine) :
    (write address w >>= k).run m =
      match Memory.locate address with
      | .ok a => (k ()).run { m with memory := m.memory.set a w }
      | .error f => .error f m := by
  have hwrite : (write address w >>= k).run m = ((do
      let memory ← MonadExcept.ofExcept (m.memory.write address w)
      modify fun m => { m with memory } : Handler Unit) >>= k).run m := rfl
  rw [hwrite, Memory.write]
  cases Memory.locate address <;> rfl

/-! ## Handlers and plans -/

/-- What carrying a plan out comes to: the flow, if the instruction need not wait, and the machine
with all its changes, or a fault and the machine as it was. -/
def outcome (m : Machine) : Except Fault Plan → EStateM.Result Fault Machine (Option Flow)
  | .ok .wait => .ok none m
  | .ok (.act e flow) => .ok (some flow) (m.apply e)
  | .error f => .error f m

/-- As long as a handler only asks, it is planning. -/
theorem run_ask_bind {α : Type} {question : Machine → Except Fault α}
    {k : α → Handler (Option Flow)} {p : α → Except Fault Plan} {m : Machine}
    (h : ∀ a, (k a).run m = outcome m (p a)) :
    (ask question >>= k).run m = outcome m (question m >>= p) := by
  have hask : (ask question >>= k).run m =
      (MonadExcept.ofExcept (question m) >>= k : Handler (Option Flow)).run m := rfl
  rw [hask]
  cases question m with
  | error f => rfl
  | ok a => exact h a

/-- **Handlers do what is planned.** Carried out step by step, with every change left in place when
a later step fails, an instruction comes to what its plan says: the same fault, wait or flow, and
the same machine. -/
theorem run_dispatch (i : Instr) (m : Machine) : (dispatch i).run m = outcome m (m.plan i) := by
  cases i with
  | halt | noop => rfl
  | set dst src | push src | not dst src | jump target | call target | out src =>
    exact run_ask_bind fun x => rfl
  | pop dst | ret =>
    refine (run_pop_bind _ m).trans ?_
    rw [Machine.plan]
    cases m.stack.top Machine.underflowDetail <;> rfl
  | compute op dst lhs rhs =>
    refine run_ask_bind fun x => run_ask_bind fun y => ?_
    cases hz : op.eval? x y with
    | none =>
      obtain ⟨rfl, rfl⟩ := Operator.eval?_eq_none_iff.mp hz
      rfl
    | some z =>
      have hdivides : ¬ (op = .mod ∧ y = 0) := by
        rw [← Operator.eval?_eq_none_iff, hz]
        exact Option.some_ne_none z
      rw [if_neg hdivides, Operator.eq_reduce_raw hz]
      rfl
  | branch sense cond target =>
    refine run_ask_bind fun x => ?_
    by_cases htaken : (x != 0) = sense
    · rw [if_pos htaken, if_pos htaken]
      exact run_ask_bind fun t => rfl
    · rw [if_neg htaken, if_neg htaken]
      rfl
  | load dst addr => exact run_ask_bind fun a => run_ask_bind fun w => rfl
  | store addr src =>
    refine run_ask_bind fun a => run_ask_bind fun w => (run_write_bind _ _ _ m).trans ?_
    cases Memory.locate a.toNat <;> rfl
  | input dst =>
    refine run_ask_bind fun place => (run_take_bind _ m).trans ?_
    cases m.input.next? with
    | none =>
      show (if m.input.closed = true then throw .inputExhausted >>= fun _ => pure none
          else pure none : Handler (Option Flow)).run m =
        outcome m (if m.input.closed = true then throw .inputExhausted else pure .wait)
      split <;> rfl
    | some c =>
      cases place with
      | register r => rfl
      | literal a =>
        -- a literal operand is an address of memory, so the character is not lost
        refine (run_write_bind a.val _ _ _).trans ?_
        rw [Memory.locate_of_lt a.isLt]
        rfl

/-- A handler that fails has changed nothing. -/
theorem machine_of_dispatch_error {i : Instr} {m m' : Machine} {f : Fault}
    (h : (dispatch i).run m = .error f m') : m' = m ∧ m.plan i = .error f := by
  rw [run_dispatch] at h
  unfold outcome at h
  split at h
  · cases h
  · cases h
  · rename_i hplan
    cases h
    exact ⟨rfl, hplan⟩

/-- Tries the instruction at the program counter by its handler. -/
def turn (m : Machine) : Turn :=
  match m.memory.fetch m.pc with
  | .error f => m.abort f
  | .ok i =>
    Turn.after (.traced m.pc i) <|
      match (dispatch i).run m with
      | .error f m' => m'.abort f
      | .ok none m' => { machine := m', event := some .input }
      | .ok (some flow) m' => m'.tick.follow i flow

/-- A step of the machine is a turn of its handler. -/
theorem turn_eq_step (m : Machine) : turn m = m.step := by
  simp only [turn, Machine.step, Machine.attempt]
  cases m.memory.fetch m.pc with
  | error f => rfl
  | ok i =>
    simp only [run_dispatch]
    cases m.plan i with
    | error f => rfl
    | ok plan => cases plan <;> rfl

end Handler

end Wordcode
