import Wordcode.Machine.Basic

/-! What an instruction does, worked out before anything is changed. `Machine.plan`
only reads the machine; it answers with a fault, with a wait for input, or with the
changes to make and the way on. `Machine.apply` then makes the changes, and nothing in
it can fail, so an instruction that faults has changed nothing. -/

namespace Wordcode

inductive StackChange where
  | keep
  | push (w : Word)
  | drop
  deriving DecidableEq, Repr

def StackChange.apply : StackChange → Stack → Stack
  | keep, st => st
  | push w, st => st.push w
  | drop, st => st.drop

/-- The changes one instruction makes to what the machine stores. -/
structure Effect where
  register : Option (Register × Word) := none
  cell : Option (Address × Word) := none
  stack : StackChange := .keep
  /-- Whether the first pending character is used up. -/
  reads : Bool := false
  deriving DecidableEq, Repr

/-- Where control goes after an instruction. -/
inductive Flow where
  | next
  | print (c : Char)
  | jump (target : Word)
  | halt
  deriving DecidableEq, Repr

inductive Plan where
  /-- There is no character to read yet. -/
  | wait
  | act (effect : Effect) (flow : Flow)
  deriving DecidableEq, Repr

/-- The character with this code point. A word that is no code point shows as the
replacement character. -/
def charOfWord (w : Word) : Char :=
  if w.toNat.isValidChar then Char.ofNat w.toNat else '\uFFFD'

/-- Carries on after storing a result in the destination's register. -/
def Plan.assign (dst : Word) (n : Int) : Plan :=
  .act { register := some (Operand.target dst, reduce n) } .next

namespace Machine

/-- The detail of the fault that popping an empty stack raises. -/
def underflowDetail : String := "POP OR RET ON EMPTY STACK"

/-- The word `CALL` leaves on the stack: where the caller goes on, or the end of the
instruction if it goes on nowhere. -/
def returnAddress (m : Machine) (i : Instr) : Word :=
  UInt16.ofNat ((m.nextAddress (m.pc + i.size)).getD (m.pc + i.size))

/-- What the instruction `i` at the program counter would do. Operands are evaluated from
left to right, and the target of a branch only when the branch is taken. -/
def plan (m : Machine) (i : Instr) : Except Fault Plan :=
  match i with
  | .halt => return .act {} .halt
  | .noop => return .act {} .next
  | .set dst src => return .assign dst (← m.value src).toNat
  | .push src => return .act { stack := .push (← m.value src) } .next
  | .pop dst => do
    let w ← m.stack.top underflowDetail
    return .act { register := some (Operand.target dst, reduce w.toNat), stack := .drop } .next
  | .compute op dst lhs rhs => do
    let x ← m.value lhs
    let y ← m.value rhs
    match op.eval? x y with
    | some z => return .act { register := some (Operand.target dst, z) } .next
    | none => throw .divisionByZero
  | .not dst src => return .assign dst (-(← m.value src).toNat - 1)
  | .jump target => return .act {} (.jump (← m.value target))
  | .branch sense cond target => do
    let x ← m.value cond
    if (x != 0) = sense then
      return .act {} (.jump (← m.value target))
    else
      return .act {} .next
  | .load dst addr => return .assign dst (← m.memory.read (← m.value addr).toNat).toNat
  | .store addr src => do
    let a ← m.value addr
    let w ← m.value src
    return .act { cell := some (← Memory.locate a.toNat, w) } .next
  | .call target => do
    let t ← m.value target
    return .act { stack := .push (m.returnAddress i) } (.jump t)
  | .ret => do
    let w ← m.stack.top underflowDetail
    return .act { stack := .drop } (.jump w)
  | .out src => return .act {} (.print (charOfWord (← m.value src)))
  | .input dst => do
    let place ← Operand.decode dst
    match m.input.next? with
    | some c =>
      match place with
      | .register r => return .act { register := some (r, reduce c.toNat), reads := true } .next
      | .literal a => return .act { cell := some (a, reduce c.toNat), reads := true } .next
    | none => if m.input.closed then throw .inputExhausted else return .wait

/-- Makes the changes. -/
def apply : Machine → Effect → Machine
  | { memory, registers, stack, input, advance, pc, cycles, status }, e =>
    { memory := match e.cell with
        | some (a, w) => memory.set a w
        | none => memory
      registers := match e.register with
        | some (r, w) => registers.set r w
        | none => registers
      stack := e.stack.apply stack
      input := if e.reads then input.drop else input
      advance, pc, cycles, status }

end Machine

end Wordcode
