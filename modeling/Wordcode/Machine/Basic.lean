import Wordcode.Machine.Fetch
import Wordcode.Machine.Input

/-! The state of a machine and the events by which it talks to its host. -/

namespace Wordcode

/-- How the program counter moves past an instruction that does not transfer control. -/
inductive Advance where
  /-- To the first word after the operands that is an opcode; halts if there is none. -/
  | scan
  /-- To the word after the operands; halts at the end of memory. -/
  | flat
  deriving DecidableEq, Repr, Inhabited

def Advance.text : Advance → String
  | scan => "Scan"
  | flat => "Flat"

inductive Status where
  | running
  | halted
  | faulted (f : Fault)
  deriving DecidableEq, Repr

/-- What the machine wants its host to know or to do. -/
inductive Event where
  /-- This character has to be printed before the machine goes on. -/
  | print (c : Char)
  /-- A line has to be entered, or the input closed. -/
  | input
  | halted
  | fault (f : Fault)
  deriving DecidableEq, Repr

structure Machine where
  memory : Memory
  registers : Registers := .zero
  stack : Stack := .empty
  input : Input := {}
  advance : Advance
  pc : Nat := 0
  cycles : UInt64 := 0
  status : Status := .running
  deriving DecidableEq

namespace Machine

/-- A machine about to run an image. An image larger than memory is not run: the machine
starts out faulted. -/
def boot (image : List Word) (advance : Advance) : Machine :=
  let status := if memorySize < image.length
    then .faulted ((Fault.exceedsMemory image.length).located 0)
    else .running
  { memory := .ofImage image, advance := advance, status := status }

def finished (m : Machine) : Bool :=
  m.status ≠ .running

/-- Where execution goes on if `start` is the first word after an instruction. -/
def nextAddress (m : Machine) (start : Nat) : Option Nat :=
  match m.advance with
  | .flat => if start < memorySize then some start else none
  | .scan => m.memory.nextOpcode start

/-- The value an operand word stands for. -/
def value (m : Machine) (raw : Word) : Except Fault Word :=
  m.registers.value raw

def enter (m : Machine) (line : String) : Machine :=
  { m with input := m.input.enter line }

def close (m : Machine) : Machine :=
  { m with input := m.input.close }

/-- Stops with a fault, located here unless it has a place already. -/
def fail (m : Machine) (f : Fault) : Machine :=
  { m with status := .faulted (f.located m.pc) }

end Machine

end Wordcode
