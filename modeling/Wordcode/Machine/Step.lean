import Wordcode.Journal.Remark
import Wordcode.Machine.Plan

/-! One instruction. `attempt` says how the instruction at the program counter will turn
out, without changing the machine; `step` carries it out and reports what happened. -/

namespace Wordcode

/-- How trying one instruction turns out. -/
inductive Attempt where
  /-- The instruction could not be read. -/
  | unfetched (f : Fault)
  | refused (i : Instr) (f : Fault)
  | waits (i : Instr)
  | completes (i : Instr) (effect : Effect) (flow : Flow)
  deriving DecidableEq

/-- What one step leads to: no event means that the machine can go on at once. -/
structure Turn where
  machine : Machine
  event : Option Event := none
  remarks : List Remark := []

/-- The turn with a remark that was made before its others. -/
def Turn.after (r : Remark) : Turn → Turn
  | ⟨machine, event, remarks⟩ => ⟨machine, event, r :: remarks⟩

namespace Machine

def attempt (m : Machine) : Attempt :=
  match m.memory.fetch m.pc with
  | .error f => .unfetched f
  | .ok i =>
    match m.plan i with
    | .error f => .refused i f
    | .ok .wait => .waits i
    | .ok (.act effect flow) => .completes i effect flow

/-- Counts a completed instruction. -/
def tick (m : Machine) : Machine :=
  { m with cycles := m.cycles + 1 }

def goTo (m : Machine) (pc : Nat) : Machine :=
  { m with pc := pc }

/-- Stops for good. A character still to be printed is reported instead of the halt. -/
def halt (m : Machine) (printed : Option Char) : Turn :=
  { machine := { m with status := .halted }
    event := some ((printed.map .print).getD .halted)
    remarks := [.halted m.pc m.cycles] }

/-- Goes on behind an instruction that did not transfer control. -/
def proceed (m : Machine) (i : Instr) (printed : Option Char) : Turn :=
  match m.nextAddress (m.pc + i.size) with
  | some next => { machine := m.goTo next, event := printed.map .print }
  | none => m.halt printed

def follow (m : Machine) (i : Instr) : Flow → Turn
  | .next => m.proceed i none
  | .print c => m.proceed i (some c)
  | .jump target => { machine := m.goTo target.toNat }
  | .halt => m.halt none

/-- Stops with a fault. -/
def abort (m : Machine) (f : Fault) : Turn :=
  { machine := m.fail f
    event := some (.fault (f.located m.pc))
    remarks := [.faulted m.cycles m.registers] }

/-- Tries the instruction at the program counter. A wait changes nothing, so the same
instruction is tried again by the next step. -/
def step (m : Machine) : Turn :=
  match m.attempt with
  | .unfetched f => m.abort f
  | .refused i f => (m.abort f).after (.traced m.pc i)
  | .waits i => { machine := m, event := some .input, remarks := [.traced m.pc i] }
  | .completes i effect flow =>
    let pc := m.pc
    ((m.apply effect).tick.follow i flow).after (.traced pc i)

/-! ## Steps without an event -/

@[simp] theorem status_apply (m : Machine) (e : Effect) : (m.apply e).status = m.status := rfl

theorem status_follow_of_none {m : Machine} {i : Instr} {flow : Flow}
    (h : (m.follow i flow).event = none) : (m.follow i flow).machine.status = m.status := by
  cases flow with
  | jump target => rfl
  | halt => simp [follow, halt] at h
  | next | print c =>
    simp only [follow, proceed] at h ⊢
    split at h
    · rfl
    · simp [halt] at h

/-- A step that raises no event leaves a running machine running. -/
theorem status_step_of_none {m : Machine} (h : m.step.event = none) :
    m.step.machine.status = m.status := by
  unfold step at h ⊢
  split at h
  · simp [abort] at h
  · simp [abort, Turn.after] at h
  · simp at h
  · exact status_follow_of_none h

end Machine

end Wordcode
