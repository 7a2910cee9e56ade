import Wordcode.Journal.Basic
import Wordcode.Machine.Step

/-! A session is a machine and the journal kept about it. The host boots it, lets it
execute in slices, and answers its wish for input by entering a line or closing the
input. The machine never looks at the journal. -/

namespace Wordcode

structure Session where
  machine : Machine
  journal : Journal
  deriving DecidableEq

namespace Session

/-- A fresh machine for the image, noted in the journal. -/
def boot (journal : Journal) (image : List Word) (advance : Advance) : Session :=
  let m := Machine.boot image advance
  let verdict := match m.status with
    | .faulted f => [.rejected f]
    | _ => []
  ⟨m, journal.noteAll (.loaded image.length advance :: verdict)⟩

def enter : Session → String → Session
  | ⟨m, journal⟩, line =>
    let m := m.enter line
    ⟨m, journal.note (.queued m.input.size)⟩

/-- No line will follow. -/
def close : Session → Session
  | ⟨m, journal⟩ => ⟨m.close, journal.note .closed⟩

/-- Ends the session with a fault that arose outside the machine. -/
def fail : Session → Fault → Session
  | ⟨m, journal⟩, f => ⟨m.fail f, journal.note (.faulted m.cycles m.registers)⟩

def step : Session → Option Event × Session
  | ⟨m, journal⟩ =>
    match m.step with
    | ⟨m, event, remarks⟩ => (event, ⟨m, journal.noteAll remarks⟩)

/-- Steps until there is an event or the budget is used up. -/
def spend : (budget : Nat) → Session → Option Event × Session
  | 0, s => (none, s)
  | budget + 1, s =>
    match s.step with
    | (some event, s) => (some event, s)
    | (none, s) => spend budget s

/-- Executes at most `budget` instructions; no event means that the budget is used up. A
session that has ended answers with its last word again, whatever the budget. -/
def execute (budget : Nat) (s : Session) : Option Event × Session :=
  match s.machine.status with
  | .halted => (some .halted, s)
  | .faulted f => (some (.fault f), s)
  | .running => s.spend budget

/-- A budget can be spent in two parts, the second only if nothing happened in the first. -/
theorem spend_add (a b : Nat) (s : Session) :
    s.spend (a + b) =
      match s.spend a with
      | (some event, t) => (some event, t)
      | (none, t) => t.spend b := by
  induction a generalizing s with
  | zero => simp [spend]
  | succ a ih =>
    rw [Nat.succ_add]
    simp only [spend]
    split
    · rfl
    · exact ih _

end Session

end Wordcode
