import Wordcode.Proofs.Host.Requests

/-! What a host does, call by call. A session is executed for a slice, given a line, told
that no line will follow, or run to its end; `Call.perform` says what such a call comes to:
which instructions it tries, which lines it enters and what it answers. `Plays` puts calls
one after the other, from any session on. -/

namespace Wordcode

namespace Session

/-! ## Sessions and their machines -/

theorem machine_boot (journal : Journal) (image : List Word) (advance : Advance) :
    (boot journal image advance).machine = Machine.boot image advance := rfl

theorem machine_enter (s : Session) (line : String) :
    (s.enter line).machine = s.machine.enter line := rfl

theorem trail_one {s : Session} (hrun : s.machine.status = .running) :
    s.trail 1 = [s.machine] := by
  simp only [trail, hrun, tries]
  split <;> rfl

/-- What every instruction brings about is brought about by a slice, if it can be put together. -/
theorem execute_keeps {Q : Session → List Machine → Session → Prop} (hrefl : ∀ s, Q s [] s)
    (htrans : ∀ s t u past past', Q s past t → Q t past' u → Q s (past ++ past') u)
    (hstep : ∀ s, Q s [s.machine] s.step.2) (budget : Nat) (s : Session) :
    Q s (s.trail budget) (s.execute budget).2 := by
  have hspend (budget : Nat) (s : Session) : Q s (s.tries budget) (s.spend budget).2 := by
    induction budget generalizing s with
    | zero => exact hrefl s
    | succ budget ih =>
      have hone := hstep s
      simp only [spend, tries]
      cases hs : s.step with
      | mk event t =>
        rw [hs] at hone
        cases event with
        | some event => exact hone
        | none => exact htrans s t _ _ _ hone (ih t)
  unfold trail execute
  cases s.machine.status with
  | running => exact hspend budget s
  | halted | faulted f => exact hrefl s

/-- What no instruction destroys is not destroyed by a slice. -/
theorem execute_preserves {P : Session → Prop} (hstep : ∀ s, P s → P s.step.2) {s : Session}
    (h : P s) (budget : Nat) : P (s.execute budget).2 := by
  refine execute_keeps (Q := fun s _ t => P s → P t) ?_ ?_ hstep budget s h
  · intro s hs
    exact hs
  · intro s t u past past' ht hu hs
    exact hu (ht hs)

end Session

/-! ## Calls -/

inductive Call : Type 1 where
  | execute (budget : Nat)
  | enter (line : String)
  | close
  | run {σ κ : Type} [LineSource σ] [Sink κ] (source : σ) (sink : κ)

/-- What a call hands back. -/
inductive Answer : Type 1 where
  /-- No event means that the budget is used up. -/
  | event (event : Option Event)
  | done
  /-- A run leaves its source and its sink behind. -/
  | ended {σ κ : Type} (result : Except Fault Unit) (source : σ) (sink : κ)

/-- What a call comes to: the machines on which it tries an instruction, the lines it enters,
and its answer. -/
structure Report : Type 1 where
  tried : List Machine := []
  entered : List String := []
  answer : Answer

namespace Call

/-- The machines on which the call tries an instruction. Only a run takes rounds, and it need not
come to an end within so many. -/
def tried (rounds : Nat) (s : Session) : Call → List Machine
  | execute budget => s.trail budget
  | enter _ | close => []
  | run source sink => Run.trail rounds ⟨s, source, sink⟩

/-- What the call comes to and the session it leaves, if it returns within so many rounds. -/
def perform (rounds : Nat) (s : Session) : Call → Option (Report × Session)
  | execute budget =>
    some ({ tried := s.trail budget, answer := .event (s.execute budget).1 }, (s.execute budget).2)
  | enter line => some ({ entered := [line], answer := .done }, s.enter line)
  | close => some ({ answer := .done }, s.close)
  | run source sink =>
    (Run.drive rounds ⟨s, source, sink⟩).map fun (result, t) =>
      ({ tried := Run.trail rounds ⟨s, source, sink⟩
         entered := Run.entered rounds ⟨s, source, sink⟩
         answer := .ended result t.source t.sink }, t.session)

def Performs (c : Call) (s : Session) (r : Report) (t : Session) : Prop :=
  ∃ rounds, c.perform rounds s = some (r, t)

theorem Performs.moves {c : Call} {s t : Session} {r : Report} (h : c.Performs s r t) :
    Session.Moves s r.tried t := by
  obtain ⟨rounds, h⟩ := h
  cases c with
  | execute budget =>
    cases h
    exact Session.execute_moves budget s
  | enter line =>
    cases h
    exact (Session.Move.enter s line).moves
  | close =>
    cases h
    exact (Session.Move.close s).moves
  | run source sink =>
    obtain ⟨⟨result, u⟩, hd, hu⟩ := Option.map_eq_some_iff.mp h
    cases hu
    exact Session.drive_moves hd

end Call

/-- Calls one after the other, each with its report. -/
inductive Plays : Session → List Call → List Report → Session → Prop where
  | nil (s : Session) : Plays s [] [] s
  | cons {s t u : Session} {c : Call} {r : Report} {cs : List Call} {rs : List Report} :
      c.Performs s r t → Plays t cs rs u → Plays s (c :: cs) (r :: rs) u

/-- All the machines on which an instruction is tried. -/
def Report.trail (reports : List Report) : List Machine :=
  reports.flatMap (·.tried)

/-- Calls are made of moves. -/
theorem Plays.moves {s t : Session} {calls : List Call} {reports : List Report}
    (h : Plays s calls reports t) : Session.Moves s (Report.trail reports) t := by
  induction h with
  | nil s => exact .refl s
  | cons hc _ ih => exact hc.moves.trans ih

end Wordcode
