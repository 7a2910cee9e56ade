import Wordcode.Host.Session
import Wordcode.Host.Sink

/-! Running a session to its end, with lines from a source and characters to a sink. A
failure of either ends the session with a fault. -/

namespace Wordcode

universe u v

structure Run (σ : Type u) (κ : Type v) where
  session : Session
  source : σ
  sink : κ

/-- What one slice of execution and the answer to its event lead to. -/
inductive Round (σ : Type u) (κ : Type v) where
  | goesOn (r : Run σ κ)
  | ends (result : Except Fault Unit) (r : Run σ κ)

namespace Run

variable {σ : Type u} {κ : Type v} [LineSource σ] [Sink κ]

/-- Ends the run because of its source or its sink. -/
def breaks (s : Session) (source : σ) (sink : κ) (e : StreamError) : Round σ κ :=
  let f := (Fault.ofStream e).located s.machine.pc
  .ends (.error f) ⟨s.fail f, source, sink⟩

/-- Executes one slice and answers its event. -/
def round (slice : Nat) : Run σ κ → Round σ κ
  | ⟨session, source, sink⟩ =>
    match session.execute slice with
    | (none, s) => .goesOn ⟨s, source, sink⟩
    | (some (.print c), s) =>
      match Sink.put sink c with
      | (.ok (), sink) => .goesOn ⟨s, source, sink⟩
      | (.error e, sink) => breaks s source sink e
    | (some .input, s) =>
      match LineSource.readLine source with
      | (.ok (some line), source) => .goesOn ⟨s.enter line, source, sink⟩
      | (.ok none, source) => .goesOn ⟨s.close, source, sink⟩
      | (.error e, source) => breaks s source sink e
    | (some .halted, s) => .ends (.ok ()) ⟨s, source, sink⟩
    | (some (.fault f), s) => .ends (.error f) ⟨s, source, sink⟩

/-- The number of instructions in a slice. -/
def slice : Nat := 5000

/-- Plays at most `rounds` rounds; `none` if the run has not ended by then. -/
def drive : (rounds : Nat) → Run σ κ → Option (Except Fault Unit × Run σ κ)
  | 0, _ => none
  | rounds + 1, r =>
    match r.round slice with
    | .goesOn r => drive rounds r
    | .ends result r => some (result, r)

/-- More rounds do not change a finished run. -/
theorem drive_add {rounds : Nat} {r : Run σ κ} {answer : Except Fault Unit × Run σ κ}
    (h : drive rounds r = some answer) (more : Nat) : drive (rounds + more) r = some answer := by
  induction rounds generalizing r with
  | zero => cases h
  | succ rounds ih =>
    rw [Nat.succ_add]
    simp only [drive] at h ⊢
    split at h <;> rename_i hr
    · simp only [ih h]
    · exact h

end Run

end Wordcode
