import Wordcode.Proofs.Host.History
import Wordcode.Proofs.Host.Loop

/-! Execution in slices. A budget can be divided at any instruction, so a host that executes
in slices says and hears the same whatever its slices are, and leaves the same session with
the same journal. -/

namespace Wordcode

namespace Session

theorem status_spend {budget : Nat} {s t : Session} (h : s.spend budget = (none, t)) :
    t.machine.status = s.machine.status := by
  induction budget generalizing s with
  | zero =>
    cases h
    rfl
  | succ budget ih =>
    simp only [spend] at h
    split at h
    · cases h
    · rename_i u hstep
      exact (ih h).trans (status_step hstep)

/-- Executing `m + n` instructions is executing `m` and then, only if nothing happened, `n`. -/
theorem execute_add (m n : Nat) (s : Session) :
    s.execute (m + n) =
      match s.execute m with
      | (some event, t) => (some event, t)
      | (none, t) => t.execute n := by
  cases hstatus : s.machine.status with
  | halted | faulted f => simp only [execute, hstatus]
  | running =>
    rw [execute_of_running hstatus, execute_of_running hstatus, spend_add]
    cases hspend : s.spend m with
    | mk event t =>
      cases event with
      | some event => rfl
      | none => exact (execute_of_running ((status_spend hspend).trans hstatus) n).symm

/-- Either one instruction passes without an event, or the first one settles what any
budget leads to. -/
theorem execute_divisible (s : Session) :
    (∃ t, s.execute 1 = (none, t) ∧ ∀ b, s.execute (b + 2) = t.execute (b + 1)) ∨
      ∀ b, s.execute (b + 1) = s.execute 1 := by
  have hadd : ∀ b, s.execute (b + 1) = _ := fun b => Nat.add_comm 1 b ▸ execute_add 1 b s
  cases h : s.execute 1 with
  | mk event t =>
    cases event with
    | none =>
      refine .inl ⟨t, rfl, fun b => ?_⟩
      rw [hadd, h]
    | some event =>
      refine .inr fun b => ?_
      rw [hadd, h]

end Session

/-! ## The host's loop -/

/-- What a host says to the outside or hears from it. -/
inductive Exchange where
  | printed (c : Char)
  | heard (reply : LineReply)

universe u v

namespace Run

variable {σ : Type u} {κ : Type v} [LineSource σ] [Sink κ]

/-- What is said and heard in one round. -/
def exchanges (slice : Nat) (r : Run σ κ) : List Exchange :=
  match r.session.execute slice with
  | (some (.print c), _) => [.printed c]
  | (some .input, _) => [.heard (LineSource.readLine r.source).1]
  | _ => []

/-- A round, adding what it says and hears to what was said and heard before. -/
def converse (slice : Nat) :
    Run σ κ × List Exchange →
      (Run σ κ × List Exchange) ⊕ (Except Fault Unit × Run σ κ × List Exchange)
  | (r, said) =>
    match r.round slice with
    | .goesOn t => .inl (t, said ++ r.exchanges slice)
    | .ends result t => .inr (result, t, said ++ r.exchanges slice)

theorem converse_divisible : Divisible (@converse σ κ _ _) := by
  intro a
  obtain ⟨⟨s, source, sink⟩, said⟩ := a
  rcases s.execute_divisible with ⟨t, hone, hrest⟩ | hsame
  · refine .inl ⟨(⟨t, source, sink⟩, said), ?_, fun b => ?_⟩
    · simp [converse, round, exchanges, hone]
    · simp only [converse, round, exchanges, hrest]
  · refine .inr fun b => ?_
    simp only [converse, round, exchanges, hsame]

/-- Driving a run is the loop with the standard slice, whatever is said and heard. -/
theorem drive_eq_loop (rounds : Nat) (r : Run σ κ) (said : List Exchange) :
    r.drive rounds =
      (loop converse (fun _ => slice) rounds (r, said)).map fun answer =>
        (answer.1, answer.2.1) := by
  induction rounds generalizing r said with
  | zero => rfl
  | succ rounds ih =>
    simp only [drive, loop, converse]
    cases r.round slice with
    | goesOn t => exact ih t _
    | ends result t => rfl

/-- **A run driven to its end comes out as it does one instruction at a time.** -/
theorem exists_drive_iff {r t : Run σ κ} {result : Except Fault Unit} :
    (∃ rounds, r.drive rounds = some (result, t)) ↔
      ∃ rounds said, unitLoop converse rounds (r, []) = some (result, t, said) := by
  have hforget (rounds : Nat) :
      (∃ said, unitLoop converse rounds (r, []) = some (result, t, said)) ↔
        (unitLoop converse rounds (r, [])).map (fun answer => (answer.1, answer.2.1)) =
          some (result, t) := by
    simp [Option.map_eq_some_iff]
  simp only [hforget, drive_eq_loop _ r []]
  exact converse_divisible.map_loop_iff (fun _ => by decide) (fun _ => by decide) _

/-! ## One instruction at a time -/

/-- The run ends with this result and leaves `t`, played in rounds of one instruction. -/
inductive Ends : Run σ κ → Except Fault Unit → Run σ κ → Prop where
  | now {r t : Run σ κ} {result : Except Fault Unit} :
      r.round 1 = .ends result t → Ends r result t
  | later {r r' t : Run σ κ} {result : Except Fault Unit} :
      r.round 1 = .goesOn r' → Ends r' result t → Ends r result t

theorem Ends.exists_unitLoop {r t : Run σ κ} {result : Except Fault Unit} (h : r.Ends result t)
    (said : List Exchange) :
    ∃ rounds said', unitLoop converse rounds (r, said) = some (result, t, said') := by
  induction h generalizing said with
  | @now r t result hround =>
    have hconverse : converse 1 (r, said) = .inr (result, t, said ++ r.exchanges 1) := by
      simp only [converse, hround]
    exact ⟨1, _, unitLoop_of_ends hconverse⟩
  | @later r r' t result hround _ ih =>
    have hconverse : converse 1 (r, said) = .inl (r', said ++ r.exchanges 1) := by
      simp only [converse, hround]
    obtain ⟨rounds, said', hloop⟩ := ih (said ++ r.exchanges 1)
    exact ⟨1 + rounds, said', (unitLoop_of_goesOn hconverse rounds).trans hloop⟩

theorem Ends.of_unitLoop {rounds : Nat} {r t : Run σ κ} {result : Except Fault Unit}
    {said said' : List Exchange}
    (h : unitLoop converse rounds (r, said) = some (result, t, said')) : r.Ends result t := by
  induction rounds generalizing r said with
  | zero => cases h
  | succ rounds ih =>
    simp only [unitLoop, loop, converse] at h
    cases hround : r.round 1 with
    | goesOn r' =>
      rw [hround] at h
      exact .later hround (ih h)
    | ends result' t' =>
      rw [hround] at h
      cases h
      exact .now hround

theorem exists_drive_iff_ends {r t : Run σ κ} {result : Except Fault Unit} :
    (∃ rounds, r.drive rounds = some (result, t)) ↔ r.Ends result t := by
  rw [exists_drive_iff]
  constructor
  · intro h
    obtain ⟨rounds, said, hloop⟩ := h
    exact .of_unitLoop hloop
  · intro h
    exact h.exists_unitLoop []

end Run

end Wordcode
