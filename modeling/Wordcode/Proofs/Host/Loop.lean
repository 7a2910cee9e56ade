/-! Loops whose rounds are given a budget. A loop is divisible if a round with a large budget
does what rounds with small budgets do one after the other. How a divisible loop is cut into
rounds then makes no difference to whether it ends and how: each loop is compared with the
one that gives every round a budget of one. -/

namespace Wordcode

universe u v w x

variable {α : Type u} {β : Type v}

/-- Plays at most `rounds` rounds, each with the next of the budgets. A round leads to the next
state or to the answer; there is no answer if the loop has not ended by then. -/
def loop (round : Nat → α → α ⊕ β) (budgets : Nat → Nat) : (rounds : Nat) → α → Option β
  | 0, _ => none
  | rounds + 1, a =>
    match round (budgets 0) a with
    | .inl a => loop round (fun i => budgets (i + 1)) rounds a
    | .inr answer => some answer

/-- From each state, either the first unit of a budget passes unnoticed and the rest of it is
used from there, or one unit settles what the round leads to. -/
def Divisible (round : Nat → α → α ⊕ β) : Prop :=
  ∀ a, (∃ a', round 1 a = .inl a' ∧ ∀ b, round (b + 2) a = round (b + 1) a') ∨
    ∀ b, round (b + 1) a = round 1 a

/-- The loop that gives every round a budget of one. -/
def unitLoop (round : Nat → α → α ⊕ β) : (rounds : Nat) → α → Option β :=
  loop round fun _ => 1

variable {round : Nat → α → α ⊕ β}

theorem loop_add {budgets : Nat → Nat} {rounds : Nat} {a : α} {answer : β}
    (h : loop round budgets rounds a = some answer) (more : Nat) :
    loop round budgets (rounds + more) a = some answer := by
  induction rounds generalizing a budgets with
  | zero => cases h
  | succ rounds ih =>
    rw [Nat.succ_add]
    simp only [loop] at h ⊢
    cases hr : round (budgets 0) a with
    | inl a' =>
      simp only [hr] at h ⊢
      exact ih h
    | inr y =>
      simp only [hr] at h ⊢
      exact h

/-- Loops whose rounds keep them in step end together. -/
theorem loop_rel {γ : Type w} {δ : Type x} {round' : Nat → γ → γ ⊕ δ} {R : α → γ → Prop}
    {S : β → δ → Prop} (hround : ∀ b a c, R a c → Sum.LiftRel R S (round b a) (round' b c))
    {budgets : Nat → Nat} {rounds : Nat} {a : α} {c : γ} (h : R a c) :
    Option.Rel S (loop round budgets rounds a) (loop round' budgets rounds c) := by
  induction rounds generalizing a c budgets with
  | zero => exact .none
  | succ rounds ih =>
    have hstep := hround (budgets 0) a c h
    simp only [loop]
    generalize round (budgets 0) a = next at hstep ⊢
    generalize round' (budgets 0) c = next' at hstep ⊢
    cases hstep with
    | inl hstate => exact ih hstate
    | inr hanswer => exact .some hanswer

theorem unitLoop_of_goesOn {a a' : α} (h : round 1 a = .inl a') (n : Nat) :
    unitLoop round (1 + n) a = unitLoop round n a' := by
  rw [Nat.add_comm]
  simp only [unitLoop, loop, h]

theorem unitLoop_of_ends {a : α} {answer : β} (h : round 1 a = .inr answer) :
    unitLoop round 1 a = some answer := by
  simp only [unitLoop, loop, h]

/-- A round that goes on stands for one or more rounds with a budget of one. -/
theorem Divisible.unitLoop_of_inl (hd : Divisible round) {b : Nat} {a a' : α}
    (h : round (b + 1) a = .inl a') :
    ∃ j, 0 < j ∧ ∀ n, unitLoop round (j + n) a = unitLoop round n a' := by
  induction b generalizing a with
  | zero => exact ⟨1, Nat.one_pos, unitLoop_of_goesOn h⟩
  | succ b ih =>
    rcases hd a with ⟨a₁, h₁, hrest⟩ | hsame
    · obtain ⟨j, -, hj⟩ := ih ((hrest b).symm.trans h)
      refine ⟨1 + j, by omega, fun n => ?_⟩
      rw [Nat.add_assoc, unitLoop_of_goesOn h₁, hj]
    · exact ⟨1, Nat.one_pos, unitLoop_of_goesOn ((hsame (b + 1)).symm.trans h)⟩

theorem Divisible.unitLoop_of_inr (hd : Divisible round) {b : Nat} {a : α} {answer : β}
    (h : round (b + 1) a = .inr answer) : ∃ j, unitLoop round j a = some answer := by
  induction b generalizing a with
  | zero => exact ⟨1, unitLoop_of_ends h⟩
  | succ b ih =>
    rcases hd a with ⟨a₁, h₁, hrest⟩ | hsame
    · obtain ⟨j, hj⟩ := ih ((hrest b).symm.trans h)
      exact ⟨1 + j, (unitLoop_of_goesOn h₁ j).trans hj⟩
    · exact ⟨1, unitLoop_of_ends ((hsame (b + 1)).symm.trans h)⟩

theorem Divisible.unitLoop_of_loop (hd : Divisible round) {budgets : Nat → Nat}
    (hpos : ∀ i, 0 < budgets i) {rounds : Nat} {a : α} {answer : β}
    (h : loop round budgets rounds a = some answer) : ∃ j, unitLoop round j a = some answer := by
  induction rounds generalizing a budgets with
  | zero => cases h
  | succ rounds ih =>
    obtain ⟨b, hb⟩ := Nat.exists_eq_add_one.mpr (hpos 0)
    simp only [loop] at h
    cases hr : round (budgets 0) a with
    | inl a' =>
      rw [hr] at h
      obtain ⟨n, hn⟩ := ih (fun i => hpos (i + 1)) h
      obtain ⟨j, -, hj⟩ := hd.unitLoop_of_inl (hb ▸ hr)
      exact ⟨j + n, (hj n).trans hn⟩
    | inr y =>
      rw [hr] at h
      cases h
      exact hd.unitLoop_of_inr (hb ▸ hr)

theorem Divisible.loop_of_unitLoop (hd : Divisible round) {budgets : Nat → Nat}
    (hpos : ∀ i, 0 < budgets i) {j : Nat} {a : α} {answer : β}
    (h : unitLoop round j a = some answer) : ∃ n, loop round budgets n a = some answer := by
  -- every round of the other loop uses up at least one of the rounds that are left here
  induction j using Nat.strongRecOn generalizing a budgets with
  | ind j ih =>
    obtain ⟨b, hb⟩ := Nat.exists_eq_add_one.mpr (hpos 0)
    cases hr : round (budgets 0) a with
    | inl a' =>
      obtain ⟨i, hi, hrest⟩ := hd.unitLoop_of_inl (hb ▸ hr)
      have hle : i ≤ j := by
        rcases Nat.lt_or_ge j i with hlt | hge
        · have hmore := loop_add h (i - j)
          rw [show j + (i - j) = i + 0 by omega] at hmore
          have hnone : unitLoop round 0 a' = some answer := (hrest 0).symm.trans hmore
          cases hnone
        · exact hge
      have hleft : unitLoop round (j - i) a' = some answer := by
        rw [← hrest, show i + (j - i) = j by omega]
        exact h
      obtain ⟨n, hn⟩ := ih (j - i) (by omega) (fun i => hpos (i + 1)) hleft
      refine ⟨n + 1, ?_⟩
      simp only [loop, hr]
      exact hn
    | inr y =>
      obtain ⟨i, hi⟩ := hd.unitLoop_of_inr (hb ▸ hr)
      have h₁ := loop_add h i
      have h₂ := loop_add hi j
      rw [Nat.add_comm] at h₂
      refine ⟨1, ?_⟩
      simp only [loop, hr]
      exact h₂.symm.trans h₁

/-- **The budgets of a divisible loop do not matter.** -/
theorem Divisible.loop_iff (hd : Divisible round) {budgets budgets' : Nat → Nat}
    (hpos : ∀ i, 0 < budgets i) (hpos' : ∀ i, 0 < budgets' i) {a : α} {answer : β} :
    (∃ n, loop round budgets n a = some answer) ↔
      ∃ n, loop round budgets' n a = some answer := by
  constructor
  · intro h
    obtain ⟨n, hn⟩ := h
    obtain ⟨j, hj⟩ := hd.unitLoop_of_loop hpos hn
    exact hd.loop_of_unitLoop hpos' hj
  · intro h
    obtain ⟨n, hn⟩ := h
    obtain ⟨j, hj⟩ := hd.unitLoop_of_loop hpos' hn
    exact hd.loop_of_unitLoop hpos hj

/-- Nor do they matter to what is made of the answer. -/
theorem Divisible.map_loop_iff {γ : Type w} (hd : Divisible round) {budgets budgets' : Nat → Nat}
    (hpos : ∀ i, 0 < budgets i) (hpos' : ∀ i, 0 < budgets' i) {a : α} (f : β → γ) {y : γ} :
    (∃ n, (loop round budgets n a).map f = some y) ↔
      ∃ n, (loop round budgets' n a).map f = some y := by
  simp only [Option.map_eq_some_iff]
  constructor
  · intro h
    obtain ⟨n, answer, hn, hf⟩ := h
    obtain ⟨n', hn'⟩ := (hd.loop_iff hpos hpos').mp ⟨n, hn⟩
    exact ⟨n', answer, hn', hf⟩
  · intro h
    obtain ⟨n, answer, hn, hf⟩ := h
    obtain ⟨n', hn'⟩ := (hd.loop_iff hpos hpos').mpr ⟨n, hn⟩
    exact ⟨n', answer, hn', hf⟩

end Wordcode
