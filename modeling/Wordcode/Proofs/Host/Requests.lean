import Wordcode.Proofs.Host.History

/-! What a run asks of its source. A round asks for a line if its slice ends that way, and then
reads once; so the source that a run leaves, finished or not, is the one it was given after as many
reads as there were requests, and the replies are those of these reads, in order. -/

namespace Wordcode

universe u v

/-- The line in a reply, if there is one. -/
def LineReply.line? : LineReply → Option String
  | .ok line => line
  | .error _ => none

/-! ## Reads one after the other -/

namespace LineSource

variable {σ : Type u} [LineSource σ]

/-- The source after so many reads. -/
def afterReads : (count : Nat) → σ → σ
  | 0, source => source
  | count + 1, source => afterReads count (readLine source).2

/-- The reply to the read behind so many others. -/
def reply (count : Nat) (source : σ) : LineReply :=
  (readLine (afterReads count source)).1

theorem reply_zero (source : σ) : reply 0 source = (readLine source).1 := rfl

theorem reply_succ (count : Nat) (source : σ) :
    reply (count + 1) source = reply count (readLine source).2 := rfl

end LineSource

namespace Run

variable {σ : Type u} {κ : Type v} [LineSource σ] [Sink κ]

/-! ## Requests -/

/-- The request for a line that one round makes, if it makes one: the input as it is then,
and the reply. -/
def asks (slice : Nat) (r : Run σ κ) : List (Input × LineReply) :=
  match r.session.execute slice with
  | (some .input, s) => [(s.machine.input, (LineSource.readLine r.source).1)]
  | _ => []

/-- The requests for lines that so many rounds make. -/
def reads : (rounds : Nat) → Run σ κ → List (Input × LineReply)
  | 0, _ => []
  | rounds + 1, r =>
    r.asks slice ++
      match r.round slice with
      | .goesOn r => r.reads rounds
      | .ends _ _ => []

/-- The lines that so many rounds enter. -/
def entered (rounds : Nat) (r : Run σ κ) : List String :=
  (r.reads rounds).filterMap (LineReply.line? ·.2)

/-- The run after so many rounds, or at its end if it ends before. -/
def after : (rounds : Nat) → Run σ κ → Run σ κ
  | 0, r => r
  | rounds + 1, r =>
    match r.round slice with
    | .goesOn r => r.after rounds
    | .ends _ r => r

/-- A run ends in one way. -/
theorem drive_unique {n n' : Nat} {r : Run σ κ} {answer answer' : Except Fault Unit × Run σ κ}
    (h : r.drive n = some answer) (h' : r.drive n' = some answer') : answer = answer' := by
  have hmore := drive_add h n'
  rw [Nat.add_comm, drive_add h' n] at hmore
  exact (Option.some.inj hmore).symm

theorem after_of_drive {rounds : Nat} {r t : Run σ κ} {result : Except Fault Unit}
    (h : r.drive rounds = some (result, t)) : r.after rounds = t := by
  induction rounds generalizing r with
  | zero => cases h
  | succ rounds ih =>
    simp only [drive] at h
    simp only [after]
    cases hround : r.round slice with
    | goesOn next =>
      rw [hround] at h
      exact ih h
    | ends result' last =>
      rw [hround] at h
      cases h
      rfl

/-! ## Requests and the source -/

/-- A round asks for nothing and leaves the source alone, or its slice ends in a request: then it
reads once, hears what this read replies, and leaves what the read left. -/
theorem asks_cases (slice : Nat) (r : Run σ κ) :
    (r.asks slice = [] ∧ (r.round slice).run.source = r.source) ∨
      ∃ s, r.session.execute slice = (some .input, s) ∧
        r.asks slice = [(s.machine.input, (LineSource.readLine r.source).1)] ∧
        (r.round slice).run.source = (LineSource.readLine r.source).2 := by
  obtain ⟨s, source, sink⟩ := r
  simp only [asks, round]
  cases hexec : s.execute slice with
  | mk event t =>
    rcases event with _ | c | _ | _ | f
    · exact .inl ⟨rfl, rfl⟩
    · cases hput : Sink.put sink c with
      | mk answer sink' => cases answer <;> exact .inl ⟨rfl, by simp only [hput]; rfl⟩
    · refine .inr ⟨t, rfl, rfl, ?_⟩
      cases LineSource.readLine source with
      | mk reply source' => rcases reply with e | _ | line <;> rfl
    · exact .inl ⟨rfl, rfl⟩
    · exact .inl ⟨rfl, rfl⟩

/-- In so many rounds a run hears the first replies of its source, one for each request and in
order, and leaves the source as these reads left it. -/
theorem reads_eq_replies (rounds : Nat) (r : Run σ κ) :
    (r.reads rounds).map (·.2) =
        (List.range (r.reads rounds).length).map (LineSource.reply · r.source) ∧
      (r.after rounds).source = LineSource.afterReads (r.reads rounds).length r.source := by
  induction rounds generalizing r with
  | zero => exact ⟨rfl, rfl⟩
  | succ rounds ih =>
    -- what the later rounds hear, told of the source that the first round has left
    have hlater : ∃ later : List (Input × LineReply),
        r.reads (rounds + 1) = r.asks slice ++ later ∧
        later.map (·.2) = (List.range later.length).map
          (LineSource.reply · (r.round slice).run.source) ∧
        (r.after (rounds + 1)).source =
          LineSource.afterReads later.length (r.round slice).run.source := by
      simp only [reads, after]
      cases r.round slice with
      | goesOn next => exact ⟨_, rfl, ih next⟩
      | ends result last => exact ⟨[], rfl, rfl, rfl⟩
    obtain ⟨later, hreads, hreplies, hsource⟩ := hlater
    rw [hreads, hsource]
    obtain ⟨hasks, hfirst⟩ | ⟨s, -, hasks, hfirst⟩ := r.asks_cases slice
    · rw [hasks, List.nil_append, hreplies, hfirst]
      exact ⟨rfl, rfl⟩
    · rw [hasks, List.singleton_append, List.map_cons, hreplies, hfirst, List.length_cons,
        List.range_succ_eq_map, List.map_cons, List.map_map]
      exact ⟨rfl, rfl⟩

/-- A finished run has read its source once for each request. -/
theorem source_of_drive {rounds : Nat} {r t : Run σ κ} {result : Except Fault Unit}
    (h : r.drive rounds = some (result, t)) :
    (r.reads rounds).map (·.2) =
        (List.range (r.reads rounds).length).map (LineSource.reply · r.source) ∧
      t.source = LineSource.afterReads (r.reads rounds).length r.source := by
  rw [← after_of_drive h]
  exact r.reads_eq_replies rounds

end Run

end Wordcode
