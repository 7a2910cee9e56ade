import Wordcode.Proofs.Host.ByteLines
import Wordcode.Proofs.Host.Intake

/-! Replaying a text. The lines of a script have lost their ends before they are entered, and
entering drops an end once more; the lines of a source of bytes still have theirs. The two ways to
queue a text differ in the lines that keep a carriage return when their end is dropped, and in no
other: of two carriage returns before a line feed a script loses both. Behind its lines a script is
the source that follows it. -/

namespace Wordcode

universe u

/-! ## Lines that end twice -/

/-- Of two carriage returns before its line feed, a piece keeps one if it is entered as it is and
none if it is stripped first. -/
theorem lineChars_of_doubled (body : List Char) :
    lineChars (String.ofList (body ++ ['\r', '\r', '\n'])) = body ++ ['\r', '\n'] ∧
      lineChars (String.ofList (stripLine (body ++ ['\r', '\r', '\n']))) = body ++ ['\n'] := by
  have hpiece : body ++ ['\r', '\r', '\n'] = body ++ ['\r'] ++ ['\r'] ++ ['\n'] := by simp
  have hstrip : stripLine (body ++ ['\r', '\r', '\n']) = body ++ ['\r'] := by
    rw [hpiece, stripLine, List.getLast?_concat, if_pos rfl, List.dropLast_concat,
      dropFinal_append]
  have hfeed : ¬ ['\n'] <:+ body ++ ['\r'] := by simp
  unfold lineChars
  rw [hstrip, String.toList_ofList, String.toList_ofList, dropFinal_of_not_suffix hfeed,
    dropFinal_append, hpiece, dropFinal_append, dropFinal_append]
  exact ⟨by simp, rfl⟩

/-- Any other piece is queued alike, stripped or not. -/
theorem lineChars_stripLine {piece : List Char} (hfeed : '\n' ∉ piece.dropLast)
    (h : ¬ ['\r', '\r', '\n'] <:+ piece) :
    lineChars (String.ofList (stripLine piece)) = lineChars (String.ofList piece) := by
  by_cases hend : piece.getLast? = some '\n'
  · obtain ⟨front, rfl⟩ := List.getLast?_eq_some_iff.mp hend
    rw [List.dropLast_concat] at hfeed
    rw [stripLine, if_pos hend, List.dropLast_concat]
    unfold lineChars
    rw [String.toList_ofList, String.toList_ofList, dropFinal_append]
    -- what is left of the piece has no further end to drop
    by_cases hreturn : ['\r'] <:+ front
    · obtain ⟨body, rfl⟩ := hreturn
      rw [dropFinal_append]
      have hbodyFeed : ¬ ['\n'] <:+ body :=
        fun hs => hfeed (List.mem_append_left _ (hs.mem (by simp)))
      have hbodyReturn : ¬ ['\r'] <:+ body := by
        rintro ⟨rest, rfl⟩
        exact h ⟨rest, by simp⟩
      rw [dropFinal_of_not_suffix hbodyFeed, dropFinal_of_not_suffix hbodyReturn]
    · have hfrontFeed : ¬ ['\n'] <:+ front := fun hs => hfeed (hs.mem (by simp))
      rw [dropFinal_of_not_suffix hreturn, dropFinal_of_not_suffix hfrontFeed,
        dropFinal_of_not_suffix hreturn]
  · rw [stripLine, if_neg hend]

/-- Where one list of parts is never the longer one, the wholes agree only if all parts do. -/
theorem flatMap_eq_flatMap_iff {α β : Type} {f g : α → List β} {xs : List α}
    (h : ∀ x ∈ xs, f x = g x ∨ (f x).length < (g x).length) :
    xs.flatMap f = xs.flatMap g ↔ ∀ x ∈ xs, f x = g x := by
  have hlength : (∀ x ∈ xs, f x = g x) ∨ (xs.flatMap f).length < (xs.flatMap g).length := by
    induction xs with
    | nil => exact .inl (List.forall_mem_nil _)
    | cons x xs ih =>
      obtain ⟨hx, hxs⟩ := List.forall_mem_cons.mp h
      rw [List.flatMap_cons, List.flatMap_cons, List.length_append, List.length_append]
      rcases hx with hx | hx
      · rw [hx]
        exact (ih hxs).imp (fun hall => List.forall_mem_cons.mpr ⟨hx, hall⟩) (by omega)
      · rcases ih hxs with hall | hshort
        · have hsame : xs.flatMap f = xs.flatMap g := List.flatMap_congr hall
          rw [hsame]
          omega
        · omega
  constructor
  · intro heq
    refine hlength.resolve_right ?_
    rw [heq]
    exact Nat.lt_irrefl _
  · exact List.flatMap_congr

/-! ## Where such a line is found -/

/-- What ends as a piece does occurs in the whole only at the end of a piece. -/
theorem infix_iff_exists_piece {α : Type} {stop : α → Bool} (front : List α) {z : α}
    (hfront : ∀ y ∈ front, stop y = false) (hz : stop z = true) (xs : List α) :
    front ++ [z] <:+: xs ↔ ∃ piece ∈ pieces stop xs, front ++ [z] <:+ piece := by
  constructor
  · intro h
    induction xs with
    | nil => simp at h
    | cons x xs ih =>
      rcases List.infix_cons_iff.mp h with ⟨back, hback⟩ | hinfix
      · refine ⟨front ++ [z], ?_, List.suffix_rfl⟩
        have hcut : cut stop (x :: xs) = (front ++ [z], back) := by
          rw [← hback, List.append_assoc, cut_append_of_forall hfront]
          simp [cut, hz]
        rw [pieces_cons, hcut]
        exact List.mem_cons_self
      · obtain ⟨piece, hpiece, hsuffix⟩ := ih hinfix
        simp only [pieces]
        split
        · exact ⟨piece, List.mem_cons_of_mem _ hpiece, hsuffix⟩
        · split
          · rename_i hnone
            rw [hnone] at hpiece
            cases hpiece
          · rename_i first rest hpieces
            rw [hpieces] at hpiece
            rcases List.mem_cons.mp hpiece with rfl | hrest
            · exact ⟨x :: piece, List.mem_cons_self, hsuffix.trans (List.suffix_cons x piece)⟩
            · exact ⟨piece, List.mem_cons_of_mem _ hrest, hsuffix⟩
  · rintro ⟨piece, hpiece, hsuffix⟩
    rw [← flatten_pieces stop xs]
    exact hsuffix.isInfix.trans (List.infix_of_mem_flatten hpiece)

/-! ## The two queues -/

theorem Input.pending_enterAll (lines : List String) (queue : Input) :
    (lines.foldl enter queue).pending = queue.pending ++ lines.flatMap lineChars := by
  induction lines generalizing queue with
  | nil => simp
  | cons line rest ih =>
    rw [List.foldl_cons, ih, List.flatMap_cons, ← List.append_assoc]
    rfl

/-- The lines of a text queue what its pieces queue, unless a piece ends twice. -/
theorem pending_textLines_iff (text : String) (queue : Input) :
    ((textLines text).foldl Input.enter queue).pending =
        (((pieces (· = '\n') text.toList).map String.ofList).foldl Input.enter queue).pending ↔
      ¬ ['\r', '\r', '\n'] <:+: text.toList := by
  have hfeeds (piece : List Char) (h : piece ∈ pieces (· = '\n') text.toList) :
      '\n' ∉ piece.dropLast := by
    obtain ⟨front, z, rfl, hfront⟩ := (divides_pieces _ _).piece piece h
    rw [List.dropLast_concat]
    intro hmem
    simpa using hfront '\n' hmem
  have hshorter (body : List Char) :
      (lineChars (String.ofList (stripLine (body ++ ['\r', '\r', '\n'])))).length <
        (lineChars (String.ofList (body ++ ['\r', '\r', '\n']))).length := by
    obtain ⟨hkept, hstripped⟩ := lineChars_of_doubled body
    rw [hkept, hstripped]
    simp
  have hinfix : ['\r', '\r', '\n'] <:+: text.toList ↔
      ∃ piece ∈ pieces (· = '\n') text.toList, ['\r', '\r', '\n'] <:+ piece :=
    infix_iff_exists_piece ['\r', '\r'] (by simp) (by simp) text.toList
  rw [Input.pending_enterAll, Input.pending_enterAll, List.append_right_inj, textLines,
    List.flatMap_map, List.flatMap_map, flatMap_eq_flatMap_iff, hinfix, not_exists]
  · refine forall_congr' fun piece => ?_
    rw [not_and]
    refine forall_congr' fun hpiece => ⟨?_, lineChars_stripLine (hfeeds piece hpiece)⟩
    rintro heq ⟨body, rfl⟩
    exact Nat.ne_of_lt (hshorter body) (congrArg List.length heq)
  · intro piece hpiece
    by_cases hdoubled : ['\r', '\r', '\n'] <:+ piece
    · obtain ⟨body, rfl⟩ := hdoubled
      exact .inr (hshorter body)
    · exact .inl (lineChars_stripLine (hfeeds piece hpiece) hdoubled)

/-! ## Scripts -/

namespace Script

variable {σ : Type u}

/-- The lines of a text, to be replayed before another source is read. -/
def ofText (text : String) (after : σ) : Script σ :=
  ⟨textLines text, after⟩

variable [LineSource σ]

theorem readLine_nil (after : σ) : LineSource.readLine (Script.mk [] after) =
    ((LineSource.readLine after).1, ⟨[], (LineSource.readLine after).2⟩) := rfl

theorem readLine_cons (line : String) (rest : List String) (after : σ) :
    LineSource.readLine (Script.mk (line :: rest) after) = (.ok (some line), ⟨rest, after⟩) := rfl

/-- Reads use up the lines first, and only then the source behind them. -/
theorem afterReads_eq (count : Nat) (lines : List String) (after : σ) :
    LineSource.afterReads count (Script.mk lines after) =
      ⟨lines.drop count, LineSource.afterReads (count - lines.length) after⟩ := by
  induction count generalizing lines after with
  | zero =>
    rw [Nat.zero_sub]
    rfl
  | succ count ih =>
    cases lines with
    | nil =>
      rw [LineSource.afterReads, readLine_nil, ih, List.drop_nil, List.drop_nil, List.length_nil,
        Nat.sub_zero, Nat.sub_zero]
      rfl
    | cons line rest =>
      rw [LineSource.afterReads, readLine_cons, ih, List.drop_succ_cons, List.length_cons,
        Nat.add_sub_add_right]

theorem reply_of_lt {count : Nat} {lines : List String} (h : count < lines.length) (after : σ) :
    LineSource.reply count (Script.mk lines after) = .ok lines[count]? := by
  rw [LineSource.reply, afterReads_eq, List.drop_eq_getElem_cons h, List.getElem?_eq_getElem h]
  rfl

theorem reply_add (lines : List String) (count : Nat) (after : σ) :
    LineSource.reply (lines.length + count) (Script.mk lines after) =
      LineSource.reply count after := by
  rw [LineSource.reply, afterReads_eq, Nat.add_sub_cancel_left,
    List.drop_eq_nil_of_le (Nat.le_add_right _ _)]
  rfl

end Script

/-- **A replayed text is queued like a text that is read, unless two carriage returns precede a
line feed.** While a script has lines, each read gives one of them, leaves one less and does not
touch the source behind; once they are used up, every read is one of that source. -/
theorem replay_agrees_iff {σ : Type u} [LineSource σ] (text : String) (after : σ) (queue : Input) :
    (∃ replayed direct : List String,
      replayed.length = (Script.ofText text after).remaining ∧
      (∀ count < (Script.ofText text after).remaining,
        LineSource.reply count (Script.ofText text after) = .ok replayed[count]?) ∧
      Supplies (ByteLines.mk (utf8 text.toList)) direct ∧
      ((replayed.foldl Input.enter queue).pending = (direct.foldl Input.enter queue).pending ↔
        ¬ ['\r', '\r', '\n'] <:+: text.toList)) ∧
    (∀ count ≤ (Script.ofText text after).remaining,
      (LineSource.afterReads count (Script.ofText text after)).remaining =
        (Script.ofText text after).remaining - count ∧
      (LineSource.afterReads count (Script.ofText text after)).after = after) ∧
    ∀ count,
      LineSource.reply ((Script.ofText text after).remaining + count) (Script.ofText text after) =
        LineSource.reply count after ∧
      (LineSource.afterReads ((Script.ofText text after).remaining + count)
        (Script.ofText text after)).after = LineSource.afterReads count after := by
  refine ⟨⟨textLines text, _, rfl, fun count h => Script.reply_of_lt h after,
    supplies_utf8 text.toList, pending_textLines_iff text queue⟩, ?_, ?_⟩
  · intro count hcount
    have hnone : count - (textLines text).length = 0 := Nat.sub_eq_zero_of_le hcount
    rw [Script.ofText, Script.afterReads_eq, hnone]
    exact ⟨List.length_drop, rfl⟩
  · intro count
    refine ⟨Script.reply_add (textLines text) count after, ?_⟩
    rw [Script.ofText, Script.afterReads_eq, Script.remaining, Nat.add_sub_cancel_left]

end Wordcode
