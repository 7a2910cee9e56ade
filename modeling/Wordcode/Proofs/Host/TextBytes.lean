import Wordcode.Proofs.Host.Delivery
import Wordcode.Proofs.Host.Supply

/-! Text as bytes. The byte that ends a line is part of no other character, so cutting bytes at it
and cutting the text at its line feeds come to the same, and no character is ever cut through: read
as lines, the bytes of a text supply the pieces of the text. -/

namespace Wordcode

/-! ## The bytes of a character -/

/-- A byte below 128 is a whole character. -/
theorem toNat_of_mem_utf8EncodeChar {c : Char} {b : UInt8} (h : b ∈ String.utf8EncodeChar c)
    (hb : b.toNat < 128) : b.toNat = c.toNat := by
  change b.toNat = c.val.toNat
  unfold String.utf8EncodeChar at h
  generalize c.val.toNat = v at h ⊢
  dsimp only at h
  -- in the longer encodings every byte has its highest bit set
  repeat' split at h
  all_goals simp only [List.mem_cons, List.not_mem_nil, or_false] at h
  · rw [h, UInt8.toNat_ofNat']
    omega
  · rcases h with rfl | rfl <;> rw [UInt8.toNat_ofNat'] at hb <;> omega
  · rcases h with rfl | rfl | rfl <;> rw [UInt8.toNat_ofNat'] at hb <;> omega
  · rcases h with rfl | rfl | rfl | rfl <;> rw [UInt8.toNat_ofNat'] at hb <;> omega

theorem eq_of_lineFeed_mem {c : Char} (h : 10 ∈ String.utf8EncodeChar c) : c = '\n' :=
  Char.ext (UInt32.toNat_inj.mp (toNat_of_mem_utf8EncodeChar h (by decide)).symm)

theorem decodeUtf8_utf8 (text : String) : decodeUtf8 (utf8 text.toList) = .ok text := by
  have hbytes : (utf8 text.toList).toByteArray = text.toByteArray := String.utf8Encode_toList
  simp only [decodeUtf8, hbytes, String.fromUTF8?, dif_pos text.isValidUTF8]
  rfl

/-! ## Pieces -/

section Pieces

variable {α : Type} {stop : α → Bool}

/-- What holds no end is taken whole. -/
theorem cut_append_of_forall {xs : List α} (h : ∀ x ∈ xs, stop x = false) (ys : List α) :
    cut stop (xs ++ ys) = (xs ++ (cut stop ys).1, (cut stop ys).2) := by
  induction xs with
  | nil => rfl
  | cons x xs ih =>
    obtain ⟨hx, hxs⟩ := List.forall_mem_cons.mp h
    simp [cut, hx, ih hxs]

/-- If the whole ends as its pieces do, then so does the last piece. -/
theorem exists_end_of_mem_pieces {xs piece : List α}
    (hlast : ∀ x, xs.getLast? = some x → stop x = true) (h : piece ∈ pieces stop xs) :
    ∃ front x, piece = front ++ [x] ∧ stop x = true := by
  induction xs generalizing piece with
  | nil => cases h
  | cons x xs ih =>
    have hrest : ∀ y, xs.getLast? = some y → stop y = true := by
      intro y hy
      apply hlast
      rw [List.getLast?_cons, hy]
      rfl
    simp only [pieces] at h
    split at h
    · rename_i hx
      rcases List.mem_cons.mp h with rfl | h
      · exact ⟨[], x, rfl, hx⟩
      · exact ih hrest h
    · rename_i hx
      split at h
      · rename_i hnone
        have hempty : xs = [] := by rw [← flatten_pieces stop xs, hnone, List.flatten_nil]
        subst hempty
        exact absurd (hlast x rfl) hx
      · rename_i first rest hpieces
        rw [hpieces] at ih
        rcases List.mem_cons.mp h with rfl | h
        · obtain ⟨front, y, rfl, hy⟩ := ih hrest List.mem_cons_self
          exact ⟨x :: front, y, rfl, hy⟩
        · exact ih hrest (List.mem_cons_of_mem _ h)

end Pieces

/-! ## Lines of bytes -/

/-- Bytes and characters are cut in the same places. -/
theorem cut_utf8 (cs : List Char) :
    cut (· = 10) (utf8 cs) = (utf8 (cut (· = '\n') cs).1, utf8 (cut (· = '\n') cs).2) := by
  induction cs with
  | nil => rfl
  | cons c cs ih =>
    by_cases hc : c = '\n'
    · subst hc
      rfl
    · have hbytes : ∀ b ∈ String.utf8EncodeChar c, decide (b = 10) = false := by
        intro b hb
        apply decide_eq_false
        rintro rfl
        exact hc (eq_of_lineFeed_mem hb)
      rw [utf8_cons, cut_append_of_forall hbytes, ih]
      simp [cut, hc]

/-- A read takes the first piece, whatever it holds. -/
theorem ByteLines.readLine_of_ne_nil {bytes : List UInt8} (h : bytes ≠ []) :
    LineSource.readLine (ByteLines.mk bytes) =
      ((decodeUtf8 (cut (· = 10) bytes).1).map some, ⟨(cut (· = 10) bytes).2⟩) := by
  cases bytes with
  | nil => exact absurd rfl h
  | cons b bs => rfl

theorem utf8_ne_nil (c : Char) (cs : List Char) : utf8 (c :: cs) ≠ [] := by
  rw [utf8_cons]
  exact List.append_ne_nil_of_left_ne_nil String.utf8EncodeChar_ne_nil _

theorem readLine_utf8 (c : Char) (cs : List Char) :
    LineSource.readLine (ByteLines.mk (utf8 (c :: cs))) =
      (.ok (some (String.ofList (cut (· = '\n') (c :: cs)).1)),
        ⟨utf8 (cut (· = '\n') (c :: cs)).2⟩) := by
  rw [ByteLines.readLine_of_ne_nil (utf8_ne_nil c cs), cut_utf8]
  generalize cut (· = '\n') (c :: cs) = halves
  have htext := decodeUtf8_utf8 (String.ofList halves.1)
  rw [String.toList_ofList] at htext
  rw [htext]
  rfl

/-- The bytes of a text, read as lines, supply its pieces. -/
theorem supplies_utf8 (cs : List Char) :
    Supplies (ByteLines.mk (utf8 cs)) ((pieces (· = '\n') cs).map String.ofList) := by
  generalize hps : pieces (· = '\n') cs = ps
  induction ps generalizing cs with
  | nil =>
    have hempty : cs = [] := by rw [← flatten_pieces (· = '\n') cs, hps, List.flatten_nil]
    subst hempty
    rfl
  | cons piece rest ih =>
    cases cs with
    | nil => cases hps
    | cons c cs =>
      rw [pieces_cons] at hps
      obtain ⟨rfl, hrest⟩ := List.cons.inj hps
      refine ⟨congrArg Prod.fst (readLine_utf8 c cs), ?_⟩
      rw [readLine_utf8]
      exact ih _ hrest

end Wordcode
