import Wordcode.Proofs.Host.TextBytes

/-! Bytes read as lines. `Divides` says what it means to cut a sequence behind every terminator,
without cutting it: there is one such division, and a source of bytes answers its pieces one after
the other. A piece that is no text is answered by an error and costs its neighbours nothing, since
a read ends at the same byte whether or not it could be decoded. -/

namespace Wordcode

universe u

/-! ## Divisions -/

section Division

variable {α : Type} {stop : α → Bool}

/-- The pieces are the list cut behind every item that `stop` holds of: none is empty, no item but
the last of a piece is one to stop at, and of every piece but the last one the last item is. -/
structure Divides (stop : α → Bool) (xs : List α) (ps : List (List α)) : Prop where
  whole : ps.flatten = xs
  piece : ∀ p ∈ ps, ∃ front z, p = front ++ [z] ∧ ∀ y ∈ front, stop y = false
  ended : ∀ p ∈ ps.dropLast, ∃ front z, p = front ++ [z] ∧ stop z = true

theorem Divides.nil : Divides stop [] [] where
  whole := rfl
  piece _ h := nomatch h
  ended _ h := nomatch h

/-- One more piece in front, which has to be ended unless it is the last. -/
theorem Divides.cons {xs front : List α} {z : α} {ps : List (List α)} (h : Divides stop xs ps)
    (hfront : ∀ y ∈ front, stop y = false) (hz : stop z = true ∨ ps = []) :
    Divides stop (front ++ [z] ++ xs) ((front ++ [z]) :: ps) where
  whole := by rw [List.flatten_cons, h.whole]
  piece := List.forall_mem_cons.mpr ⟨⟨front, z, rfl, hfront⟩, h.piece⟩
  ended := by
    cases ps with
    | nil => exact fun _ hp => nomatch hp
    | cons p ps =>
      have hend : stop z = true := hz.resolve_right (List.cons_ne_nil p ps)
      rw [List.dropLast_cons_of_ne_nil (List.cons_ne_nil p ps)]
      exact List.forall_mem_cons.mpr ⟨⟨front, z, rfl, hend⟩, h.ended⟩

/-- The first piece is what `cut` takes off, and the others divide the rest. -/
theorem Divides.cut_eq {xs p : List α} {ps : List (List α)} (h : Divides stop xs (p :: ps)) :
    cut stop xs = (p, ps.flatten) ∧ Divides stop ps.flatten ps := by
  obtain ⟨⟨front, z, rfl, hfront⟩, hpieces⟩ := List.forall_mem_cons.mp h.piece
  rw [← h.whole, List.flatten_cons, List.append_assoc, cut_append_of_forall hfront]
  cases ps with
  | nil =>
    refine ⟨?_, .nil⟩
    by_cases hz : stop z = true <;> simp [cut, hz]
  | cons q ps =>
    have hended := h.ended
    rw [List.dropLast_cons_of_ne_nil (List.cons_ne_nil q ps)] at hended
    obtain ⟨⟨front', z', heq, hz'⟩, hothers⟩ := List.forall_mem_cons.mp hended
    obtain ⟨-, hlast⟩ := List.append_inj' heq rfl
    cases hlast
    exact ⟨by simp [cut, hz'], rfl, hpieces, hothers⟩

/-- `cut` takes a piece off, and it is ended or it is all there is. -/
theorem cut_cons_spec (stop : α → Bool) (x : α) (xs : List α) :
    ∃ front z, (cut stop (x :: xs)).1 = front ++ [z] ∧ (∀ y ∈ front, stop y = false) ∧
      (stop z = true ∨ (cut stop (x :: xs)).2 = []) := by
  induction xs generalizing x with
  | nil =>
    refine ⟨[], x, ?_, List.forall_mem_nil _, .inr ?_⟩ <;>
      by_cases hx : stop x = true <;> simp [cut, hx]
  | cons y ys ih =>
    by_cases hx : stop x = true
    · exact ⟨[], x, by simp [cut, hx], List.forall_mem_nil _, .inl hx⟩
    · obtain ⟨front, z, hcut, hfront, hz⟩ := ih y
      have hstep : cut stop (x :: y :: ys) =
          (x :: (cut stop (y :: ys)).1, (cut stop (y :: ys)).2) := by
        rw [cut, if_neg hx]
      rw [hstep, hcut]
      exact ⟨x :: front, z, rfl, List.forall_mem_cons.mpr ⟨by simpa using hx, hfront⟩, hz⟩

/-- Induction along the pieces: what holds of the rest behind the first piece holds of the whole. -/
theorem cut_induction {motive : List α → Prop} (stop : α → Bool) (nil : motive [])
    (cons : ∀ x xs, motive (cut stop (x :: xs)).2 → motive (x :: xs)) (xs : List α) :
    motive xs := by
  induction hlength : xs.length using Nat.strongRecOn generalizing xs with
  | ind length ih =>
    cases xs with
    | nil => exact nil
    | cons x xs =>
      refine cons x xs (ih _ ?_ _ rfl)
      have hwhole := congrArg List.length (cut_append stop (x :: xs))
      obtain ⟨front, z, hcut, -⟩ := cut_cons_spec stop x xs
      rw [hcut, List.length_append, List.length_append, List.length_singleton] at hwhole
      omega

theorem divides_pieces (stop : α → Bool) (xs : List α) : Divides stop xs (pieces stop xs) := by
  induction xs using cut_induction stop with
  | nil => exact .nil
  | cons x xs ih =>
    obtain ⟨front, z, hcut, hfront, hz⟩ := cut_cons_spec stop x xs
    have hwhole := cut_append stop (x :: xs)
    rw [pieces_cons, hcut]
    rw [hcut] at hwhole
    have hdivides := ih.cons hfront (hz.imp_right fun hnone => by rw [hnone]; rfl)
    rwa [hwhole] at hdivides

/-- There is one division, the one that `pieces` makes. -/
theorem divides_iff {xs : List α} {ps : List (List α)} :
    Divides stop xs ps ↔ ps = pieces stop xs := by
  constructor
  · intro h
    induction ps generalizing xs with
    | nil =>
      rw [← h.whole]
      rfl
    | cons p ps ih =>
      obtain ⟨hcut, hrest⟩ := h.cut_eq
      cases xs with
      | nil =>
        obtain ⟨front, z, rfl, -⟩ := h.piece p List.mem_cons_self
        have hnil := h.whole
        simp at hnil
      | cons x xs => rw [pieces_cons, hcut, ← ih hrest]
  · rintro rfl
    exact divides_pieces stop xs

end Division

/-! ## Text or no text -/

theorem decodeUtf8_eq_ok_iff {bytes : List UInt8} {text : String} :
    decodeUtf8 bytes = .ok text ↔ bytes = utf8 text.toList := by
  constructor
  · intro h
    unfold decodeUtf8 String.fromUTF8? at h
    split at h
    · rename_i text' hsome
      cases h
      split at hsome
      · cases hsome
        rename_i hvalid
        have hencode : (String.fromUTF8 bytes.toByteArray hvalid).toList.utf8Encode =
            bytes.toByteArray := String.utf8Encode_toList
        exact List.toByteArray_inj.mp hencode.symm
      · cases hsome
    · cases h
  · rintro rfl
    exact decodeUtf8_utf8 text

/-- The reply that a piece calls for: its text, or an error if it is the encoding of no text. Where
no piece is left there is no line. -/
def Answers : Option (List UInt8) → LineReply → Prop
  | none, reply => reply = .ok none
  | some piece, reply =>
    (∃ text : String, piece = utf8 text.toList ∧ reply = .ok (some text)) ∨
      (∀ text : String, piece ≠ utf8 text.toList) ∧ reply = .error .invalidUtf8

theorem answers_mapM_decodeUtf8 (piece? : Option (List UInt8)) :
    Answers piece? (piece?.mapM decodeUtf8) := by
  cases piece? with
  | none => rfl
  | some piece =>
    rw [Option.mapM_some]
    cases hdecode : decodeUtf8 piece with
    | ok text => exact .inl ⟨text, decodeUtf8_eq_ok_iff.mp hdecode, rfl⟩
    | error e =>
      have hinvalid : e = .invalidUtf8 := by
        unfold decodeUtf8 at hdecode
        split at hdecode <;> cases hdecode
        rfl
      subst hinvalid
      refine .inr ⟨?_, rfl⟩
      intro text heq
      cases hdecode.symm.trans (decodeUtf8_eq_ok_iff.mpr heq)

/-- A piece that was answered by a line is the encoding of that line. -/
theorem Answers.of_line {piece? : Option (List UInt8)} {line : String}
    (h : Answers piece? (.ok (some line))) : piece? = some (utf8 line.toList) := by
  cases piece? with
  | none => cases h
  | some piece =>
    rcases h with ⟨text, rfl, htext⟩ | ⟨-, herror⟩
    · cases htext
      rfl
    · cases herror

/-! ## The pieces of the bytes -/

/-- Each read takes one piece, whatever it holds; there is no line behind the last one. -/
theorem ByteLines.reply_eq (bytes : List UInt8) (count : Nat) :
    LineSource.reply count (ByteLines.mk bytes) =
      (pieces (· = 10) bytes)[count]?.mapM decodeUtf8 := by
  induction bytes using cut_induction (fun b : UInt8 => b = 10) generalizing count with
  | nil =>
    induction count with
    | zero => rfl
    | succ count ih => exact ih
  | cons b bs ih =>
    have hread := ByteLines.readLine_of_ne_nil (List.cons_ne_nil b bs)
    rw [pieces_cons]
    cases count with
    | zero =>
      rw [LineSource.reply_zero, hread]
      rfl
    | succ count =>
      rw [LineSource.reply_succ, hread, ih count, List.getElem?_cons_succ]

/-- A piece that is a line has a last character, and only that can be a line feed. -/
theorem line_of_mem_pieces {bytes : List UInt8} {line : String}
    (h : utf8 line.toList ∈ pieces (· = 10) bytes) :
    line ≠ "" ∧ '\n' ∉ line.toList.dropLast := by
  obtain ⟨front, z, hpiece, hfront⟩ := (divides_pieces (· = 10) bytes).piece _ h
  generalize hcs : line.toList = cs at hpiece
  obtain rfl | ⟨ds, c, rfl⟩ := List.eq_nil_or_concat' cs
  · simp at hpiece
  · refine ⟨by rintro rfl; simp at hcs, ?_⟩
    rw [List.dropLast_concat]
    intro hmem
    -- the bytes of the last character keep those of the others away from the end
    have hfronts : utf8 ds ++ (utf8 [c]).dropLast = front := by
      have hdrop := congrArg List.dropLast hpiece
      rwa [utf8_append, List.dropLast_append_of_ne_nil (utf8_ne_nil c []),
        List.dropLast_concat] at hdrop
    have hfeed : (10 : UInt8) ∈ utf8 ds := List.mem_flatMap.mpr ⟨'\n', hmem, by decide⟩
    have hno := hfront 10 (hfronts ▸ List.mem_append_left _ hfeed)
    simp at hno

theorem pieces_utf8 (cs : List Char) :
    pieces (· = 10) (utf8 cs) = (pieces (· = '\n') cs).map utf8 := by
  induction cs using cut_induction (· = '\n') with
  | nil => rfl
  | cons c cs ih =>
    obtain ⟨b, bs, hbytes⟩ := List.exists_cons_of_ne_nil (utf8_ne_nil c cs)
    rw [hbytes, pieces_cons, ← hbytes, cut_utf8, ih, pieces_cons, List.map_cons]

/-- The bytes of a text are read as its pieces. -/
theorem ByteLines.reply_utf8 (cs : List Char) (count : Nat) :
    LineSource.reply count (ByteLines.mk (utf8 cs)) =
      .ok ((pieces (· = '\n') cs).map String.ofList)[count]? := by
  rw [ByteLines.reply_eq, pieces_utf8, List.getElem?_map, List.getElem?_map]
  cases (pieces (· = '\n') cs)[count]? with
  | none => rfl
  | some piece =>
    have htext := decodeUtf8_utf8 (String.ofList piece)
    rw [String.toList_ofList] at htext
    rw [Option.map_some, Option.mapM_some, htext]
    rfl

/-- **Reading lines divides the bytes.** There is one way to cut bytes behind every line feed, and
the reads answer the pieces in their order: a piece that encodes a text by that text, one that does
not by an error, and after the last there is no line. A line is never empty and holds no line feed
but at its end. If the bytes encode a text, then every read gives a line until there is none, and
the lines put together are the text. -/
theorem reads_divide_bytes (bytes : List UInt8) :
    (∃ ps : List (List UInt8),
      (∀ ps', Divides (· = 10) bytes ps' ↔ ps' = ps) ∧
      ∀ count, Answers ps[count]? (LineSource.reply count (ByteLines.mk bytes))) ∧
    (∀ count line, LineSource.reply count (ByteLines.mk bytes) = .ok (some line) →
      line ≠ "" ∧ '\n' ∉ line.toList.dropLast) ∧
    ∀ text : String, bytes = utf8 text.toList →
      ∃ lines : List String,
        (∀ count, LineSource.reply count (ByteLines.mk bytes) = .ok lines[count]?) ∧
        String.join lines = text := by
  have hanswers (count : Nat) : Answers (pieces (· = 10) bytes)[count]?
      (LineSource.reply count (ByteLines.mk bytes)) := by
    rw [ByteLines.reply_eq]
    exact answers_mapM_decodeUtf8 _
  refine ⟨⟨pieces (· = 10) bytes, fun _ => divides_iff, hanswers⟩, ?_, ?_⟩
  · intro count line hline
    have hpiece := (hline ▸ hanswers count).of_line
    exact line_of_mem_pieces (List.mem_of_getElem? hpiece)
  · rintro text rfl
    refine ⟨_, ByteLines.reply_utf8 text.toList, ?_⟩
    rw [← String.toList_inj, String.toList_join, List.flatMap_map]
    simp only [String.toList_ofList]
    rw [List.flatMap_id', flatten_pieces]

end Wordcode
