import Wordcode.Fault

/-! The text of a fault can be read in one way only. No kind's name begins another's, so the name
ends where it ends whatever follows; the place begins with a blank and its number goes on as long as
there are digits; the detail begins with a semicolon, and an empty one leaves nothing behind. So
it does no harm that a detail may itself look like a place or like another detail. -/

namespace Wordcode.Fault

/-! ## The parts of the text -/

/-- What the text says of the place. -/
def placeChars : Option Nat → List Char
  | none => []
  | some pc => ' ' :: 'A' :: 'T' :: ' ' :: Nat.toDigits 10 pc

/-- What the text says of the detail. -/
def reasonChars : List Char → List Char
  | [] => []
  | c :: detail => ';' :: ' ' :: c :: detail

theorem toList_text (f : Fault) :
    f.text.toList = f.kind.text.toList ++ (placeChars f.pc ++ reasonChars f.detail.toList) := by
  obtain ⟨kind, pc, detail⟩ := f
  simp only [text, String.toList_append, List.append_assoc]
  congr 2
  · cases pc with
    | none => rfl
    | some pc =>
      have hdigits : (toString pc).toList = Nat.toDigits 10 pc := Nat.toList_repr
      rw [placeChars, ← hdigits]
      exact String.toList_append
  · cases hdetail : detail.toList with
    | nil =>
      rw [String.toList_eq_nil_iff.mp hdetail]
      rfl
    | cons c rest =>
      have hne : ¬detail.isEmpty = true := by
        intro hempty
        rw [String.isEmpty_iff.mp hempty] at hdetail
        cases hdetail
      rw [if_neg hne, String.toList_append, hdetail]
      rfl

/-! ## The name of the kind -/

/-- No kind's name begins the name of another. -/
theorem Kind.eq_of_text_begins {k k' : Kind} (h : k.text.toList <+: k'.text.toList) : k = k' := by
  revert h
  cases k <;> cases k' <;> decide

/-- What follows the name of the kind cannot be taken for a part of it. -/
theorem Kind.text_append_inj {k k' : Kind} {rest rest' : List Char}
    (h : k.text.toList ++ rest = k'.text.toList ++ rest') : k = k' ∧ rest = rest' := by
  have hk : k.text.toList <+: k.text.toList ++ rest := List.prefix_append _ _
  have hk' : k'.text.toList <+: k.text.toList ++ rest := h ▸ List.prefix_append _ _
  have hkind : k = k' := by
    rcases List.prefix_or_prefix_of_prefix hk hk' with hfirst | hsecond
    · exact eq_of_text_begins hfirst
    · exact (eq_of_text_begins hsecond).symm
  subst hkind
  exact ⟨rfl, List.append_cancel_left h⟩

/-! ## The number of the place -/

/-- A number ends where the digits end. -/
theorem takeWhile_toDigits_append (n : Nat) {rest : List Char}
    (hrest : ∀ c ∈ rest.head?, c.isDigit = false) :
    (Nat.toDigits 10 n ++ rest).takeWhile Char.isDigit = Nat.toDigits 10 n := by
  have hnone : rest.takeWhile Char.isDigit = [] := by
    cases rest with
    | nil => rfl
    | cons c rest => exact List.takeWhile_cons_of_neg (by simp [hrest c rfl])
  have hdigits : ∀ c ∈ Nat.toDigits 10 n, c.isDigit = true := by
    intro c hc
    exact Nat.isDigit_of_mem_toDigits (by decide) (by decide) hc
  rw [List.takeWhile_append_of_pos hdigits, hnone, List.append_nil]

theorem toDigits_append_inj {n n' : Nat} {rest rest' : List Char}
    (hrest : ∀ c ∈ rest.head?, c.isDigit = false)
    (hrest' : ∀ c ∈ rest'.head?, c.isDigit = false)
    (h : Nat.toDigits 10 n ++ rest = Nat.toDigits 10 n' ++ rest') : n = n' ∧ rest = rest' := by
  have hdigits : Nat.toDigits 10 n = Nat.toDigits 10 n' := by
    have htaken := congrArg (List.takeWhile Char.isDigit) h
    rwa [takeWhile_toDigits_append n hrest, takeWhile_toDigits_append n' hrest'] at htaken
  rw [hdigits] at h
  refine ⟨?_, List.append_cancel_left h⟩
  rw [← Nat.ofDigitChars_ten_toDigits (n := n), hdigits, Nat.ofDigitChars_ten_toDigits]

/-! ## What follows the kind -/

theorem head_reasonChars (detail : List Char) :
    ∀ c ∈ (reasonChars detail).head?, c = ';' := by
  cases detail with
  | nil => simp [reasonChars]
  | cons c detail => simp [reasonChars]

theorem reasonChars_inj {detail detail' : List Char}
    (h : reasonChars detail = reasonChars detail') : detail = detail' := by
  cases detail <;> cases detail' <;> simp_all [reasonChars]

/-- A place begins with a blank, so no detail is taken for one, and behind its number stands no
digit. -/
theorem place_append_inj {pc pc' : Option Nat} {detail detail' : List Char}
    (h : placeChars pc ++ reasonChars detail = placeChars pc' ++ reasonChars detail') :
    pc = pc' ∧ detail = detail' := by
  have hstop (detail : List Char) : ∀ c ∈ (reasonChars detail).head?, c.isDigit = false := by
    intro c hc
    rw [head_reasonChars detail c hc]
    rfl
  have hblank (n : Nat) (detail rest : List Char) :
      reasonChars detail ≠ placeChars (some n) ++ rest := by
    intro heq
    have hhead := head_reasonChars detail ' ' (by rw [heq]; rfl)
    cases hhead
  cases pc with
  | none =>
    cases pc' with
    | none => exact ⟨rfl, reasonChars_inj h⟩
    | some n' => exact absurd h (hblank n' detail _)
  | some n =>
    cases pc' with
    | none => exact absurd h.symm (hblank n detail' _)
    | some n' =>
      have hdigits : Nat.toDigits 10 n ++ reasonChars detail =
          Nat.toDigits 10 n' ++ reasonChars detail' := by
        simpa [placeChars] using h
      obtain ⟨rfl, hreason⟩ := toDigits_append_inj (hstop detail) (hstop detail') hdigits
      exact ⟨rfl, reasonChars_inj hreason⟩

/-- **The text of a fault determines the fault.** Two faults with the same text have the same kind,
the same place, if any, and the same detail, whatever stands in it. -/
theorem text_eq_text_iff (f g : Fault) :
    f.text = g.text ↔ f.kind = g.kind ∧ f.pc = g.pc ∧ f.detail = g.detail := by
  constructor
  · intro h
    have hchars := congrArg String.toList h
    rw [toList_text, toList_text] at hchars
    obtain ⟨hkind, hrest⟩ := Kind.text_append_inj hchars
    obtain ⟨hpc, hdetail⟩ := place_append_inj hrest
    exact ⟨hkind, hpc, String.toList_inj.mp hdetail⟩
  · rintro ⟨hkind, hpc, hdetail⟩
    simp only [text, hkind, hpc, hdetail]

end Wordcode.Fault
