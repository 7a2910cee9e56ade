import Wordcode.Code.Image
import Wordcode.Host.Session

/-! Images as bytes. A word is its lower byte and 256 times its upper one, so words and even
sequences of bytes correspond; what is refused is refused for its length alone. Loading, saving and
booting measure the length in different places, and this is where they are seen to agree. -/

namespace Wordcode

namespace Image

/-! ## One word -/

theorem toNat_wordOfBytes (lo hi : UInt8) :
    (wordOfBytes lo hi).toNat = lo.toNat + 256 * hi.toNat := by
  have hlo : lo.toNat < 2 ^ 8 := lo.toNat_lt
  have hhi : hi.toNat < 2 ^ 8 := hi.toNat_lt
  have hshift : (hi.toUInt16 <<< 8).toNat = hi.toNat <<< 8 := by
    rw [UInt16.toNat_shiftLeft]
    simp only [UInt8.toNat_toUInt16, Nat.shiftLeft_eq]
    change hi.toNat * 2 ^ 8 % 2 ^ 16 = hi.toNat * 2 ^ 8
    omega
  rw [wordOfBytes, UInt16.toNat_or, hshift, UInt8.toNat_toUInt16, Nat.or_comm,
    ← Nat.shiftLeft_add_eq_or_of_lt hlo, Nat.shiftLeft_eq]
  omega

theorem toNat_bytesOfWord (w : Word) :
    (bytesOfWord w).map UInt8.toNat = [w.toNat % 256, w.toNat / 256] := by
  have hw : w.toNat < 2 ^ 16 := w.toNat_lt
  have hshift : (w >>> 8).toNat = w.toNat / 256 := by
    rw [UInt16.toNat_shiftRight, Nat.shiftRight_eq_div_pow]
    rfl
  simp only [bytesOfWord, List.map_cons, List.map_nil, UInt16.toNat_toUInt8, hshift]
  congr 2
  omega

theorem wordOfBytes_bytesOfWord (w : Word) : wordOfBytes w.toUInt8 (w >>> 8).toUInt8 = w := by
  have hbytes := toNat_bytesOfWord w
  simp only [bytesOfWord, List.map_cons, List.map_nil, List.cons.injEq, and_true] at hbytes
  obtain ⟨hlo, hhi⟩ := hbytes
  apply UInt16.toNat_inj.mp
  rw [toNat_wordOfBytes, hlo, hhi]
  omega

theorem bytesOfWord_wordOfBytes (lo hi : UInt8) : bytesOfWord (wordOfBytes lo hi) = [lo, hi] := by
  have hlo : lo.toNat < 256 := lo.toNat_lt
  have hhi : hi.toNat < 256 := hi.toNat_lt
  apply (List.map_inj_right fun _ _ => UInt8.toNat_inj.mp).mp
  rw [toNat_bytesOfWord, toNat_wordOfBytes, List.map_cons, List.map_cons, List.map_nil]
  congr 2 <;> omega

/-! ## Sequences of words -/

theorem pair_save (words : List Word) : pair (save words) = words := by
  induction words with
  | nil => rfl
  | cons w rest ih =>
    change wordOfBytes w.toUInt8 (w >>> 8).toUInt8 :: pair (save rest) = w :: rest
    rw [wordOfBytes_bytesOfWord, ih]

theorem save_pair {bytes : List UInt8} (h : bytes.length % 2 = 0) : save (pair bytes) = bytes := by
  fun_induction pair bytes with
  | case1 lo hi rest ih =>
    have hrest : rest.length % 2 = 0 := by
      simp only [List.length_cons] at h
      omega
    change bytesOfWord (wordOfBytes lo hi) ++ save (pair rest) = lo :: hi :: rest
    rw [bytesOfWord_wordOfBytes, ih hrest]
    rfl
  | case2 bytes hshort =>
    rcases bytes with _ | ⟨lo, _ | ⟨hi, rest⟩⟩
    · rfl
    · cases h
    · exact absurd rfl (hshort lo hi rest)

theorem length_pair (bytes : List UInt8) : (pair bytes).length = bytes.length / 2 := by
  fun_induction pair bytes with
  | case1 lo hi rest ih =>
    simp only [List.length_cons, ih]
    omega
  | case2 bytes hshort =>
    rcases bytes with _ | ⟨lo, _ | ⟨hi, rest⟩⟩
    · rfl
    · simp
    · exact absurd rfl (hshort lo hi rest)

/-- The word at a place is made of the bytes at twice the place and behind it, the lower first. -/
theorem getElem?_pair {bytes : List UInt8} {k : Nat} {w : Word} (h : (pair bytes)[k]? = some w) :
    ∃ lo hi, bytes[2 * k]? = some lo ∧ bytes[2 * k + 1]? = some hi ∧
      w.toNat = lo.toNat + 256 * hi.toNat := by
  fun_induction pair bytes generalizing k with
  | case1 lo hi rest ih =>
    cases k with
    | zero =>
      cases h
      exact ⟨lo, hi, rfl, rfl, toNat_wordOfBytes lo hi⟩
    | succ k => exact ih h
  | case2 => cases h

/-! ## Loading -/

theorem load_of_odd {bytes : List UInt8} (h : bytes.length % 2 = 1) :
    load bytes = .error (.oddLength bytes.length) := by
  rw [load, if_pos (by omega)]

theorem load_of_large {bytes : List UInt8} (heven : bytes.length % 2 = 0)
    (h : memorySize < bytes.length / 2) :
    load bytes = .error (.exceedsMemory (bytes.length / 2)) := by
  rw [load, if_neg (by omega), if_pos h]

theorem load_of_fits {bytes : List UInt8} (heven : bytes.length % 2 = 0)
    (h : bytes.length / 2 ≤ memorySize) : load bytes = .ok (pair bytes) := by
  rw [load, if_neg (by omega), if_neg (Nat.not_lt.mpr h)]

/-- Loading fails for the length alone. -/
theorem load_eq_ok_iff {bytes : List UInt8} {words : List Word} :
    load bytes = .ok words ↔
      bytes.length % 2 = 0 ∧ bytes.length / 2 ≤ memorySize ∧ pair bytes = words := by
  by_cases hodd : bytes.length % 2 = 1
  · simp [load_of_odd hodd, hodd]
  · have heven : bytes.length % 2 = 0 := by omega
    by_cases hlarge : memorySize < bytes.length / 2
    · simp [load_of_large heven hlarge, Nat.not_le.mpr hlarge]
    · have hfits := Nat.not_lt.mp hlarge
      simp [load_of_fits heven hfits, heven, hfits]

/-- An image that is accepted fits into memory. -/
theorem length_le_of_load {bytes : List UInt8} {words : List Word}
    (h : load bytes = .ok words) : words.length ≤ memorySize := by
  obtain ⟨-, hfits, rfl⟩ := load_eq_ok_iff.mp h
  rw [length_pair]
  exact hfits

theorem save_of_load {bytes : List UInt8} {words : List Word} (h : load bytes = .ok words) :
    save words = bytes := by
  obtain ⟨heven, -, rfl⟩ := load_eq_ok_iff.mp h
  exact save_pair heven

/-- What was saved is loaded again, or it is too large. -/
theorem load_save (words : List Word) :
    load (save words) =
      if words.length ≤ memorySize then .ok words else .error (.exceedsMemory words.length) := by
  have hhalf : (save words).length / 2 = words.length := by
    rw [length_save]
    omega
  have heven : (save words).length % 2 = 0 := by
    rw [length_save]
    omega
  split
  · rename_i hfits
    rw [load_of_fits heven (hhalf ▸ hfits), pair_save]
  · rename_i hlarge
    rw [load_of_large heven (hhalf ▸ Nat.not_le.mp hlarge), hhalf]

end Image

/-! ## Booting -/

theorem Memory.getElem_toList (mem : Memory) {a : Nat} (h : a < mem.toList.length) :
    mem.toList[a] = mem.get ⟨a, mem.length_toList ▸ h⟩ := by
  simp [toList, get]

/-- An image that fits is followed by instructions that do nothing. -/
theorem Memory.toList_ofImage {image : List Word} (h : image.length ≤ memorySize) :
    (ofImage image).toList =
      image ++ List.replicate (memorySize - image.length) Opcode.noop.code := by
  apply List.ext_getElem
  · rw [length_toList, List.length_append, List.length_replicate]
    omega
  · intro a _ _
    rw [getElem_toList, get_ofImage, List.getElem_append]
    split
    · rename_i hlt
      simp [hlt]
    · rename_i hge
      simp [Nat.not_lt.mp hge]

/-- A machine refuses to run exactly what is too large. -/
theorem Machine.status_boot (image : List Word) (advance : Advance) :
    (boot image advance).status =
      if image.length ≤ memorySize then .running
      else .faulted ((Fault.exceedsMemory image.length).located 0) := by
  unfold boot
  by_cases h : image.length ≤ memorySize
  · simp [h, Nat.not_lt.mpr h]
  · simp [h, Nat.not_le.mp h]

namespace Image

/-- **The format of images.** Bytes are an image if they pair up and are no more than memory holds;
what is refused, and in which words, depends on the length alone, and an odd length comes first.
Loading and saving undo each other, and a word is written lower byte first. A machine booted on
words faults from the start exactly if they could not be loaded, in the same words but with an
address; otherwise it runs with the words in memory and instructions that do nothing behind them. -/
theorem format_exact :
    (∀ bytes : List UInt8,
      ((∃ words, load bytes = .ok words) ↔ bytes.length % 2 = 0 ∧ bytes.length ≤ 65536) ∧
      (bytes.length % 2 = 1 → load bytes = .error
        { kind := .malformedImage, pc := none, detail := "ODD LENGTH " ++ toString bytes.length }) ∧
      (bytes.length % 2 = 0 → 65536 < bytes.length → load bytes = .error
        { kind := .malformedImage, pc := none
          detail := toString (bytes.length / 2) ++ " WORDS EXCEEDS MEMORY" }) ∧
      ∀ words, load bytes = .ok words → save words = bytes ∧ words.length = bytes.length / 2 ∧
        ∀ k w, words[k]? = some w → ∃ lo hi, bytes[2 * k]? = some lo ∧
          bytes[2 * k + 1]? = some hi ∧ w.toNat = lo.toNat + 256 * hi.toNat) ∧
    ∀ words : List Word,
      (words.length ≤ 32768 → load (save words) = .ok words) ∧
      (32768 < words.length → load (save words) = .error
        { kind := .malformedImage, pc := none
          detail := toString words.length ++ " WORDS EXCEEDS MEMORY" }) ∧
      ∀ (journal : Journal) (advance : Advance),
        (∀ f, (Session.boot journal words advance).machine.status = .faulted f ↔
          ∃ g, load (save words) = .error g ∧
            f = { kind := .malformedImage, pc := some 0, detail := g.detail }) ∧
        ∀ loaded, load (save words) = .ok loaded →
          (Session.boot journal words advance).machine.status = .running ∧
          (Session.boot journal words advance).machine.memory.toList =
            words ++ List.replicate (32768 - words.length) Opcode.noop.code := by
  refine ⟨?_, ?_⟩
  · intro bytes
    refine ⟨?_, ?_, ?_, ?_⟩
    · simp only [load_eq_ok_iff, exists_and_left, exists_eq', and_true]
      change _ ∧ bytes.length / 2 ≤ 32768 ↔ _
      omega
    · intro hodd
      exact load_of_odd hodd
    · intro heven hlarge
      refine load_of_large heven ?_
      change 32768 < bytes.length / 2
      omega
    · intro words h
      obtain ⟨-, -, rfl⟩ := load_eq_ok_iff.mp h
      exact ⟨save_of_load h, length_pair bytes, fun k w hw => getElem?_pair hw⟩
  · intro words
    rw [load_save]
    refine ⟨fun hfits => if_pos hfits, fun hlarge => if_neg (Nat.not_le.mpr hlarge), ?_⟩
    intro journal advance
    change (∀ f, (Machine.boot words advance).status = .faulted f ↔ _) ∧ ∀ loaded, _ →
      (Machine.boot words advance).status = .running ∧ (Memory.ofImage words).toList = _
    rw [Machine.status_boot]
    by_cases hfits : words.length ≤ memorySize
    · simp [hfits, Memory.toList_ofImage hfits]
    · simp [hfits, Fault.exceedsMemory, Fault.located, eq_comm]

/-- A full memory is loaded and runs. One word more is refused by both, one byte more is odd before
it is too much. -/
theorem format_exact_at_limit :
    (∃ words, load [19, 0, 104, 128] = .ok words ∧ save words = [19, 0, 104, 128]) ∧
    load (save (List.replicate 32768 7)) = .ok (List.replicate 32768 7) ∧
    (Session.boot { threshold := .warn } (List.replicate 32768 7) .flat).machine.status = .running ∧
    load (List.replicate 65537 0) = .error
      { kind := .malformedImage, pc := none, detail := "ODD LENGTH 65537" } ∧
    load (List.replicate 65538 0) = .error
      { kind := .malformedImage, pc := none, detail := "32769 WORDS EXCEEDS MEMORY" } ∧
    (Session.boot { threshold := .warn } (List.replicate 32769 7) .scan).machine.status = .faulted
      { kind := .malformedImage, pc := some 0, detail := "32769 WORDS EXCEEDS MEMORY" } := by
  obtain ⟨hbytes, hwords⟩ := format_exact
  obtain ⟨hfits, -, hboot⟩ := hwords (List.replicate 32768 7)
  have hloaded := hfits (Nat.le_of_eq List.length_replicate)
  obtain ⟨-, hlarge, hboot'⟩ := hwords (List.replicate 32769 7)
  rw [List.length_replicate] at hlarge
  obtain ⟨-, hodd, -, -⟩ := hbytes (List.replicate 65537 0)
  obtain ⟨-, -, htoo, -⟩ := hbytes (List.replicate 65538 0)
  rw [List.length_replicate] at hodd htoo
  obtain ⟨hsome, -, -, hsave⟩ := hbytes [19, 0, 104, 128]
  obtain ⟨words, hload⟩ := hsome.mpr (by decide)
  refine ⟨⟨words, hload, (hsave words hload).1⟩, hloaded, ?_, hodd (by decide), ?_, ?_⟩
  · exact ((hboot _ .flat).2 _ hloaded).1
  · exact htoo (by decide) (by decide)
  · exact ((hboot' _ .scan).1 _).mpr ⟨_, hlarge (by decide), rfl⟩

end Image

end Wordcode
