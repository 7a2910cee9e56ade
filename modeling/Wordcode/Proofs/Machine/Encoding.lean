import Wordcode.Proofs.Machine.Rules

/-! How instructions stand in memory. Fetching succeeds exactly where all the words of an
instruction stand one after the other, and there are three ways in which it fails: nothing
to read, a word that is no opcode, and operands cut off by the end of memory. -/

namespace Wordcode

theorem Opcode.toNat_code_le (op : Opcode) : op.code.toNat ≤ 21 := by
  cases op <;> decide

namespace Memory

/-- The words stand in memory from `start` on. -/
def Holds (mem : Memory) : (start : Nat) → List Word → Prop
  | _, [] => True
  | start, w :: ws => mem.read start = .ok w ∧ mem.Holds (start + 1) ws

theorem read_eq_ok_iff {mem : Memory} {a : Nat} {w : Word} :
    mem.read a = .ok w ↔ ∃ h : a < memorySize, mem.get ⟨a, h⟩ = w := by
  by_cases h : a < memorySize
  · simp [read_of_lt mem h, h]
  · simp [read_of_le mem (Nat.not_lt.mp h), h]

end Memory

/-- An instruction is made by its opcode's form from its operand words. -/
theorem Instr.Form.make_spec (op : Opcode) :
    match op.form with
    | .bare i => i.opcode = op ∧ i.operands = []
    | .unary make => ∀ a, (make a).opcode = op ∧ (make a).operands = [a]
    | .binary make => ∀ a b, (make a b).opcode = op ∧ (make a b).operands = [a, b]
    | .ternary make => ∀ a b c, (make a b c).opcode = op ∧ (make a b c).operands = [a, b, c] := by
  cases op <;> simp [Opcode.form, Instr.opcode, Instr.operands, Operator.opcode]

namespace Memory

/-- Fetching finds exactly the instruction whose words stand at the program counter. -/
theorem fetch_eq_ok_iff {mem : Memory} {pc : Nat} {i : Instr} :
    mem.fetch pc = .ok i ↔ mem.Holds pc i.words := by
  constructor
  · intro h
    simp only [fetch, bind_eq_ok_iff] at h
    obtain ⟨w, hw, h⟩ := h
    split at h
    · exact absurd h throw_ne_ok
    · rename_i op hop
      have hcode := Opcode.code_of_ofWord? hop
      have hspec := Instr.Form.make_spec op
      split at h <;> rename_i hform <;> rw [hform] at hspec <;>
        simp only [bind_eq_ok_iff, pure_eq_ok_iff] at h
      · subst h
        simp [Instr.words, hspec, Holds, hcode, hw]
      · obtain ⟨a, ha, rfl⟩ := h
        simp [Instr.words, hspec, Holds, hcode, hw, ha]
      · obtain ⟨a, ha, b, hb, rfl⟩ := h
        simp [Instr.words, hspec, Holds, hcode, hw, ha, hb]
      · obtain ⟨a, ha, b, hb, c, hc, rfl⟩ := h
        simp [Instr.words, hspec, Holds, hcode, hw, ha, hb, hc]
  · intro h
    obtain ⟨hw, h⟩ := h
    have hop : Opcode.ofWord? i.opcode.code = some i.opcode := Opcode.ofWord?_code _
    cases i with
    | compute op =>
      cases op <;> simp_all [fetch, Holds, Instr.operands, Opcode.form, Instr.opcode,
        Operator.opcode, bind, Except.bind, pure, Except.pure]
    | branch sense =>
      cases sense <;> simp_all [fetch, Holds, Instr.operands, Opcode.form, Instr.opcode,
        bind, Except.bind, pure, Except.pure]
    | _ =>
      simp_all [fetch, Holds, Instr.operands, Opcode.form, Instr.opcode, bind, Except.bind,
        pure, Except.pure]

theorem Holds.length_le {mem : Memory} {start : Nat} {ws : List Word} (h : mem.Holds start ws)
    (hs : start ≤ memorySize) : start + ws.length ≤ memorySize := by
  induction ws generalizing start with
  | nil => exact hs
  | cons w ws ih =>
    obtain ⟨hr, h⟩ := h
    obtain ⟨hlt, -⟩ := read_eq_ok_iff.mp hr
    have := ih h hlt
    rw [List.length_cons]
    omega

theorem Holds.read_eq {mem : Memory} {start : Nat} {ws : List Word} (h : mem.Holds start ws)
    {k : Nat} {w : Word} (hw : ws[k]? = some w) : mem.read (start + k) = .ok w := by
  induction ws generalizing start k with
  | nil => cases hw
  | cons v ws ih =>
    obtain ⟨hv, h⟩ := h
    cases k with
    | zero =>
      cases hw
      exact hv
    | succ k =>
      rw [Nat.add_comm k, ← Nat.add_assoc]
      exact ih h hw

/-- A fetched instruction lies in memory whole. -/
theorem fetch_size_le {mem : Memory} {pc : Nat} {i : Instr} (h : mem.fetch pc = .ok i) :
    pc + i.size ≤ memorySize := by
  have hh := fetch_eq_ok_iff.mp h
  obtain ⟨hlt, -⟩ := read_eq_ok_iff.mp hh.1
  exact hh.length_le (Nat.le_of_lt hlt)

/-- Where an instruction stands, the search for the next one ends at once. -/
theorem nextOpcode_of_fetch {mem : Memory} {pc : Nat} {i : Instr} (h : mem.fetch pc = .ok i) :
    mem.nextOpcode pc = some pc := by
  obtain ⟨hread, -⟩ := fetch_eq_ok_iff.mp h
  obtain ⟨hlt, hw⟩ := read_eq_ok_iff.mp hread
  refine nextOpcode_eq_some_iff.mpr ⟨Nat.le_refl pc, ⟨hlt, ?_⟩, fun b _ hle hb => by omega⟩
  rw [hw, Opcode.isOpcode_iff]
  exact i.opcode.toNat_code_le

/-! ## Where fetching fails -/

theorem fetch_of_le (mem : Memory) {pc : Nat} (h : memorySize ≤ pc) :
    mem.fetch pc = .error (.addressOutOfRange pc) := by
  simp [fetch, read_of_le mem h, bind, Except.bind]

theorem fetch_of_not_opcode {mem : Memory} {pc : Nat} (h : pc < memorySize)
    (hw : Opcode.ofWord? (mem.get ⟨pc, h⟩) = none) :
    mem.fetch pc = .error (.invalidOpcode (mem.get ⟨pc, h⟩).toNat) := by
  simp [fetch, read_of_lt mem h, bind, Except.bind, hw, throw, throwThe, MonadExceptOf.throw]

/-- One more read either goes well or is the first one past the end. -/
theorem read_succ_cases (mem : Memory) {a : Nat} (h : a < memorySize) :
    (a + 1 < memorySize ∧ ∃ w, mem.read (a + 1) = .ok w) ∨
      (a + 1 = memorySize ∧ mem.read (a + 1) = .error (.addressOutOfRange memorySize)) := by
  by_cases ha : a + 1 < memorySize
  · exact .inl ⟨ha, _, read_of_lt mem ha⟩
  · have he : a + 1 = memorySize := by omega
    exact .inr ⟨he, he ▸ read_of_le mem (Nat.not_lt.mp ha)⟩

/-- Operands are read in order, so the first address past the end is the one reported. -/
theorem fetch_of_cut_off {mem : Memory} {pc : Nat} {op : Opcode} (h : pc < memorySize)
    (hw : Opcode.ofWord? (mem.get ⟨pc, h⟩) = some op) (hcut : memorySize ≤ pc + op.arity) :
    mem.fetch pc = .error (.addressOutOfRange memorySize) := by
  have harity : op.arity = op.form.arity := rfl
  simp only [fetch, read_of_lt mem h, bind, Except.bind, hw]
  cases hform : op.form <;> rw [harity, hform, Instr.Form.arity] at hcut
  · omega
  all_goals
    obtain ⟨h₁, a, ha⟩ | ⟨-, ha⟩ := mem.read_succ_cases h <;> simp only [ha]
  · omega
  all_goals
    obtain ⟨h₂, b, hb⟩ | ⟨-, hb⟩ := mem.read_succ_cases h₁ <;> simp only [hb]
  · omega
  · obtain ⟨h₃, -⟩ | ⟨-, hc⟩ := mem.read_succ_cases h₂
    · omega
    · simp only [hc]

/-- Where the opcode and its operands fit, there is an instruction. -/
theorem fetch_of_fits {mem : Memory} {pc : Nat} {op : Opcode} (h : pc < memorySize)
    (hw : Opcode.ofWord? (mem.get ⟨pc, h⟩) = some op) (hfits : pc + op.arity < memorySize) :
    ∃ i, mem.fetch pc = .ok i ∧ i.opcode = op := by
  have hspec := Instr.Form.make_spec op
  have harity : op.arity = op.form.arity := rfl
  simp only [fetch, read_of_lt mem h, bind, Except.bind, hw]
  cases hform : op.form <;> rw [hform] at hspec <;>
    rw [harity, hform, Instr.Form.arity] at hfits
  · exact ⟨_, rfl, hspec.1⟩
  · rw [read_of_lt mem hfits]
    exact ⟨_, rfl, (hspec _).1⟩
  · rw [read_of_lt mem (show pc + 1 < memorySize by omega), read_of_lt mem hfits]
    exact ⟨_, rfl, (hspec _ _).1⟩
  · rw [read_of_lt mem (show pc + 1 < memorySize by omega),
      read_of_lt mem (show pc + 2 < memorySize by omega), read_of_lt mem hfits]
    exact ⟨_, rfl, (hspec _ _ _).1⟩

/-- Fetching fails for an address or for a word that is no opcode. -/
theorem kind_of_fetch_error {mem : Memory} {pc : Nat} {f : Fault} (h : mem.fetch pc = .error f) :
    f.kind = .addressOutOfRange ∨ f.kind = .invalidOpcode := by
  by_cases hpc : pc < memorySize
  · cases hop : Opcode.ofWord? (mem.get ⟨pc, hpc⟩) with
    | none =>
      cases (fetch_of_not_opcode hpc hop).symm.trans h
      exact .inr rfl
    | some op =>
      by_cases hfits : pc + op.arity < memorySize
      · obtain ⟨i, hi, -⟩ := fetch_of_fits hpc hop hfits
        cases hi.symm.trans h
      · cases (fetch_of_cut_off hpc hop (Nat.not_lt.mp hfits)).symm.trans h
        exact .inl rfl
  · cases (fetch_of_le mem (Nat.not_lt.mp hpc)).symm.trans h
    exact .inl rfl

/-! ## Images in memory -/

theorem holds_ofImage {image ws : List Word} {start : Nat} (h : ws <+: image.drop start)
    (hlen : start + ws.length ≤ memorySize) : (ofImage image).Holds start ws := by
  induction ws generalizing start with
  | nil => trivial
  | cons w ws ih =>
    rw [List.length_cons] at hlen
    have hlt : start < memorySize := by omega
    obtain ⟨rest, hr⟩ := h
    have hw : image[start]? = some w := by
      have hhead := congrArg List.head? hr
      simpa using hhead.symm
    refine ⟨?_, ih ⟨rest, ?_⟩ (by omega)⟩
    · rw [read_of_lt _ hlt, get_ofImage]
      simp [hw]
    · have htail := congrArg List.tail hr
      simpa using htail

/-- An instruction written in an image is found there. -/
theorem fetch_ofImage {image : List Word} {start : Nat} {i : Instr}
    (h : i.words <+: image.drop start) (hlen : start + i.size ≤ memorySize) :
    (ofImage image).fetch start = .ok i :=
  fetch_eq_ok_iff.mpr (holds_ofImage h hlen)

end Memory

/-- An image that fits is about to run. -/
theorem Machine.boot_of_le {image : List Word} (h : image.length ≤ memorySize)
    (advance : Advance) :
    Machine.boot image advance = { memory := .ofImage image, advance := advance } := by
  unfold Machine.boot
  rw [if_neg (Nat.not_lt.mpr h)]

end Wordcode
