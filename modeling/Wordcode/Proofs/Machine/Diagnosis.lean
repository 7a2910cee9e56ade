import Wordcode.Proofs.Machine.Bounds

/-! Why an instruction faults. `diagnosis` reads the cause off the words at the program
counter, trying one cause after the other; it knows nothing of how instructions are fetched
or carried out. On a machine within its bounds it names exactly the fault that trying the
instruction ends in. -/

namespace Wordcode

namespace Machine

/-! ## Causes -/

/-- The word so many places behind the program counter. -/
def wordAt (m : Machine) (place : Nat) : Word :=
  m.memory.toList.getD (m.pc + place) 0

/-- The operation at the program counter, if there is one. -/
def operation (m : Machine) : Opcode :=
  (Opcode.ofWord? (m.wordAt 0)).getD .noop

/-- The places of the operands that are evaluated, from left to right. The target of a branch
is among them only if the branch is taken. -/
def evaluated (m : Machine) : List Nat :=
  match m.operation with
  | .halt | .pop | .ret | .noop => []
  | .push | .jump | .call | .out | .input => [1]
  | .set | .not | .load => [2]
  | .store => [1, 2]
  | .eq | .gt | .add | .mul | .mod | .and | .or => [2, 3]
  | .jumpIf => if m.denote (m.wordAt 1) ≠ 0 then [1, 2] else [1]
  | .jumpUnless => if m.denote (m.wordAt 1) = 0 then [1, 2] else [1]

/-- A fault at the program counter. -/
def blame (m : Machine) (kind : Fault.Kind) (detail : String) : Option Fault :=
  some { kind, pc := some m.pc, detail }

/-- The fault that the instruction at the program counter ends in, if it does. -/
def diagnosis (m : Machine) : Option Fault :=
  if m.pc = 32768 then
    m.blame .addressOutOfRange "ADDRESS 32768"
  else if 21 < (m.wordAt 0).toNat then
    m.blame .invalidOpcode ("WORD " ++ toString (m.wordAt 0).toNat)
  else if 32767 < m.pc + m.operation.arity then
    m.blame .addressOutOfRange "ADDRESS 32768"
  else
    match (m.evaluated.map m.wordAt).find? (32776 ≤ ·.toNat) with
    | some x => m.blame .invalidOperand ("RAW WORD " ++ toString x.toNat)
    | none =>
      if m.operation = .mod ∧ m.denote (m.wordAt 3) = 0 then
        m.blame .divisionByZero ""
      else if (m.operation = .pop ∨ m.operation = .ret) ∧ m.stack.words = [] then
        m.blame .stackUnderflow "POP OR RET ON EMPTY STACK"
      else if m.operation = .input ∧ m.input.pending = [] ∧ m.input.closed = true then
        m.blame .inputExhausted "END OF INPUT STREAM"
      else
        none

theorem pc_of_blame {m : Machine} {kind : Fault.Kind} {detail : String} {f : Fault}
    (h : m.blame kind detail = some f) : f.pc = some m.pc := by
  cases h
  rfl

/-- Every cause is found at the program counter. -/
theorem pc_of_diagnosis {m : Machine} {f : Fault} (h : m.diagnosis = some f) :
    f.pc = some m.pc := by
  unfold diagnosis at h
  split at h
  · exact pc_of_blame h
  · split at h
    · exact pc_of_blame h
    · split at h
      · exact pc_of_blame h
      · split at h
        · exact pc_of_blame h
        · split at h
          · exact pc_of_blame h
          · split at h
            · exact pc_of_blame h
            · split at h
              · exact pc_of_blame h
              · cases h

end Machine

/-! ## Refused instructions -/

/-- Whether a fault of this kind is met in an instruction whose words could all be read. -/
def Fault.Kind.refuses : Fault.Kind → Bool
  | .invalidOperand | .divisionByZero | .stackUnderflow | .inputExhausted => true
  | .invalidOpcode | .addressOutOfRange | .malformedImage | .io => false

/-- The fault that a computation ends in, if it does. -/
def fault? {α : Type} : Except Fault α → Option Fault
  | .error f => some f
  | .ok _ => none

@[simp] theorem fault?_pure {α : Type} (a : α) : fault? (pure a) = none := rfl

@[simp] theorem fault?_throw {α : Type} (f : Fault) :
    fault? (throw f : Except Fault α) = some f := rfl

namespace Machine

/-- Evaluating an operand on the way adds one cause. -/
theorem fault?_value_bind {α : Type} (m : Machine) (raw : Word) (k : Word → Except Fault α) :
    fault? (m.value raw >>= k) =
      if 32776 ≤ raw.toNat then some (.invalidOperand raw.toNat)
      else fault? (k (m.denote raw)) := by
  rw [value_eq]
  by_cases h : raw.toNat < 32776
  · rw [if_pos h, if_neg (Nat.not_le.mpr h)]
    rfl
  · rw [if_neg h, if_pos (Nat.not_lt.mp h)]
    rfl

/-- The fault of the first invalid word, or else another one. -/
def screen (ws : List Word) (rest : Option Fault) : Option Fault :=
  match ws.find? (32776 ≤ ·.toNat) with
  | some x => some (.invalidOperand x.toNat)
  | none => rest

@[simp] theorem screen_nil (rest : Option Fault) : screen [] rest = rest := rfl

theorem screen_cons (w : Word) (ws : List Word) (rest : Option Fault) :
    screen (w :: ws) rest =
      if 32776 ≤ w.toNat then some (.invalidOperand w.toNat) else screen ws rest := by
  by_cases h : 32776 ≤ w.toNat
  · simp [screen, h]
  · simp [screen, h]

/-- The operand words that the instruction evaluates, from left to right. -/
def needs (m : Machine) : Instr → List Word
  | .halt | .pop _ | .ret | .noop => []
  | .push a | .jump a | .call a | .out a | .input a => [a]
  | .set _ b | .not _ b | .load _ b => [b]
  | .store a b => [a, b]
  | .compute _ _ b c => [b, c]
  | .branch sense a b => if (m.denote a != 0) = sense then [a, b] else [a]

/-- What keeps an instruction with valid operands from being carried out. -/
def obstacle (m : Machine) : Instr → Option Fault
  | .compute op _ _ c => if op = .mod ∧ m.denote c = 0 then some .divisionByZero else none
  | .pop _ | .ret => if m.stack.words = [] then some (.stackUnderflow underflowDetail) else none
  | .input _ =>
    if m.input.pending = [] ∧ m.input.closed = true then some .inputExhausted else none
  | .halt | .noop | .set .. | .push _ | .not .. | .jump _ | .branch .. | .load .. | .store ..
  | .call _ | .out _ => none

section

variable {image : List Word} {m : Machine}

/-- An invalid operand and an obstacle are found in instructions that were read whole. -/
theorem refuses_of_screen {i : Instr} {f : Fault}
    (h : screen (m.needs i) (m.obstacle i) = some f) : f.kind.refuses = true := by
  unfold screen at h
  split at h
  · cases h
    rfl
  · unfold obstacle at h
    split at h <;> simp only [Option.ite_none_right_eq_some, Option.some.injEq, reduceCtorEq] at h
    all_goals
      obtain ⟨-, rfl⟩ := h
      rfl

/-- Neither an operand nor an obstacle is about an address. -/
theorem kind_ne_of_screen {i : Instr} {f : Fault}
    (h : screen (m.needs i) (m.obstacle i) = some f) : f.kind ≠ .addressOutOfRange := by
  intro hkind
  have hrefuses := refuses_of_screen h
  rw [hkind] at hrefuses
  cases hrefuses

/-- An instruction is refused for its first invalid operand, else for its obstacle. Addresses
are no cause, since values are addresses. -/
theorem Bounded.fault?_plan (h : Bounded image m) (i : Instr) :
    fault? (m.plan i) = screen (m.needs i) (m.obstacle i) := by
  cases i with
  | halt | noop => rfl
  | push b | jump b | call b | out b | set _ b | not _ b =>
    simp only [plan, needs, obstacle, fault?_value_bind, screen_cons, screen_nil, fault?_pure]
  | pop _ | ret =>
    simp only [plan, needs, obstacle, screen_nil, Stack.top, Stack.top?]
    cases m.stack.words <;> rfl
  | load _ b =>
    have hb : m.memory.read (m.denote b).toNat = .ok _ := Memory.read_of_lt _ (h.denote_lt b)
    simp only [plan, needs, obstacle, fault?_value_bind, screen_cons, screen_nil, hb]
    rfl
  | store b c =>
    have hb : Memory.locate (m.denote b).toNat = .ok _ := Memory.locate_of_lt (h.denote_lt b)
    simp only [plan, needs, obstacle, fault?_value_bind, screen_cons, screen_nil, hb]
    rfl
  | compute op _ b c =>
    simp only [plan, needs, obstacle, fault?_value_bind, screen_cons, screen_nil]
    cases hz : op.eval? (m.denote b) (m.denote c) with
    | none => simp only [Operator.eval?_eq_none_iff.mp hz, fault?_throw, and_self, if_true]
    | some z =>
      have hno : ¬ (op = .mod ∧ m.denote c = 0) := by
        intro hzero
        rw [Operator.eval?_eq_none_iff.mpr hzero] at hz
        cases hz
      simp only [hno, fault?_pure, if_false]
  | branch sense b c =>
    simp only [plan, needs, obstacle, fault?_value_bind]
    by_cases ht : (m.denote b != 0) = sense
    · simp only [ht, if_true, fault?_value_bind, screen_cons, screen_nil, fault?_pure]
    · simp only [ht, if_false, screen_cons, screen_nil, fault?_pure]
  | input b =>
    simp only [plan, needs, obstacle, screen_cons, screen_nil]
    cases hd : Operand.decode b with
    | error f =>
      obtain ⟨hle, rfl⟩ := Operand.decode_eq_error_iff.mp hd
      rw [if_pos hle]
      rfl
    | ok place =>
      have hlt : ¬ 32776 ≤ b.toNat := by
        intro hle
        rw [Operand.decode_eq_error_iff.mpr ⟨hle, rfl⟩] at hd
        cases hd
      rw [if_neg hlt]
      cases hp : m.input.pending with
      | nil => cases m.input.closed <;> simp [Input.next?, hp, bind, Except.bind]
      | cons c rest => cases place <;> simp [Input.next?, hp, bind, Except.bind]

/-! ## Words and instructions -/

theorem wordAt_of_lt {place : Nat} (h : m.pc + place < memorySize) :
    m.wordAt place = m.memory.get ⟨m.pc + place, h⟩ := by
  simp [wordAt, Memory.toList, Memory.get, h]

theorem wordAt_of_read {place : Nat} {w : Word} (h : m.memory.read (m.pc + place) = .ok w) :
    m.wordAt place = w := by
  obtain ⟨hlt, hw⟩ := Memory.read_eq_ok_iff.mp h
  exact (wordAt_of_lt hlt).trans hw

/-- The words of the instruction at the program counter. -/
theorem wordAt_of_fetch {i : Instr} (hf : m.memory.fetch m.pc = .ok i) {place : Nat} {w : Word}
    (hw : i.words[place]? = some w) : m.wordAt place = w :=
  wordAt_of_read (Memory.Holds.read_eq (Memory.fetch_eq_ok_iff.mp hf) hw)

theorem operation_of_fetch {i : Instr} (hf : m.memory.fetch m.pc = .ok i) :
    m.operation = i.opcode := by
  have hword : m.wordAt 0 = i.opcode.code := wordAt_of_fetch hf rfl
  rw [operation, hword, Opcode.ofWord?_code]
  rfl

theorem evaluated_of_fetch {i : Instr} (hf : m.memory.fetch m.pc = .ok i) :
    m.evaluated.map m.wordAt = m.needs i := by
  have hword : ∀ {place : Nat} {w : Word}, i.words[place]? = some w → m.wordAt place = w :=
    wordAt_of_fetch hf
  rw [evaluated, operation_of_fetch hf]
  cases i with
  | halt | pop _ | ret | noop => rfl
  | push a | jump a | call a | out a | input a =>
    have h₁ : m.wordAt 1 = a := hword rfl
    simp [Instr.opcode, needs, h₁]
  | set a b | not a b | load a b =>
    have h₂ : m.wordAt 2 = b := hword rfl
    simp [Instr.opcode, needs, h₂]
  | store a b =>
    have h₁ : m.wordAt 1 = a := hword rfl
    have h₂ : m.wordAt 2 = b := hword rfl
    simp [Instr.opcode, needs, h₁, h₂]
  | compute op a b c =>
    have h₂ : m.wordAt 2 = b := hword rfl
    have h₃ : m.wordAt 3 = c := hword rfl
    cases op <;> simp [Instr.opcode, Operator.opcode, needs, h₂, h₃]
  | branch sense a b =>
    have h₁ : m.wordAt 1 = a := hword rfl
    have h₂ : m.wordAt 2 = b := hword rfl
    cases sense <;> by_cases ha : m.denote a = 0 <;> simp [Instr.opcode, needs, h₁, h₂, ha]

/-! ## The cause is the fault -/

theorem fault?_of_unfetched {f : Fault} (hf : m.memory.fetch m.pc = .error f) :
    m.attempt.fault? = some f := by
  rw [attempt, hf]
  rfl

theorem fault?_of_fetch {i : Instr} (hf : m.memory.fetch m.pc = .ok i) :
    m.attempt.fault? = fault? (m.plan i) := by
  simp only [attempt, hf]
  cases m.plan i with
  | error f => rfl
  | ok plan => cases plan <;> rfl

/-- Where an instruction stands, the causes are an invalid operand and its obstacle. -/
theorem diagnosis_of_fetch {i : Instr} (hf : m.memory.fetch m.pc = .ok i) :
    m.diagnosis = (screen (m.needs i) (m.obstacle i)).map (·.located m.pc) := by
  have hop := operation_of_fetch hf
  have hsize : m.pc + i.operands.length + 1 ≤ 32768 := Memory.fetch_size_le hf
  have hword : (m.wordAt 0).toNat ≤ 21 := by
    have h₀ : m.wordAt 0 = i.opcode.code := wordAt_of_fetch hf rfl
    rw [h₀]
    exact i.opcode.toNat_code_le
  have hfits : m.pc + i.opcode.arity ≤ 32767 := by
    rw [← i.length_operands]
    omega
  rw [diagnosis, if_neg (by omega), if_neg (by omega), evaluated_of_fetch hf, hop,
    if_neg (by omega), screen]
  cases (m.needs i).find? (32776 ≤ ·.toNat) with
  | some x => rfl
  | none =>
    cases i with
    | compute op a b c =>
      have h₃ : m.wordAt 3 = c := wordAt_of_fetch hf rfl
      cases op with
      | mod =>
        by_cases hc : m.denote c = 0
        · simp [obstacle, Instr.opcode, Operator.opcode, h₃, hc, blame, Fault.located,
            Fault.divisionByZero]
        · simp [obstacle, Instr.opcode, Operator.opcode, h₃, hc]
      | _ => simp [obstacle, Instr.opcode, Operator.opcode]
    | branch sense a b => cases sense <;> simp [obstacle, Instr.opcode]
    | pop a | ret =>
      by_cases hs : m.stack.words = []
      · simp [obstacle, Instr.opcode, hs, blame, Fault.located, Fault.stackUnderflow,
          underflowDetail]
      · simp [obstacle, Instr.opcode, hs]
    | input a =>
      by_cases hc : m.input.pending = [] ∧ m.input.closed = true
      · simp [obstacle, Instr.opcode, hc, blame, Fault.located, Fault.inputExhausted]
      · simp [obstacle, Instr.opcode, hc]
    | _ => simp [obstacle, Instr.opcode]

/-- **The cause that the words show is the fault that the instruction ends in.** -/
theorem Bounded.diagnosis_eq (h : Bounded image m) :
    m.diagnosis = m.attempt.fault?.map (·.located m.pc) := by
  -- fetching fails for the first three causes, so behind them an instruction stands
  by_cases hpc : m.pc < memorySize
  · have hne : m.pc ≠ 32768 := Nat.ne_of_lt hpc
    have h₀ : m.wordAt 0 = m.memory.get ⟨m.pc, hpc⟩ := wordAt_of_lt hpc
    cases hop : Opcode.ofWord? (m.memory.get ⟨m.pc, hpc⟩) with
    | none =>
      have hword : 21 < (m.memory.get ⟨m.pc, hpc⟩).toNat := Opcode.ofWord?_eq_none_iff.mp hop
      rw [fault?_of_unfetched (Memory.fetch_of_not_opcode hpc hop), diagnosis, if_neg hne, h₀,
        if_pos hword]
      rfl
    | some op =>
      by_cases hfits : m.pc + op.arity < memorySize
      · obtain ⟨i, hf, -⟩ := Memory.fetch_of_fits hpc hop hfits
        rw [diagnosis_of_fetch hf, fault?_of_fetch hf, h.fault?_plan]
      · have hword : ¬ 21 < (m.memory.get ⟨m.pc, hpc⟩).toNat := by
          rw [← Opcode.ofWord?_eq_none_iff, hop]
          simp
        have hcut : 32767 < m.pc + m.operation.arity := by
          rw [operation, h₀, hop]
          exact Nat.not_lt.mp hfits
        rw [fault?_of_unfetched (Memory.fetch_of_cut_off hpc hop (Nat.not_lt.mp hfits)), diagnosis,
          if_neg hne, h₀, if_neg hword, if_pos hcut]
        rfl
  · have hend : m.pc = 32768 := Nat.le_antisymm h.pc (Nat.not_lt.mp hpc)
    rw [fault?_of_unfetched (Memory.fetch_of_le _ (Nat.not_lt.mp hpc)), diagnosis, if_pos hend,
      blame, hend]
    rfl

/-- A machine that faults tells where. -/
theorem Bounded.pc_of_faulted (h : Bounded image m) (hrun : m.status = .running) {f : Fault}
    (hf : m.step.machine.status = .faulted f) : f.pc = some m.step.machine.pc := by
  have ht := step_trial m
  generalize m.step.machine = after at ht hf ⊢
  generalize m.step.event = event at ht
  cases ht with
  | @fault g hg =>
    cases hf
    have hd : m.diagnosis = some (g.located m.pc) := by
      rw [h.diagnosis_eq, hg]
      rfl
    exact pc_of_diagnosis hd
  | wait =>
    rw [hrun] at hf
    cases hf
  | complete _ _ hfollow =>
    cases hfollow with
    | jump | next | print =>
      change m.status = .faulted f at hf
      rw [hrun] at hf
      cases hf
    | halt | last | lastPrint => cases hf

end

end Machine

end Wordcode
