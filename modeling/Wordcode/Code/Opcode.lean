import Wordcode.Code.Word

/-! The twenty-two operations, by the word that stands for each in memory. A word is
an opcode exactly when it is at most 21, so most data words are not. -/

namespace Wordcode

inductive Opcode where
  | halt | set | push | pop | eq | gt | jump | jumpIf | jumpUnless | add | mul
  | mod | and | or | not | load | store | call | ret | out | input | noop
  deriving DecidableEq, Repr

namespace Opcode

/-- All operations, each at the index that is its word. -/
def all : Array Opcode :=
  #[halt, set, push, pop, eq, gt, jump, jumpIf, jumpUnless, add, mul,
    mod, and, or, not, load, store, call, ret, out, input, noop]

/-- The word that stands for the operation. -/
def code (op : Opcode) : Word :=
  UInt16.ofNat op.ctorIdx

def ofWord? (w : Word) : Option Opcode :=
  all[w.toNat]?

def isOpcode (w : Word) : Bool :=
  w ≤ 21

def mnemonic : Opcode → String
  | halt => "HALT"
  | set => "SET"
  | push => "PUSH"
  | pop => "POP"
  | eq => "EQ"
  | gt => "GT"
  | jump => "JMP"
  | jumpIf => "JT"
  | jumpUnless => "JF"
  | add => "ADD"
  | mul => "MULT"
  | mod => "MOD"
  | and => "AND"
  | or => "OR"
  | not => "NOT"
  | load => "RMEM"
  | store => "WMEM"
  | call => "CALL"
  | ret => "RET"
  | out => "OUT"
  | input => "IN"
  | noop => "NOOP"

@[simp] theorem ofWord?_code (op : Opcode) : ofWord? op.code = some op := by
  cases op <;> rfl

theorem isOpcode_iff {w : Word} : isOpcode w = true ↔ w.toNat ≤ 21 := by
  simp [isOpcode, UInt16.le_iff_toNat_le]

theorem ofWord?_eq_none_iff {w : Word} : ofWord? w = none ↔ 21 < w.toNat := by
  simp only [ofWord?, Array.getElem?_eq_none_iff]
  change 22 ≤ w.toNat ↔ 21 < w.toNat
  omega

theorem toNat_code_getElem : ∀ i : Fin all.size, all[i].code.toNat = i := by
  decide

/-- Only its own word stands for an operation. -/
theorem code_of_ofWord? {w : Word} {op : Opcode} (h : ofWord? w = some op) : op.code = w := by
  obtain ⟨hlt, rfl⟩ := Array.getElem?_eq_some_iff.mp h
  exact UInt16.toNat_inj.mp (toNat_code_getElem ⟨w.toNat, hlt⟩)

end Opcode

end Wordcode
