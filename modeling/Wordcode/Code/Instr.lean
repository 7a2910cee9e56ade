import Wordcode.Code.Operator

/-! Instructions: an operation with its operand words, as they stand in memory.
`Opcode.form` says how many operand words follow an opcode and what instruction they
make; `Instr.words` writes the instruction back. -/

namespace Wordcode

/-- Operands are kept as raw words, since only the ones that are used have to be valid. -/
inductive Instr where
  | halt
  | set (dst src : Word)
  | push (src : Word)
  | pop (dst : Word)
  | compute (op : Operator) (dst lhs rhs : Word)
  | jump (target : Word)
  /-- Jumps when the condition is nonzero (`sense = true`) or zero (`sense = false`). -/
  | branch (sense : Bool) (cond target : Word)
  | not (dst src : Word)
  | load (dst addr : Word)
  | store (addr src : Word)
  | call (target : Word)
  | ret
  | out (src : Word)
  | input (dst : Word)
  | noop
  deriving DecidableEq, Repr

/-- How an opcode becomes an instruction. -/
inductive Instr.Form where
  | bare (i : Instr)
  | unary (make : Word → Instr)
  | binary (make : Word → Word → Instr)
  | ternary (make : Word → Word → Word → Instr)

def Opcode.form : Opcode → Instr.Form
  | .halt => .bare .halt
  | .set => .binary .set
  | .push => .unary .push
  | .pop => .unary .pop
  | .eq => .ternary (.compute .eq)
  | .gt => .ternary (.compute .gt)
  | .jump => .unary .jump
  | .jumpIf => .binary (.branch true)
  | .jumpUnless => .binary (.branch false)
  | .add => .ternary (.compute .add)
  | .mul => .ternary (.compute .mul)
  | .mod => .ternary (.compute .mod)
  | .and => .ternary (.compute .and)
  | .or => .ternary (.compute .or)
  | .not => .binary .not
  | .load => .binary .load
  | .store => .binary .store
  | .call => .unary .call
  | .ret => .bare .ret
  | .out => .unary .out
  | .input => .unary .input
  | .noop => .bare .noop

def Instr.Form.arity : Instr.Form → Nat
  | .bare _ => 0
  | .unary _ => 1
  | .binary _ => 2
  | .ternary _ => 3

/-- The number of operand words. -/
def Opcode.arity (op : Opcode) : Nat :=
  op.form.arity

namespace Instr

def opcode : Instr → Opcode
  | halt => .halt
  | set .. => .set
  | push .. => .push
  | pop .. => .pop
  | compute op .. => op.opcode
  | jump .. => .jump
  | branch true .. => .jumpIf
  | branch false .. => .jumpUnless
  | not .. => .not
  | load .. => .load
  | store .. => .store
  | call .. => .call
  | ret => .ret
  | out .. => .out
  | input .. => .input
  | noop => .noop

def operands : Instr → List Word
  | halt | ret | noop => []
  | push a | pop a | jump a | call a | out a | input a => [a]
  | set a b | branch _ a b | not a b | load a b | store a b => [a, b]
  | compute _ a b c => [a, b, c]

/-- The instruction as it stands in memory. -/
def words (i : Instr) : List Word :=
  i.opcode.code :: i.operands

/-- The number of words the instruction takes. -/
def size (i : Instr) : Nat :=
  i.operands.length + 1

theorem length_operands (i : Instr) : i.operands.length = i.opcode.arity := by
  cases i with
  | compute op => cases op <;> rfl
  | branch sense => cases sense <;> rfl
  | _ => rfl

theorem length_words (i : Instr) : i.words.length = i.size := rfl

theorem size_pos (i : Instr) : 0 < i.size := Nat.succ_pos _

theorem size_le (i : Instr) : i.size ≤ 4 := by
  cases i <;> simp [size, operands]

end Instr

end Wordcode
