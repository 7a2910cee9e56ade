import Wordcode.Code.Opcode
import Wordcode.Code.Operand

/-! What a machine stores words in: the memory, the register bank and the stack.
Memory refuses addresses past its end; register numbers have wrapped before they get
here; the stack grows without bound and refuses to be popped when empty. -/

namespace Wordcode

/-- Words as they are shown in a list. -/
def showWords (ws : List Word) : String :=
  "[" ++ ", ".intercalate (ws.map fun w => toString w.toNat) ++ "]"

/-! ## Memory -/

structure Memory where
  cells : Vector Word memorySize
  deriving DecidableEq

namespace Memory

/-- An image from address zero on. Words that do not fit are dropped, and the rest of
memory does nothing when run. -/
def ofImage (image : List Word) : Memory :=
  let given := image.toArray
  ⟨Vector.ofFn fun a => given.getD a Opcode.noop.code⟩

def locate (address : Nat) : Except Fault Address :=
  if h : address < memorySize then .ok ⟨address, h⟩ else .error (.addressOutOfRange address)

def get (mem : Memory) (a : Address) : Word :=
  mem.cells[a]

def set (mem : Memory) (a : Address) (w : Word) : Memory :=
  ⟨mem.cells.set a w⟩

def read (mem : Memory) (address : Nat) : Except Fault Word :=
  (locate address).map mem.get

def write (mem : Memory) (address : Nat) (w : Word) : Except Fault Memory :=
  (locate address).map (mem.set · w)

def toList (mem : Memory) : List Word :=
  mem.cells.toList

/-- Memory is too large to be shown; only its size is. -/
def inspect (_ : Memory) : String :=
  "Memory \x7b " ++ toString memorySize ++ " words \x7d"

@[simp] theorem length_toList (mem : Memory) : mem.toList.length = memorySize := by
  simp [toList]

@[simp] theorem get_set_self (mem : Memory) (a : Address) (w : Word) : (mem.set a w).get a = w := by
  simp [get, set]

theorem get_set_of_ne (mem : Memory) {a b : Address} (h : a ≠ b) (w : Word) :
    (mem.set a w).get b = mem.get b := by
  have : a.val ≠ b.val := fun e => h (Fin.ext e)
  simp [get, set, Vector.getElem_set_ne, this]

theorem get_ofImage (image : List Word) (a : Address) :
    (ofImage image).get a = image.getD a Opcode.noop.code := by
  simp [get, ofImage]

theorem locate_of_lt {address : Nat} (h : address < memorySize) :
    locate address = .ok ⟨address, h⟩ := dif_pos h

theorem locate_of_le {address : Nat} (h : memorySize ≤ address) :
    locate address = .error (.addressOutOfRange address) := dif_neg (Nat.not_lt.mpr h)

theorem read_of_lt (mem : Memory) {address : Nat} (h : address < memorySize) :
    mem.read address = .ok (mem.get ⟨address, h⟩) := by
  simp [read, locate_of_lt h, Except.map]

theorem read_of_le (mem : Memory) {address : Nat} (h : memorySize ≤ address) :
    mem.read address = .error (.addressOutOfRange address) := by
  simp [read, locate_of_le h, Except.map]

end Memory

/-! ## Registers -/

structure Registers where
  cells : Vector Word registerCount
  deriving DecidableEq

namespace Registers

/-- All registers start at zero. -/
def zero : Registers :=
  ⟨Vector.replicate registerCount 0⟩

def get (bank : Registers) (r : Register) : Word :=
  bank.cells[r]

def set (bank : Registers) (r : Register) (w : Word) : Registers :=
  ⟨bank.cells.set r w⟩

/-- The value an operand word stands for. -/
def value (bank : Registers) (raw : Word) : Except Fault Word := do
  match ← Operand.decode raw with
  | .literal n => return UInt16.ofNat n
  | .register r => return bank.get r

def toList (bank : Registers) : List Word :=
  bank.cells.toList

/-- Every register with its value. -/
def text (bank : Registers) : String :=
  " ".intercalate (bank.toList.zipIdx.map fun (w, i) => "R" ++ toString i ++ "=" ++ toString w.toNat)

def inspect (bank : Registers) : String :=
  "Registers \x7b cells: " ++ showWords bank.toList ++ " \x7d"

@[simp] theorem get_zero (r : Register) : zero.get r = 0 := by
  simp [zero, get]

@[simp] theorem get_set_self (bank : Registers) (r : Register) (w : Word) :
    (bank.set r w).get r = w := by
  simp [get, set]

theorem get_set_of_ne (bank : Registers) {r s : Register} (h : r ≠ s) (w : Word) :
    (bank.set r w).get s = bank.get s := by
  have : r.val ≠ s.val := fun e => h (Fin.ext e)
  simp [get, set, Vector.getElem_set_ne, this]

end Registers

/-! ## Stack -/

/-- The stack, its top word first. -/
structure Stack where
  words : List Word := []
  deriving DecidableEq, Repr

namespace Stack

def empty : Stack := {}

def depth (st : Stack) : Nat :=
  st.words.length

def top? (st : Stack) : Option Word :=
  st.words.head?

def push (st : Stack) (w : Word) : Stack :=
  ⟨w :: st.words⟩

def drop (st : Stack) : Stack :=
  ⟨st.words.tail⟩

/-- The top word, or an underflow with the given detail. -/
def top (st : Stack) (detail : String) : Except Fault Word :=
  match st.top? with
  | some w => .ok w
  | none => .error (.stackUnderflow detail)

/-- Takes the top word off. -/
def pop (st : Stack) (detail : String) : Except Fault (Word × Stack) :=
  (st.top detail).map (·, st.drop)

/-- The words from the bottom up. -/
def inspect (st : Stack) : String :=
  showWords st.words.reverse

@[simp] theorem depth_push (st : Stack) (w : Word) : (st.push w).depth = st.depth + 1 := rfl

@[simp] theorem drop_push (st : Stack) (w : Word) : (st.push w).drop = st := rfl

@[simp] theorem top_push (st : Stack) (w : Word) (detail : String) :
    (st.push w).top detail = .ok w := rfl

end Stack

end Wordcode
