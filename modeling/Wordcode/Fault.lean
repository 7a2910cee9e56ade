/-! Faults: why a machine stopped or an image was refused. A fault has a kind, the
program counter once it is known, and a detail that may be empty. `text` is the one
place where a fault is put into words for people. -/

namespace Wordcode

/-- Why execution cannot go on. -/
inductive Fault.Kind where
  | invalidOpcode
  | invalidOperand
  | stackUnderflow
  | divisionByZero
  | addressOutOfRange
  | inputExhausted
  | malformedImage
  | io
  deriving DecidableEq, Repr

/-- The number under which a kind of fault is known. -/
def Fault.Kind.number : Fault.Kind → Nat
  | .invalidOpcode => 1
  | .invalidOperand => 2
  | .stackUnderflow => 3
  | .divisionByZero => 4
  | .addressOutOfRange => 5
  | .inputExhausted => 6
  | .malformedImage => 7
  | .io => 8

def Fault.Kind.text : Fault.Kind → String
  | .invalidOpcode => "INVALID OPCODE"
  | .invalidOperand => "INVALID OPERAND"
  | .stackUnderflow => "STACK UNDERFLOW"
  | .divisionByZero => "DIVISION BY ZERO"
  | .addressOutOfRange => "ADDRESS OUT OF RANGE"
  | .inputExhausted => "INPUT EXHAUSTED"
  | .malformedImage => "MALFORMED IMAGE"
  | .io => "I/O ERROR"

structure Fault where
  kind : Fault.Kind
  pc : Option Nat := none
  detail : String := ""
  deriving DecidableEq, Repr

namespace Fault

/-- Records where the fault arose. A place already recorded is kept. -/
def located (f : Fault) (pc : Nat) : Fault :=
  { f with pc := f.pc.or (some pc) }

/-- Replaces the detail. -/
def detailed (f : Fault) (detail : String) : Fault :=
  { f with detail := detail }

/-- The kind, then the place if it is known, then the detail if there is one. -/
def text (f : Fault) : String :=
  let place := match f.pc with
    | some pc => " AT " ++ toString pc
    | none => ""
  let reason := if f.detail.isEmpty then "" else "; " ++ f.detail
  f.kind.text ++ place ++ reason

/-- The fault as it shows inside another value. -/
def inspect (f : Fault) : String :=
  "Error \x7b " ++ f.text ++ " \x7d"

/-! ## The faults the machine can raise -/

def invalidOpcode (word : Nat) : Fault :=
  { kind := .invalidOpcode, detail := "WORD " ++ toString word }

def invalidOperand (raw : Nat) : Fault :=
  { kind := .invalidOperand, detail := "RAW WORD " ++ toString raw }

def stackUnderflow (detail : String) : Fault :=
  { kind := .stackUnderflow, detail := detail }

def divisionByZero : Fault :=
  { kind := .divisionByZero }

def addressOutOfRange (address : Nat) : Fault :=
  { kind := .addressOutOfRange, detail := "ADDRESS " ++ toString address }

def inputExhausted : Fault :=
  { kind := .inputExhausted, detail := "END OF INPUT STREAM" }

def oddLength (bytes : Nat) : Fault :=
  { kind := .malformedImage, detail := "ODD LENGTH " ++ toString bytes }

def exceedsMemory (words : Nat) : Fault :=
  { kind := .malformedImage, detail := toString words ++ " WORDS EXCEEDS MEMORY" }

@[simp] theorem kind_located (f : Fault) (pc : Nat) : (f.located pc).kind = f.kind := rfl

@[simp] theorem detail_located (f : Fault) (pc : Nat) : (f.located pc).detail = f.detail := rfl

theorem pc_located_of_none {f : Fault} (h : f.pc = none) (pc : Nat) :
    (f.located pc).pc = some pc := by
  simp [located, h]

@[simp] theorem located_located (f : Fault) (p q : Nat) :
    (f.located p).located q = f.located p := by
  cases h : f.pc <;> simp [located, h]

end Fault

end Wordcode
