import Wordcode.Journal.Level
import Wordcode.Machine.Basic

/-! Remarks: the things worth noting about a machine and its host. A remark is kept as
what it is about; `level` and `text` say how it is written down. -/

namespace Wordcode

inductive Remark where
  /-- An image of this many words was put into memory. -/
  | loaded (words : Nat) (advance : Advance)
  /-- The image is not run. -/
  | rejected (f : Fault)
  /-- An instruction was fetched and is about to be tried. -/
  | traced (pc : Nat) (i : Instr)
  | queued (pending : Nat)
  | closed
  | faulted (cycles : UInt64) (registers : Registers)
  | halted (pc : Nat) (cycles : UInt64)
  /-- An image file was read. -/
  | imageRead (path : String) (words : Nat)
  /-- Lines come straight from standard input. -/
  | plainInput (reason : String)
  | aborted (f : Fault)
  deriving DecidableEq

namespace Remark

def level : Remark → Level
  | traced .. => .trace
  | loaded .. | queued _ | closed | faulted .. | plainInput _ => .debug
  | halted .. | imageRead .. => .info
  | rejected _ => .warn
  | aborted _ => .error

/-- An address with at least five digits. -/
def showAddress (pc : Nat) : String :=
  String.ofList ((Nat.toDigits 10 pc).leftpad 5 '0')

def text : Remark → String
  | loaded words advance =>
    "loaded image of " ++ toString words ++ " words, " ++ advance.text ++ " advance"
  | rejected f => f.text
  | traced pc i => showAddress pc ++ " " ++ i.opcode.mnemonic ++ " " ++ showWords i.operands
  | queued pending => "queued input line, " ++ toString pending ++ " chars pending"
  | closed => "input closed"
  | faulted cycles registers =>
    "fault after " ++ toString cycles.toNat ++ " cycles: " ++ registers.text
  | halted pc cycles => "halted at " ++ toString pc ++ " after " ++ toString cycles.toNat ++ " cycles"
  | imageRead path words => path ++ ": " ++ toString words ++ " words"
  | plainInput reason => "no line editor (" ++ reason ++ "), reading stdin directly"
  | aborted f => "run aborted: " ++ f.text

def line (r : Remark) (stamp : Option String) : String :=
  r.level.line stamp r.text

end Remark

end Wordcode
