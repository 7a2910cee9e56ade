import Wordcode.Fault
import Wordcode.Host.Pieces

/-! Where lines come from. A line source is read one line at a time; it may fail, and
it may run dry, which is not an error. -/

namespace Wordcode

universe u

/-- What can go wrong with a stream of bytes. -/
inductive StreamError where
  | invalidUtf8
  /-- A write took no byte at all. -/
  | nothingWritten
  | other (text : String)
  deriving DecidableEq, Repr

def StreamError.text : StreamError → String
  | invalidUtf8 => "stream did not contain valid UTF-8"
  | nothingWritten => "failed to write whole buffer"
  | other text => text

/-- A failed stream as a fault of the machine that uses it. -/
def Fault.ofStream (e : StreamError) : Fault :=
  { kind := .io, detail := e.text }

/-- The answer to a request for a line: `none` at the end of the stream. -/
abbrev LineReply := Except StreamError (Option String)

class LineSource (σ : Type u) where
  readLine : σ → LineReply × σ

/-- The text of bytes in UTF-8. -/
def decodeUtf8 (bytes : List UInt8) : Except StreamError String :=
  match String.fromUTF8? bytes.toByteArray with
  | some text => .ok text
  | none => .error .invalidUtf8

/-- Has no line. -/
structure Silence where
  deriving DecidableEq, Repr

instance : LineSource Silence where
  readLine s := (.ok none, s)

/-- Bytes still to be read as lines. -/
structure ByteLines where
  bytes : List UInt8
  deriving DecidableEq, Repr

/-- Takes the bytes up to and including the next line feed. They are used up also when
they are no text. -/
def ByteLines.readLine (s : ByteLines) : LineReply × ByteLines :=
  match s.bytes with
  | [] => (.ok none, s)
  | bytes =>
    match cut (· = 10) bytes with
    | (piece, rest) => ((decodeUtf8 piece).map some, ⟨rest⟩)

instance : LineSource ByteLines := ⟨ByteLines.readLine⟩

/-- Answers prepared in advance; once they are used up there is no line. -/
structure Replies where
  answers : List LineReply

def Replies.readLine : Replies → LineReply × Replies
  | ⟨[]⟩ => (.ok none, ⟨[]⟩)
  | ⟨answer :: rest⟩ => (answer, ⟨rest⟩)

instance : LineSource Replies := ⟨Replies.readLine⟩

/-- Lines to replay before another source is read. -/
structure Script (σ : Type u) where
  lines : List String
  after : σ

namespace Script

variable {σ : Type u} [LineSource σ]

def remaining (s : Script σ) : Nat :=
  s.lines.length

def readLine : Script σ → LineReply × Script σ
  | ⟨line :: rest, after⟩ => (.ok (some line), ⟨rest, after⟩)
  | ⟨[], after⟩ =>
    match LineSource.readLine after with
    | (reply, after) => (reply, ⟨[], after⟩)

instance : LineSource (Script σ) := ⟨readLine⟩

end Script

end Wordcode
