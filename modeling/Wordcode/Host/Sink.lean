import Wordcode.Host.Lines

/-! Where printed characters go. A sink may take fewer bytes than it is offered, so a
character is offered until all its bytes are taken; then the sink is flushed. -/

namespace Wordcode

universe u

class Sink (κ : Type u) where
  /-- Offers bytes; the answer is how many were taken. -/
  write : κ → List UInt8 → Except StreamError Nat × κ
  flush : κ → Except StreamError Unit × κ

namespace Sink

variable {κ : Type u} [Sink κ]

/-- Offers the bytes until all are taken. Taking none is an error. -/
def writeAll (k : κ) (bytes : List UInt8) : Except StreamError Unit × κ :=
  match bytes with
  | [] => (.ok (), k)
  | b :: bs =>
    match write k (b :: bs) with
    | (.error e, k) => (.error e, k)
    | (.ok 0, k) => (.error .nothingWritten, k)
    | (.ok (n + 1), k) => writeAll k (bs.drop n)
termination_by bytes.length

/-- Writes one character and flushes. -/
def put (k : κ) (c : Char) : Except StreamError Unit × κ :=
  match writeAll k (String.utf8EncodeChar c) with
  | (.ok (), k) => flush k
  | failed => failed

end Sink

/-- A sink that keeps what it takes. It can be given a capacity, and one of its flushes
can be made to fail. -/
structure BoundedSink where
  accepted : Array UInt8 := #[]
  flushes : Nat := 0
  /-- The number of bytes it takes in all, if that is bounded. -/
  capacity : Option Nat := none
  /-- Whether a full sink reports that it took nothing instead of failing. -/
  stalls : Bool := false
  /-- Which flush fails, counted from one. -/
  failingFlush : Option Nat := none
  deriving DecidableEq, Repr

namespace BoundedSink

/-- How many of `count` bytes still fit. -/
def room (k : BoundedSink) (count : Nat) : Nat :=
  match k.capacity with
  | none => count
  | some capacity => min count (capacity - k.accepted.size)

def write (k : BoundedSink) (bytes : List UInt8) : Except StreamError Nat × BoundedSink :=
  let taken := k.room bytes.length
  if taken = 0 ∧ bytes ≠ [] then
    (if k.stalls then .ok 0 else .error (.other "closed"), k)
  else
    (.ok taken, { k with accepted := k.accepted ++ bytes.take taken })

def flush (k : BoundedSink) : Except StreamError Unit × BoundedSink :=
  let k := { k with flushes := k.flushes + 1 }
  (if k.failingFlush = some k.flushes then .error (.other "flush failed") else .ok (), k)

instance : Sink BoundedSink := ⟨write, flush⟩

end BoundedSink

end Wordcode
