/-! Pending input. Lines are entered whole and handed out one character at a time;
each entered line ends in exactly one line feed, whatever ended it before. -/

namespace Wordcode

/-- Drops one trailing `c`, if there is one. -/
def dropFinal (c : Char) (cs : List Char) : List Char :=
  if cs.getLast? = some c then cs.dropLast else cs

/-- The characters queued for a line: a final line feed and then a final carriage return
are dropped, and one line feed is added. -/
def lineChars (line : String) : List Char :=
  dropFinal '\r' (dropFinal '\n' line.toList) ++ ['\n']

/-- Characters that wait to be read, and whether no line will follow them. -/
structure Input where
  pending : List Char := []
  closed : Bool := false
  deriving DecidableEq, Repr

namespace Input

def enter (inp : Input) (line : String) : Input :=
  { inp with pending := inp.pending ++ lineChars line }

def close (inp : Input) : Input :=
  { inp with closed := true }

def next? (inp : Input) : Option Char :=
  inp.pending.head?

def drop (inp : Input) : Input :=
  { inp with pending := inp.pending.tail }

/-- Takes the first character off the queue. -/
def take? (inp : Input) : Option (Char × Input) :=
  inp.next?.map (·, inp.drop)

def size (inp : Input) : Nat :=
  inp.pending.length

end Input

theorem lineChars_ne_nil (line : String) : lineChars line ≠ [] := by
  simp [lineChars]

end Wordcode
