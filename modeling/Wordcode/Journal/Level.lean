/-! Levels of the journal and the form of its lines. A line has an optional time stamp,
the level's label padded to five characters and set in the level's style, and the text. -/

namespace Wordcode

inductive Level where
  | trace
  | debug
  | info
  | warn
  | error
  deriving DecidableEq, Repr

namespace Level

/-- Levels in rising order of urgency. -/
def rank : Level → Nat
  | trace => 0
  | debug => 1
  | info => 2
  | warn => 3
  | error => 4

instance : LE Level := ⟨fun a b => a.rank ≤ b.rank⟩

instance : LT Level := ⟨fun a b => a.rank < b.rank⟩

instance (a b : Level) : Decidable (a ≤ b) := inferInstanceAs (Decidable (a.rank ≤ b.rank))

instance (a b : Level) : Decidable (a < b) := inferInstanceAs (Decidable (a.rank < b.rank))

/-- The threshold asked for by a count of verbosity flags. -/
def ofVerbosity : Nat → Level
  | 0 => warn
  | 1 => info
  | 2 => debug
  | _ => trace

def label : Level → String
  | trace => "TRACE"
  | debug => "DEBUG"
  | info => "INFO"
  | warn => "WARN"
  | error => "ERROR"

/-- The level by its name. -/
def inspect : Level → String
  | trace => "Trace"
  | debug => "Debug"
  | info => "Info"
  | warn => "Warn"
  | error => "Error"

end Level

/-- Sets text in a terminal style, given by the style's parameters; no parameters, no style. -/
def styled (parameters text : String) : String :=
  if parameters.isEmpty then text else "\x1b[" ++ parameters ++ "m" ++ text ++ "\x1b[0m"

/-- Text in bold. -/
def bold (text : String) : String :=
  styled "1" text

namespace Level

/-- Dim below information, bold yellow for warnings, bold red for errors. -/
def style : Level → String
  | trace | debug => "2"
  | info => ""
  | warn => "1;33"
  | error => "1;31"

/-- The label at its full width of five characters. -/
def tag (l : Level) : String :=
  l.label ++ String.ofList (List.replicate (5 - l.label.length) ' ')

def line (l : Level) (stamp : Option String) (text : String) : String :=
  let time := match stamp with
    | some t => t ++ " "
    | none => ""
  time ++ styled l.style l.tag ++ " " ++ text

/-- The line, if the threshold lets it through. -/
def line? (l threshold : Level) (stamp : Option String) (text : String) : Option String :=
  if threshold ≤ l then some (l.line stamp text) else none

theorem le_refl (a : Level) : a ≤ a := Nat.le_refl a.rank

theorem le_trans {a b c : Level} (hab : a ≤ b) (hbc : b ≤ c) : a ≤ c := Nat.le_trans hab hbc

theorem trace_le (a : Level) : trace ≤ a := Nat.zero_le a.rank

end Level

end Wordcode
