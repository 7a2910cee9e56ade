import Wordcode.Console.Options
import Wordcode.Host.Session
import Wordcode.Host.Lines
import Wordcode.Code.Image

/-! The console couples a session to a terminal. Script lines are replayed and shown
before any line is read from standard input. What the console wants from outside comes
out of `Console.turn` as data, so the same turns serve a live terminal and a recorded
one. -/

namespace Wordcode

/-- How files are read: by path, whole. -/
abbrev Files := String → Except StreamError (List UInt8)

/-- How a run from the command line ends. The interrupt that would end it between two slices or
while a line is read, with status 130, is left out. -/
inductive Outcome where
  | halted
  /-- The machine faulted. -/
  | faulted (f : Fault)
  /-- A file or a stream failed, standard output among them, or the image was refused. -/
  | broken (f : Fault)
  deriving DecidableEq, Repr

namespace Outcome

def status : Outcome → UInt8
  | halted => 0
  | faulted _ | broken _ => 1

/-- The last lines written for the user. Only a fault of the machine is set off by an
empty line and noted as an error. -/
def closing (stamp : Option String) : Outcome → List String
  | halted => []
  | faulted f => ["", bold f.text, (Remark.aborted f).line stamp]
  | broken f => [bold f.text]

end Outcome

structure Console where
  session : Session
  script : List String
  cycles : Nat

/-- What the console has to tell the outside, or to get from it. -/
inductive Console.Turn where
  | works (c : Console)
  /-- Text for standard output. -/
  | prints (text : String) (c : Console)
  /-- A line is wanted from standard input. -/
  | asks (c : Console)
  | ends (outcome : Outcome) (c : Console)

namespace Console

/-- Why there is no line editor on a terminal that nothing is known of. -/
def noTerminfo : String := "terminfo entry not found"

/-- Loads the image and the script and boots the machine. The journal tells how far it
came, also when it fails. Lines always come straight from standard input: `reason` is why
there is no line editor to read them with. -/
def start (files : Files) (reason : String) (o : Options) :
    Except (Fault × Journal) Console := do
  let journal : Journal := { threshold := .ofVerbosity o.verbosity }
  let image ← ((files o.image).mapError .ofStream >>= Image.load).mapError (·, journal)
  let journal := journal.note (.imageRead o.image image.length)
  let script ← match o.script with
    | none => pure []
    | some path =>
      ((files path >>= decodeUtf8).map textLines).mapError (.ofStream ·, journal)
  let journal := journal.note (.plainInput reason)
  return { session := .boot journal image o.advance, script, cycles := o.cycles }

/-- Executes one slice. -/
def turn : Console → Turn
  | ⟨session, script, cycles⟩ =>
    match session.execute cycles with
    | (none, s) => .works ⟨s, script, cycles⟩
    | (some (.print c), s) => .prints c.toString ⟨s, script, cycles⟩
    | (some .input, s) =>
      match script with
      | line :: rest => .prints (line ++ "\n") ⟨s.enter line, rest, cycles⟩
      | [] => .asks ⟨s, [], cycles⟩
    | (some .halted, s) => .ends .halted ⟨s, script, cycles⟩
    | (some (.fault f), s) => .ends (.faulted f) ⟨s, script, cycles⟩

/-- Hands over what came from standard input. A failed read ends the run and leaves the
machine as it is. -/
def answer : Console → LineReply → Except Fault Console
  | ⟨session, script, cycles⟩, .ok (some line) => .ok ⟨session.enter line, script, cycles⟩
  | ⟨session, script, cycles⟩, .ok none => .ok ⟨session.close, script, cycles⟩
  | _, .error e => .error (.ofStream e)

end Console

end Wordcode
