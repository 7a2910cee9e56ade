import Wordcode.Console.Basic

/-! A whole run of the command line on given files and a given standard input, with
everything it writes. Standard output takes all of it; a live terminal may fail there. -/

namespace Wordcode

universe u

structure Transcript where
  status : UInt8
  stdout : String := ""
  stderr : List String := []
  deriving DecidableEq, Repr

namespace Console

variable {σ : Type u} [LineSource σ]

/-- Plays at most `turns` turns, adding to what was printed before; `none` if the run has
not ended by then. -/
def play : (turns : Nat) → σ → String → Console → Option (Outcome × String × Console)
  | 0, _, _, _ => none
  | turns + 1, stdin, printed, c =>
    match c.turn with
    | .works c => play turns stdin printed c
    | .prints text c => play turns stdin (printed ++ text) c
    | .ends outcome c => some (outcome, printed, c)
    | .asks c =>
      match LineSource.readLine stdin with
      | (reply, stdin) =>
        match c.answer reply with
        | .ok c => play turns stdin printed c
        | .error f => some (.broken f, printed, c)

end Console

namespace Transcript

/-- The transcript of a run that ended. -/
def close (stamp : Option String) (journal : Journal) (printed : String) (outcome : Outcome) :
    Transcript :=
  { status := outcome.status
    stdout := printed
    stderr := journal.lines stamp ++ outcome.closing stamp }

/-- Runs what the options ask for, for at most `turns` turns. `time` is what stands for the
time on every journal line, `reason` is why there is no line editor. -/
def ofOptions (turns : Nat) (files : Files) (stdin : List UInt8) (time reason : String)
    (o : Options) : Option Transcript :=
  match Console.start files reason o with
  | .error (f, journal) => some (close (o.stamp time) journal "" (.broken f))
  | .ok c =>
    (c.play turns (ByteLines.mk stdin) "").map fun (outcome, printed, c) =>
      close (o.stamp time) c.session.journal printed outcome

/-- Runs the command line for at most `turns` turns. -/
def record (turns : Nat) (files : Files) (stdin : List UInt8) (time : String)
    (args : List String) (reason : String := Console.noTerminfo) : Option Transcript :=
  match Options.parse args with
  | .error .help => some { status := Usage.help.status, stdout := Usage.help.text ++ "\n" }
  | .error usage => some { status := usage.status, stderr := [usage.text] }
  | .ok o => ofOptions turns files stdin time reason o

end Transcript

end Wordcode
