import Std.Time.Format
import Std.Time.Zoned
import Wordcode.Console.Basic

/-! The program on a live terminal: it reads files and lines, prints what the console
wants printed, and writes the journal as it grows. It has no line editor, and no handler for
an interrupt: one ends the program at once, whatever the machine was doing. -/

namespace Wordcode.Terminal

/-- The system's words for a failure, with the number it has there. -/
def streamError (e : IO.Error) : StreamError :=
  let numbered (code : UInt32) (details : String) : StreamError :=
    .other (details ++ " (os error " ++ toString code.toNat ++ ")")
  match e with
  | .noFileOrDirectory _ code details
  | .permissionDenied _ code details
  | .inappropriateType _ code details
  | .invalidArgument _ code details => numbered code details
  | .otherError code details | .hardwareFault code details => numbered code details
  | other => .other (toString other)

def readFile (path : String) : IO (Except StreamError (List UInt8)) := do
  try
    return .ok (← (← IO.FS.Handle.mk path .read).readBinToEnd).toList
  catch e =>
    return .error (streamError e)

/-- The files the options name. -/
def readFiles (o : Options) : IO Files := do
  let image ← readFile o.image
  let script ← match o.script with
    | some path => readFile path
    | none => pure (.ok [])
  return fun path => if path = o.image then image else script

/-- The bytes up to and including the next line feed. -/
partial def readPiece (input : IO.FS.Stream) (piece : Array UInt8) : IO (Array UInt8) := do
  match (← input.read 1).toList with
  | [] => return piece
  | byte :: _ =>
    if byte = 10 then return piece.push byte else readPiece input (piece.push byte)

def readLine (input : IO.FS.Stream) : IO LineReply := do
  try
    return (ByteLines.mk (← readPiece input #[]).toList).readLine.1
  catch e =>
    return .error (streamError e)

/-- Prints a text and flushes it. -/
def print (text : String) : IO (Except StreamError Unit) := do
  try
    let output ← IO.getStdout
    output.putStr text
    output.flush
    return .ok ()
  catch e =>
    return .error (streamError e)

/-- The time that a journal line written now carries. -/
def stamp (o : Options) : IO (Option String) := do
  if o.stamps then
    let now ← Std.Time.PlainDateTime.now
    return some (now.format "uuuu-MM-dd HH:mm:ss.SSS")
  else
    return none

/-- Writes the journal's lines out. -/
def report (o : Options) (j : Journal) : IO Unit := do
  for line in j.lines (← stamp o) do
    IO.eprintln line

def finish (o : Options) (outcome : Outcome) : IO UInt32 := do
  for line in outcome.closing (← stamp o) do
    IO.eprintln line
  return outcome.status.toUInt32

/-- Writes the journal out and empties it. -/
def settle (o : Options) : Console → IO Console
  | ⟨⟨machine, journal⟩, script, cycles⟩ => do
    report o journal
    return ⟨⟨machine, journal.cleared⟩, script, cycles⟩

partial def converse (o : Options) (c : Console) : IO Outcome := do
  match c.turn with
  | .works c => converse o (← settle o c)
  | .prints text c =>
    let c ← settle o c
    match ← print text with
    | .ok () => converse o c
    | .error e => return .broken (.ofStream e)
  | .asks c =>
    let c ← settle o c
    match c.answer (← readLine (← IO.getStdin)) with
    | .ok c => converse o (← settle o c)
    | .error f => return .broken f
  | .ends outcome c =>
    discard (settle o c)
    return outcome

def run (o : Options) : IO UInt32 := do
  match Console.start (← readFiles o) Console.noTerminfo o with
  | .ok c => finish o (← converse o (← settle o c))
  | .error (f, journal) =>
    report o journal
    finish o (.broken f)

end Wordcode.Terminal

def main (args : List String) : IO UInt32 := do
  match Wordcode.Options.parse args with
  | .ok o => Wordcode.Terminal.run o
  | .error usage =>
    let output ← if usage = .help then IO.getStdout else IO.getStderr
    output.putStrLn usage.text
    return usage.status.toUInt32
