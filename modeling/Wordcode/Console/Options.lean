import Wordcode.Machine.Basic

/-! The command line. Arguments are read from left to right and the first one that does
not fit decides why they are refused. Options may stand before or behind the image path;
`--` makes everything behind it a path. -/

namespace Wordcode

/-- What the command line asks for. -/
structure Options where
  image : String
  script : Option String := none
  advance : Advance := .scan
  /-- The number of instructions executed between two looks at the outside. -/
  cycles : Nat := 5000
  verbosity : Nat := 0
  /-- Whether journal lines carry the time. -/
  stamps : Bool := true
  deriving DecidableEq, Repr

/-- What stands for the time on the lines of the journal. -/
def Options.stamp (o : Options) (time : String) : Option String :=
  if o.stamps then some time else none

/-- Why there is nothing to run. -/
inductive Usage where
  | help
  | unknownOption (option : String)
  | repeatedOption (option : String)
  | missingValue (option : String)
  | unexpectedValue (option : String)
  | invalidValue (option value : String)
  | unexpectedArgument (argument : String)
  | missingImage
  deriving DecidableEq, Repr

namespace Usage

/-- The wording of the help, and of every refusal, is this library's own. What a host may rely on
is the status, and that help goes to standard output and a refusal to standard error. -/
def synopsis : String :=
  "usage: wordcode [--script FILE] [--flat-advance] [--cycles N] [-v|--verbose] [--no-timestamps] IMAGE"

/-- The words for it, this library's own like the synopsis. -/
def text : Usage → String
  | help => synopsis
  | unknownOption option => "unknown option " ++ option ++ "\n" ++ synopsis
  | repeatedOption option => "option " ++ option ++ " given twice\n" ++ synopsis
  | missingValue option => "option " ++ option ++ " needs a value\n" ++ synopsis
  | unexpectedValue option => "option " ++ option ++ " takes no value\n" ++ synopsis
  | invalidValue option value => "invalid value '" ++ value ++ "' for " ++ option ++ "\n" ++ synopsis
  | unexpectedArgument argument => "unexpected argument " ++ argument ++ "\n" ++ synopsis
  | missingImage => "no image given\n" ++ synopsis

def status : Usage → UInt8
  | help => 0
  | _ => 2

end Usage

/-! ## Arguments -/

/-- The kinds of arguments, by their leading hyphens. -/
inductive Argument where
  | plain (text : String)
  /-- A cluster of one-letter flags behind a single hyphen. -/
  | flags (letters : List Char)
  /-- An option by its name, with the value behind `=` if there is one. -/
  | named (name : String) (value : Option String)
  /-- Two hyphens and nothing else. -/
  | separator
  deriving DecidableEq, Repr

/-- A single hyphen is an ordinary argument. -/
def Argument.ofString (arg : String) : Argument :=
  match arg.toList with
  | ['-', '-'] => .separator
  | '-' :: '-' :: rest =>
    let name := String.ofList (rest.takeWhile (· ≠ '='))
    match rest.dropWhile (· ≠ '=') with
    | [] => .named name none
    | _ :: value => .named name (some (String.ofList value))
  | ['-'] => .plain arg
  | '-' :: letters => .flags letters
  | _ => .plain arg

/-- A decimal number of at most 64 bits; a leading plus sign and leading zeros are allowed. -/
def readCount? (text : String) : Option Nat :=
  let digits := match text.toList with
    | '+' :: rest => rest
    | cs => cs
  if digits ≠ [] ∧ digits.all Char.isDigit then
    let n := Nat.ofDigitChars 10 digits 0
    if n < UInt64.size then some n else none
  else
    none

/-! ## Reading the arguments -/

/-- What has been asked for so far. -/
structure Options.Draft where
  image : Option String := none
  script : Option String := none
  flat : Bool := false
  cycles : Option Nat := none
  verbosity : Nat := 0
  unstamped : Bool := false
  deriving DecidableEq, Repr

namespace Options.Draft

/-- Takes the image path. -/
def place (d : Draft) (path : String) : Except Usage Draft :=
  if d.image.isSome then
    throw (.unexpectedArgument path)
  else if path.isEmpty then
    throw (.invalidValue "IMAGE" path)
  else
    return { d with image := some path }

def flag (d : Draft) : Char → Except Usage Draft
  | 'v' => return { d with verbosity := d.verbosity + 1 }
  | 'h' => throw .help
  | letter => throw (.unknownOption ("-" ++ letter.toString))

/-- Takes an option that has no value. -/
def switch (d : Draft) (name : String) : Except Usage Draft :=
  match name with
  | "verbose" => d.flag 'v'
  | "help" => throw .help
  | "flat-advance" =>
    if d.flat then throw (.repeatedOption "--flat-advance") else return { d with flat := true }
  | "no-timestamps" =>
    if d.unstamped then throw (.repeatedOption "--no-timestamps")
    else return { d with unstamped := true }
  | _ => throw (.unknownOption ("--" ++ name))

def takesValue (name : String) : Bool :=
  name = "script" ∨ name = "cycles"

/-- Takes an option with its value. -/
def assign (d : Draft) (name value : String) : Except Usage Draft :=
  match name with
  | "script" =>
    if d.script.isSome then throw (.repeatedOption "--script")
    else if value.isEmpty then throw (.invalidValue "--script" value)
    else return { d with script := some value }
  | "cycles" =>
    if d.cycles.isSome then throw (.repeatedOption "--cycles")
    else
      match readCount? value with
      | some (n + 1) => return { d with cycles := some (n + 1) }
      | _ => throw (.invalidValue "--cycles" value)
  | _ =>
    match d.switch name with
    | .ok _ | .error .help => throw (.unexpectedValue ("--" ++ name))
    | .error e => throw e

/-- Reads the arguments. The value of an option may stand in the next argument, if that
does not look like an option itself. -/
def read (d : Draft) : List String → Except Usage Draft
  | [] => return d
  | arg :: rest =>
    match Argument.ofString arg with
    | .separator => rest.foldlM place d
    | .plain path => do (← d.place path).read rest
    | .flags letters => do (← letters.foldlM flag d).read rest
    | .named name (some value) => do (← d.assign name value).read rest
    | .named name none =>
      if takesValue name then
        match rest with
        | [] => throw (.missingValue ("--" ++ name))
        | value :: rest =>
          match Argument.ofString value with
          | .plain value => do (← d.assign name value).read rest
          | _ => throw (.missingValue ("--" ++ name))
      else do
        (← d.switch name).read rest

/-- Everything but the image may be left out. -/
def finish (d : Draft) : Except Usage Options :=
  match d.image with
  | none => throw .missingImage
  | some image =>
    return {
      image
      script := d.script
      advance := if d.flat then .flat else .scan
      cycles := d.cycles.getD 5000
      verbosity := d.verbosity
      stamps := !d.unstamped }

end Options.Draft

def Options.parse (args : List String) : Except Usage Options := do
  (← Draft.read {} args).finish

end Wordcode
