import Wordcode.Code.Image
import Wordcode.Code.Instr
import Wordcode.Code.Opcode
import Wordcode.Code.Operand
import Wordcode.Code.Operator
import Wordcode.Code.Word
import Wordcode.Console.Basic
import Wordcode.Console.Options
import Wordcode.Console.Transcript
import Wordcode.Fault
import Wordcode.Host.Lines
import Wordcode.Host.Pieces
import Wordcode.Host.Reachable
import Wordcode.Host.Run
import Wordcode.Host.Session
import Wordcode.Host.Sink
import Wordcode.Journal.Basic
import Wordcode.Journal.Level
import Wordcode.Journal.Remark
import Wordcode.Machine.Basic
import Wordcode.Machine.Fetch
import Wordcode.Machine.Input
import Wordcode.Machine.Plan
import Wordcode.Machine.Step
import Wordcode.Machine.Storage
import Wordcode.Main
import Wordcode.Proofs.Console.Cycles
import Wordcode.Proofs.Host.Faults
import Wordcode.Proofs.Host.History
import Wordcode.Proofs.Host.Integrity
import Wordcode.Proofs.Host.Loop
import Wordcode.Proofs.Host.Slices
import Wordcode.Proofs.Machine.Bounds
import Wordcode.Proofs.Machine.Diagnosis
import Wordcode.Proofs.Machine.Encoding
import Wordcode.Proofs.Machine.Rules
import Wordcode.Proofs.Machine.Trial
import Wordcode.Proofs.Host.Calls
import Wordcode.Proofs.Machine.Advance
import Wordcode.Proofs.Host.Brackets
import Wordcode.Proofs.Host.Lockstep
import Wordcode.Proofs.Host.Alignment
import Wordcode.Proofs.Machine.Reading
import Wordcode.Proofs.Host.Supply
import Wordcode.Proofs.Host.Intake
import Wordcode.Proofs.Host.Delivery
import Wordcode.Proofs.Host.Endings
import Wordcode.Proofs.Host.Handshake
import Wordcode.Proofs.Host.Output
import Wordcode.Proofs.Code.RoundTrip
import Wordcode.Proofs.Host.TextBytes
import Wordcode.Proofs.Host.Echo
import Wordcode.Proofs.Host.Verbosity
import Wordcode.Proofs.Console.Agreement
import Wordcode.Proofs.Host.Arithmetic
import Wordcode.Proofs.Host.Footprint
import Wordcode.Proofs.Host.Landing
import Wordcode.Proofs.Host.Progress
import Wordcode.Proofs.Host.StraightLine
import Wordcode.Proofs.Host.Padding
import Wordcode.Proofs.Host.ByteLines
import Wordcode.Proofs.Host.Replay
import Wordcode.Proofs.Host.Location
import Wordcode.Proofs.FaultText
import Wordcode.Proofs.Host.Tracing
import Wordcode.Proofs.Machine.Handlers
