import Wordcode.Host.Run

/-! The sessions a host can bring about: it boots one on any image and then executes,
enters lines, closes the input and runs to the end, in any order. -/

namespace Wordcode.Session

inductive Reachable : Session → Prop where
  | boot (threshold : Level) (image : List Word) (advance : Advance) :
      Reachable (boot { threshold := threshold } image advance)
  | execute {s : Session} (budget : Nat) : Reachable s → Reachable (s.execute budget).2
  | enter {s : Session} (line : String) : Reachable s → Reachable (s.enter line)
  | close {s : Session} : Reachable s → Reachable s.close
  | run {σ κ : Type} [LineSource σ] [Sink κ] {rounds : Nat} {r t : Run σ κ}
      {result : Except Fault Unit} :
      Reachable r.session → r.drive rounds = some (result, t) → Reachable t.session

end Wordcode.Session
