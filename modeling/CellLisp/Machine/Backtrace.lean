import CellLisp.State
import CellLisp.Object

/-!
# `CellLisp.Machine.Backtrace` — the procedures under way

From the current frame the saved words lead to the frame of the caller, and so on until
the code that every run returns into.  Each step is determined by the frame alone, so a
walk longer than the stack has gone round in a circle.
-/

namespace CellLisp

/-- Names of the procedures from the frame at `fp` outward, at most `n`. -/
def State.framesFrom (s : State) : Nat → Value → Nat → List String
  | 0, _, _ => []
  | n + 1, code, fp =>
    if !code.isBytecode || code = s.known.halt then []
    else
      let name := s.heap.procName code
      if fp < 3 then [name]
      else match s.machine.stack[fp - 3]?, s.machine.stack[fp - 1]? with
        | some caller, some saved => name :: s.framesFrom n caller saved.word
        | _, _ => [name]

/-- Names of the procedures under way, innermost first. -/
def State.backtrace (s : State) : List String :=
  let m := s.machine
  (m.native.map s.heap.procName).toList ++ s.framesFrom (m.stack.size + 2) m.code m.fp

end CellLisp
