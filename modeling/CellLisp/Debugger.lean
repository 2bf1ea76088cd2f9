import CellLisp.Code.Listing
import CellLisp.Machine.Backtrace

/-!
# `CellLisp.Debugger` — what happens when a run fails

Either the failure is logged, or the user is asked on the console whether to look at the
stopped machine.

    command          shows
    frames, f        the procedures under way
    stack, s         the top of the operand stack
    regs, r          the registers
    code, c          a listing of the current code
    abort, a, quit, q   leaves

Looking changes nothing but the console.
-/

namespace CellLisp

namespace Debugger

/-- Values that the stack command shows. -/
def stackShown : Nat := 16

/-- Lines numbered from `n` on, behind a text. -/
def numberedFrom (acc : String) (n : Nat) : List String → String
  | [] => acc
  | t :: rest => numberedFrom (acc ++ Text.padLeft 3 n ++ "  " ++ t ++ "\n") (n + 1) rest

/-- Lines numbered from zero on. -/
def numbered (items : List String) : String := numberedFrom "" 0 items

/-- The top of the operand stack. -/
def stackText (s : State) : String :=
  let stack := s.machine.stack
  let top := (stack.extract (stack.size - stackShown) stack.size).toList.reverse
  let rest := stack.size - stackShown
  numbered (top.map s.heap.print)
    ++ (if rest = 0 then "" else "     ... " ++ toString rest ++ " more\n")

/-- The registers. -/
def registersText (s : State) : String :=
  let m := s.machine
  "pc " ++ toString m.pc ++ "  fp " ++ toString m.fp ++ "  depth " ++ toString m.stack.size
    ++ "  dynamic " ++ toString m.dyns.size ++ "  continuations " ++ toString m.conts.size
    ++ "\nval " ++ s.heap.print m.val ++ "\n"

/-- What a command shows; `none` when it leaves. -/
def respond (s : State) (failure : Failure) (command : String) : Option String :=
  match command with
  | "frames" | "f" => some (numbered failure.frames)
  | "stack" | "s" => some (stackText s)
  | "regs" | "r" => some (registersText s)
  | "code" | "c" => some (if s.machine.code.isBytecode then s.heap.listing s.machine.code else "")
  | "abort" | "a" | "quit" | "q" => none
  | "" => some ""
  | other => some ("unknown command " ++ other ++ "; try frames, stack, regs, code or abort\n")

/-- The console after a session, and whether its input was readable throughout. -/
structure Ended where
  /-- Console, log and files. -/
  world : World
  /-- Whether the input was UTF-8. -/
  readable : Bool

/-- Answers commands until one leaves or the input ends; at most `n` of them. -/
def commands (s : State) (failure : Failure) : Nat → World → Ended
  | 0, w => ⟨w, true⟩
  | n + 1, w =>
    match (w.print "debug> ").readLine with
    | (.endOfInput, w) => ⟨w, true⟩
    | (.malformed, w) => ⟨w, false⟩
    | (.text line, w) =>
      match respond s failure (Text.trim line) with
      | some text => commands s failure n (w.print text)
      | none => ⟨w, true⟩

/-- A session on the console. -/
def session (s : State) (failure : Failure) : Ended :=
  let w := s.world.print
    ("error: " ++ failure.error ++ "\n" ++ numbered failure.frames ++ "[a]bort or [b]reak? ")
  match w.readLine with
  | (.endOfInput, w) => ⟨w, true⟩
  | (.malformed, w) => ⟨w, false⟩
  | (.text line, w) =>
    if (Text.trim line).startsWith "b" then commands s failure (w.input.length + 1) w
    else ⟨w, true⟩

end Debugger

/-- Reports a failed run in the way that the configuration asks for. -/
def reportFailure (cause : Error) : Act Unit := do
  let s ← get
  let failure : Failure := ⟨cause.message, s.backtrace, s.machine.stack.size⟩
  match s.config.debugger with
  | .abort =>
    logLine .error failure.error
    if !failure.frames.isEmpty then
      logLine .error ("in " ++ String.intercalate " <- " failure.frames)
  | .interactive =>
    let ended := Debugger.session s failure
    modify fun s => { s with world := ended.world }
    if !ended.readable then
      logLine .error ("debugger console failed: " ++ IoFault.sourceNotUtf8.message)
  modify fun s => { s with failure := some failure }

end CellLisp
