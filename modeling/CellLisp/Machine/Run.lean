import CellLisp.Debugger
import CellLisp.Machine.Step

/-!
# `CellLisp.Machine.Run` — runs

A run calls a procedure from outside the machine and ends when it returns into the
well-known `halt` code.  If the run fails, everything it left behind is undone: dynamic
bindings, continuations, operands; the registers are as before, and the error is passed
on as `aborted`.  Only one run can be under way.
-/

namespace CellLisp

/-- Carries out instructions until the machine stops, at most `n`. -/
def runSteps : Nat → Act Unit
  | 0 => halt .stepLimit
  | n + 1 => do if ← step then return () else runSteps n

/-- Calls a procedure and runs the machine until it returns. -/
def runBody (procedure : Value) (args : Array Value) : Act Unit := do
  args.forM push
  let fp ← gets (·.machine.fp)
  enter procedure args.size ⟨← gets (·.known.halt), 0, fp⟩
  runSteps (← gets (·.config.stepLimit))

/-- The state of the machine to go back to. -/
structure Checkpoint where
  /-- Operand stack depth. -/
  sp : Nat
  /-- Dynamic binding depth. -/
  dynDepth : Nat
  /-- Number of continuations. -/
  conts : Nat
  /-- Registers. -/
  registers : Return
  deriving Inhabited, Repr

/-- The checkpoint of a machine. -/
def Machine.checkpoint (m : Machine) : Checkpoint :=
  ⟨m.stack.size, m.dyns.size, m.conts.size, ⟨m.code, m.pc, m.fp⟩⟩

/-- Undoes what a failed run left behind. -/
def abortTo (c : Checkpoint) : Act Unit := do
  unwind c.dynDepth
  dropConts c.conts
  modifyMachine fun m =>
    { (m.truncate c.sp).resume c.registers with native := none, val := .nil }
  logLine .debug ("aborted to depth " ++ toString c.sp)

/-- Marks the machine as running or as idle. -/
@[inline] def State.setRunning (s : State) (running : Bool) : State :=
  { s with machine := { s.machine with running } }

/-- Runs an action with the machine marked as running; the error it fails with, if it
does. -/
def guarded (act : Act Unit) : Act (Option Error) := fun s =>
  match act (s.setRunning true) with
  | .ok _ s => .ok none (s.setRunning false)
  | .error (.error cause) s => .ok (some cause) (s.setRunning false)
  | .error (.fatal cause) s => .error (.fatal cause) s

/-- Calls a procedure with arguments. -/
def invoke : Caller := fun procedure args => do
  if (← gets (·.machine.running)) then fail .reentrant
  let c ← gets (·.machine.checkpoint)
  match ← guarded (runBody procedure args) with
  | none =>
    modifyMachine fun m => (m.truncate c.sp).resume c.registers
    gets (·.machine.val)
  | some cause =>
    reportFailure cause
    abortTo c
    fail (.aborted cause)

/-- Runs a compiled unit. -/
def run (unit : Value) : Act Value := invoke unit #[]

/-- Evaluates every form of a text; yields the last value. -/
def evalText (text : String) : Act Value := evalTextWith invoke text

end CellLisp
