import CellLisp.Heap.Collect
import CellLisp.World

/-!
# `CellLisp.State` — the whole of a running system

`State` joins the heap, the table of symbols, the machine, the stack of protected
values and the world.  `Act α` is an action on it that yields an `α`, or stops with
an error or a fatal failure; what was done before stays done either way.
-/

namespace CellLisp

/-- What happens when a run fails. -/
inductive DebugMode where
  /-- Ask on the console whether to inspect the machine first. -/
  | interactive
  /-- Log the failure and unwind at once. -/
  | abort
  deriving DecidableEq, Inhabited, Repr

/-- Sizes and behaviour chosen at the start. -/
structure Config where
  /-- Cells in the pool, cell zero included. -/
  cells : Nat := 65536
  /-- Bytes of the payload arena. -/
  payloadBytes : Nat := 4194304
  /-- Limit of the operand stack. -/
  stackSize : Nat := 65536
  /-- Limit of the stack of protected values. -/
  rootCapacity : Nat := 4096
  /-- Number of free cells at which an allocation collects first. -/
  lowWater : Nat := 64
  /-- Buckets of the symbol table. -/
  symbolBuckets : Nat := 1024
  /-- What happens when a run fails. -/
  debugger : DebugMode := .abort
  /-- Whether to start with the core library. -/
  coreLibrary : Bool := true
  /-- Instructions that one run may take. -/
  stepLimit : Nat := 1 <<< 62
  /-- Depth to which forms may be nested, expansions included. -/
  depthLimit : Nat := 1 <<< 40
  deriving Inhabited, Repr

/-- Symbols interned in a table of chains. -/
structure SymbolTable where
  /-- First symbol of each chain, or nil. -/
  buckets : Array Value
  /-- Symbols interned. -/
  count : Nat
  deriving Inhabited, Repr

/-- Symbols and objects that the system itself refers to. -/
structure WellKnown where
  quote : Value := .nil
  letForm : Value := .nil
  dynamicLet : Value := .nil
  set : Value := .nil
  comptime : Value := .nil
  namedLambda : Value := .nil
  doForm : Value := .nil
  ifForm : Value := .nil
  withCont : Value := .nil
  exit : Value := .nil
  loop : Value := .nil
  t : Value := .nil
  standardOutput : Value := .nil
  standardInput : Value := .nil
  toplevel : Value := .nil
  plainRole : Value := .nil
  constantRole : Value := .nil
  functionRole : Value := .nil
  expanderRole : Value := .nil
  /-- The one-instruction procedure that every run returns into. -/
  halt : Value := .nil
  /-- The procedure that compiled code calls to make a closure. -/
  makeClosure : Value := .nil
  deriving Inhabited, Repr

/-- A dynamic binding and the global value it displaced. -/
structure DynBinding where
  /-- The symbol bound. -/
  symbol : Value
  /-- Its global value before, if it had one. -/
  old : Option Value
  deriving Inhabited, Repr

/-- Registers and stacks of the machine. -/
structure Machine where
  /-- Value register. -/
  val : Value := .nil
  /-- Code being executed. -/
  code : Value := .nil
  /-- Next instruction. -/
  pc : Nat := 0
  /-- Stack index just past the saved words of the current frame. -/
  fp : Nat := 0
  /-- Argument count of the latest call. -/
  argc : Nat := 0
  /-- Operand stack, its top last. -/
  stack : Array Value := #[]
  /-- Limit of the operand stack. -/
  limit : Nat
  /-- Dynamic bindings in force, the newest last. -/
  dyns : Array DynBinding := #[]
  /-- Continuations established, the newest last. -/
  conts : Array Value := #[]
  /-- Whether a run is under way. -/
  running : Bool := false
  /-- Built-in procedure being called, if any. -/
  native : Option Value := none
  deriving Inhabited, Repr

/-- Report of a run that failed. -/
structure Failure where
  /-- Wording of the error. -/
  error : String
  /-- Names of the active procedures, innermost first. -/
  frames : List String
  /-- Operand stack depth. -/
  depth : Nat
  deriving Inhabited, Repr

/-- The whole system. -/
structure State where
  heap : Heap
  symbols : SymbolTable
  machine : Machine
  /-- Protected values, which a collection keeps. -/
  roots : Array Value
  known : WellKnown
  config : Config
  /-- Uninterned symbols made so far. -/
  gensyms : Nat
  /-- Report of the latest run that failed. -/
  failure : Option Failure
  world : World
  deriving Inhabited

/-- Why an action stops. -/
inductive Stop where
  | error (cause : Error)
  | fatal (cause : Fatal)
  deriving Inhabited, Repr

/-- An action on the state. -/
abbrev Act := EStateM Stop State

/-- Stops with an error. -/
@[inline] def fail {α : Type} (cause : Error) : Act α := throw (.error cause)

/-- Stops for good. -/
@[inline] def halt {α : Type} (cause : Fatal) : Act α := throw (.fatal cause)

/-- A view of the state. -/
@[inline] def gets {α : Type} (f : State → α) : Act α := do return f (← get)

/-- Changes the heap. -/
@[inline] def modifyHeap (f : Heap → Heap) : Act Unit :=
  modify fun s => { s with heap := f s.heap }

/-- Changes the machine. -/
@[inline] def modifyMachine (f : Machine → Machine) : Act Unit :=
  modify fun s => { s with machine := f s.machine }

/-- Changes the world. -/
@[inline] def modifyWorld (f : World → World) : Act Unit :=
  modify fun s => { s with world := f s.world }

/-- Asks the world something, which may change it. -/
@[inline] def onWorld {α : Type} (f : World → α × World) : Act α :=
  modifyGet fun s =>
    let (a, world) := f s.world
    (a, { s with world })

/-- Writes a log line. -/
def logLine (level : LogLevel) (text : String) : Act Unit := modifyWorld (·.addLog level text)

end CellLisp
