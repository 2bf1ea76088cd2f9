import CellLisp.Library
import CellLisp.Machine.Run
import CellLisp.Syntax.Datum

/-!
# `CellLisp.Session` — starting a system and working with it

A new state interns the symbols that the system itself refers to, binds the built-in
procedures, and then evaluates the core library.  After that an embedding program reads,
compiles, runs and inspects through the actions below.
-/

namespace CellLisp

/-! ## Starting -/

/-- A state in which nothing has been allocated. -/
def State.initial (config : Config) (world : World) : State :=
  { heap := .new config.cells config.payloadBytes config.lowWater
    symbols := .new config.symbolBuckets
    machine := { limit := config.stackSize }
    roots := #[]
    known := {}
    config
    gensyms := 0
    failure := none
    world }

/-- Interns the symbols that the system refers to. -/
def internKnown : Act Unit := do
  let known : WellKnown :=
    { quote := ← intern "quote"
      letForm := ← intern "let"
      dynamicLet := ← intern "dynamic-let"
      set := ← intern "set!"
      comptime := ← intern "comptime"
      namedLambda := ← intern "named-lambda"
      doForm := ← intern "do"
      ifForm := ← intern "if"
      withCont := ← intern "with-cont"
      exit := ← intern "exit"
      loop := ← intern "loop"
      t := ← intern "t"
      standardOutput := ← intern "*standard-output*"
      standardInput := ← intern "*standard-input*"
      toplevel := ← intern "toplevel"
      plainRole := ← intern "variable"
      constantRole := ← intern "constant"
      functionRole := ← intern "function"
      expanderRole := ← intern "macro" }
  modify fun s => { s with known }

/-- Binds a name to a built-in procedure and declares it as a function. -/
def register (name : String) (procedure : Primitive) (arity : Arity) : Act Unit := do
  let symbol ← intern name
  let native ← allocCell (.native { name := symbol, arity, procedure })
  updateSymbol symbol fun s =>
    { s with value := some native, role := .function, arity := some arity, declared := true }

/-- Gives a symbol a value and a role. -/
def define (symbol : Value) (role : Role) (value : Value) : Act Unit :=
  updateSymbol symbol fun s => { s with value := some value, role, declared := true }

/-- The code that every run returns into. -/
def makeHalt : Act Unit := do
  let name ← intern "%halt"
  let code ← makeBytecode name .nil (.exactly 0)
  modify fun s => { s with known := { s.known with halt := code } }
  let _ ← emit code .halt 0 .nil

/-- Brings a state up to the built-in procedures. -/
def boot : Act Unit := do
  internKnown
  Primitive.table.forM fun (name, arity, procedure) => register name procedure ⟨arity⟩
  let makeClosure ← intern "make-closure"
  let closure := ((← get).heap.global? makeClosure).getD .nil
  modify fun s => { s with known := { s.known with makeClosure := closure } }
  makeHalt
  define (← intern "nil") .constant .nil
  let t ← gets (·.known.t)
  define t .constant t
  let output ← makeFileStream .standardOutput
  define (← gets (·.known.standardOutput)) .plain output
  let input ← makeFileStream .standardInput
  define (← gets (·.known.standardInput)) .plain input
  let live ← gets fun s => s.heap.liveCount
  logLine .debug ("runtime ready: " ++ toString Primitive.table.length ++ " natives, "
    ++ toString live ++ " cells live")

/-- Evaluates the core library. -/
def loadLibrary : Act Unit := do
  let _ ← evalText Library.source
  let s ← get
  logLine .debug ("core library loaded, " ++ toString s.symbols.count ++ " symbols, "
    ++ toString s.heap.liveCount ++ " cells live")

/-- Starts a system, with the core library if the configuration asks for it. -/
def start : Act Unit := do
  boot
  if (← gets (·.config.coreLibrary)) then loadLibrary

/-! ## Values -/

/-- The kind of a value, in one word. -/
def Heap.kind (h : Heap) (v : Value) : String :=
  match v with
  | .nil => "nil"
  | .int _ => "int"
  | .float _ _ => "float"
  | .ref .pair _ => "cons"
  | .ref .symbol _ => "symbol"
  | .ref .native _ => "native"
  | .ref .closure _ => "closure"
  | .ref .bytecode _ => "bytecode"
  | .ref .object i =>
    match h.cell i with
    | .string _ => "string"
    | .stringStream _ | .fileStream _ => "stream"
    | .array _ => "array"
    | _ => "object"
  | .stray _ => "object"

/-! ## Working -/

/-- Reads a text, prints the value and reads that again: the second value, and whether
the two are equal. -/
def roundTrip (text : String) : Act (Value × Bool) := withRoots do
  let v ← read text
  let _ ← protect v
  let w ← read (← gets fun s => s.heap.print v)
  return (w, ← gets fun s => s.heap.equal v w)

/-- Code without instructions under a name. -/
def makeUnit (name : Value) (arity : Arity) : Act Value :=
  if name.isSymbol then makeBytecode name .nil arity else typeError .symbol name

/-- Code without instructions under a name that is read from a text. -/
def unitOfText (name : String) (arity : Arity) : Act Value := do makeUnit (← read name) arity

/-- What compiling a text gives. -/
structure Compiled where
  /-- Remarks. -/
  warnings : List Warning
  /-- Listing of the unit and of the procedures within it. -/
  listings : List String
  /-- What running it gave, if it was run. -/
  outcome : Option (Except Error Value)

/-- Listings that are given of one unit. -/
def listingLimit : Nat := 40

/-- The outcome of an action, errors included. -/
def attempt {α : Type} (act : Act α) : Act (Except Error α) := fun s =>
  match act s with
  | .ok a s => .ok (.ok a) s
  | .error (.error cause) s => .ok (.error cause) s
  | .error (.fatal cause) s => .error (.fatal cause) s

/-- Compiles all forms of a text into one unit, and runs it if asked to. -/
def compileText (text name : String) (arity : Arity) (andRun : Bool) : Act Compiled :=
  withRoots do
    let forms ← readAll text
    let _ ← protect forms
    let unit ← makeUnit (← intern name) arity
    let _ ← protect unit
    let warnings ← compile invoke forms unit
    let listings ← gets fun s => s.heap.listings listingLimit unit
    let outcome ← if andRun then some <$> attempt (run unit) else pure none
    return ⟨warnings, listings, outcome⟩

/-- Calls a procedure; it and its arguments are values of texts. -/
def invokeText (procedure : String) (args : List String) : Act Value := withRoots do
  let p ← evalText procedure
  let _ ← protect p
  let values ← args.foldlM (fun (acc : Array Value) text => do
    let v ← evalText text
    let _ ← protect v
    return acc.push v) #[]
  invoke p values

/-- Prints the value of a text on the standard output stream. -/
def printText (text : String) : Act Unit := withRoots do
  let v ← evalText text
  let _ ← protect v
  let printed ← gets fun s => s.heap.print v
  writeText (← standardOutput) printed

/-- Printed elements of the value of a text, which must be a proper list. -/
def itemsOfText (text : String) : Act (List String) := do
  let v ← evalText text
  let h ← gets (·.heap)
  match h.items? v with
  | some items => return items.toList.map h.print
  | none => typeError .properList v

/-- Declares the symbol that a text reads as. -/
def declareText (name : String) (role : Role) (arity : Option Arity) : Act Value := do
  let v ← read name
  declare v role arity
  return v

/-- Protects the integers below `count`; the place of the last one. -/
def protectInts (count : Nat) : Act Nat :=
  (List.range count).foldlM (fun _ (i : Nat) => protect (.ofInt i)) 0

/-- Protects the value of a text, and replaces it by that of another if one is given. -/
def protectText (text : String) (replacement : Option String) : Act Nat := do
  let place ← protect (← evalText text)
  if let some other := replacement then setRoot place (← evalText other)
  return place

end CellLisp
