import CellLisp.Primitive.Apply

/-!
# `CellLisp.Machine.Step` — one instruction

A frame on the operand stack, from its base up:

    arguments, those past the required ones in one list
    code to return to
    instruction to return to
    frame to return to
    environment, for a closure            ← fp
    operands

`step` carries out the instruction at the program counter.  A call pushes the three
return words; a tail call moves its arguments to the base of the frame it replaces and
reuses that frame's return words.  A built-in procedure has no frame: it is called with
its arguments on the stack, and the return words go to the registers at once.

A register or stack word that compiled code would not leave behind stops the machine as
corrupt.
-/

namespace CellLisp

/-- Where a call returns to. -/
structure Return where
  /-- Code to go on with. -/
  code : Value
  /-- Instruction to go on at. -/
  pc : Nat
  /-- Frame to go back to. -/
  fp : Nat
  deriving Inhabited, Repr

namespace Machine

/-- The value so many places below the top. -/
def top? (m : Machine) (offset : Nat) : Option Value :=
  if offset < m.stack.size then m.stack[m.stack.size - 1 - offset]? else none

/-- Replaces the value so many places below the top. -/
def setTop (m : Machine) (offset : Nat) (v : Value) : Machine :=
  { m with stack := m.stack.setIfInBounds (m.stack.size - 1 - offset) v }

/-- Whether the stack has reached its limit. -/
def isFull (m : Machine) : Bool := m.limit ≤ m.stack.size

/-- Cuts the stack to a depth. -/
@[inline] def truncate (m : Machine) (depth : Nat) : Machine :=
  { m with stack := m.stack.shrink depth }

/-- The continuation so many below the newest. -/
def cont? (m : Machine) (offset : Nat) : Option Value :=
  if offset < m.conts.size then m.conts[m.conts.size - 1 - offset]? else none

/-- Goes on elsewhere. -/
@[inline] def resume (m : Machine) (r : Return) : Machine :=
  { m with code := r.code, pc := r.pc, fp := r.fp }

/-- Saved words of the current frame, whose procedure has `slots` argument slots, and
the frame's base. -/
def frame? (m : Machine) (slots : Nat) : Option (Return × Nat) :=
  if m.fp < 3 + slots then none
  else match m.stack[m.fp - 3]?, m.stack[m.fp - 2]?, m.stack[m.fp - 1]? with
    | some code, some pc, some fp => some (⟨code, pc.word, fp.word⟩, m.fp - 3 - slots)
    | _, _, _ => none

/-- Moves the top `count` values down to `base`. -/
def slide (m : Machine) (base count : Nat) : Machine :=
  let args := m.stack.extract (m.stack.size - count) m.stack.size
  { m with stack := m.stack.shrink base ++ args }

/-- Puts `v` in place of the values from `first` up to the saved words. -/
def replaceRest (m : Machine) (first : Nat) (v : Value) : Machine :=
  let above := m.stack.extract (m.fp - 3) m.stack.size
  let fp := first + 4
  { m with stack := (m.stack.shrink first).push v ++ above, fp }

end Machine

/-- Sets the value register. -/
@[inline] def setVal (v : Value) : Act Unit := modifyMachine fun m => { m with val := v }

/-- Pushes a value on the operand stack. -/
def push (v : Value) : Act Unit := do
  if (← gets (·.machine.isFull)) then fail .stackExhausted
  modifyMachine fun m => { m with stack := m.stack.push v }

/-- What must be there, or the machine is corrupt. -/
@[inline] def require {α : Type} : Option α → Act α
  | some a => return a
  | none => halt .corrupt

/-! ## Calls -/

/-- Checks the number of arguments. -/
def checkArity (arity : Arity) (argc : Nat) (name : Heap → String) : Act Unit := do
  if !arity.accepts argc then fail (.arity (name (← get).heap) arity argc)

/-- Stops because a value is no procedure. -/
def notProcedure {α : Type} (v : Value) : Act α := do
  fail (.notProcedure (← gets fun s => s.heap.print v))

/-- Enters compiled code with `argc` arguments on the stack. -/
def enterCode (procedure code : Value) (env : Option Value) (argc : Nat) (r : Return) :
    Act Unit := do
  let b ← bytecodeOf code
  checkArity b.arity argc (·.procName procedure)
  push r.code
  push (.ofInt r.pc)
  push (.ofInt r.fp)
  modifyMachine fun m => { m with fp := m.stack.size }
  if let some env := env then push env
  modifyMachine fun m => { m with code, pc := 0, argc }

/-- Calls a built-in procedure with `argc` arguments on the stack. -/
def callNative (procedure : Value) (argc : Nat) (r : Return) : Act Unit := do
  modifyMachine (·.resume r)
  match ← gets fun s => procedure.cell?.map s.heap.cell with
  | some (.native n) =>
    checkArity n.arity argc (·.symbolName n.name)
    let size ← gets fun s => s.machine.stack.size
    if size < argc then halt .corrupt
    let base := size - argc
    let args ← gets fun s => s.machine.stack.extract base size
    modifyMachine fun m => { m with native := some procedure }
    let result ← Builtin.apply n.procedure args.toList
    modifyMachine fun m => { m.truncate base with native := none, val := result }
  | _ => notProcedure procedure

/-- Calls any procedure with `argc` arguments on the stack. -/
def enter (procedure : Value) (argc : Nat) (r : Return) : Act Unit := do
  match procedure with
  | .ref .bytecode _ => enterCode procedure procedure none argc r
  | .ref .closure i =>
    match ← gets fun s => s.heap.cell i with
    | .closure code env => enterCode procedure code (some env) argc r
    | _ => notProcedure procedure
  | .ref .native _ => callNative procedure argc r
  | _ => notProcedure procedure

/-- Saved words and base of the current frame. -/
def currentFrame : Act (Return × Nat) := do
  let b ← bytecodeOf (← gets (·.machine.code))
  require (← gets fun s => s.machine.frame? b.arity.slots)

/-- Replaces the current frame by a call. -/
def tailCall (argc : Nat) : Act Unit := do
  let (r, base) ← currentFrame
  if (← gets (·.machine.stack.size)) < base + argc then halt .corrupt
  modifyMachine (·.slide base argc)
  enter (← gets (·.machine.val)) argc r

/-- Returns from the current frame. -/
def returnFrom : Act Unit := do
  let (r, base) ← currentFrame
  modifyMachine fun m => (m.truncate base).resume r

/-- Puts the values at `first`, `first + 1`, … in front of the list in the value
register, taking them from the last: `n` of them are still to come. -/
def consArgs (first : Nat) : Nat → Act Unit
  | 0 => return ()
  | n + 1 => do
    let v ← require (← gets fun s => s.machine.stack[first + n]?)
    setVal (← cons v (← gets (·.machine.val)))
    consArgs first n

/-- Collects the arguments past the first `min` into a list. -/
def collectRest (min : Nat) : Act Unit := do
  let m ← gets (·.machine)
  if m.argc < min || m.fp < 3 + (m.argc - min) || m.stack.size + 3 < m.fp then halt .corrupt
  let extra := m.argc - min
  let first := m.fp - 3 - extra
  setVal .nil
  consArgs first extra
  if extra = 0 && (← gets (·.machine.isFull)) then fail .stackExhausted
  modifyMachine fun m => m.replaceRest first m.val

/-! ## Dynamic bindings -/

/-- Undoes dynamic bindings, the newest first, until `depth` are left; at most `n`. -/
def unwindFrom (depth : Nat) : Nat → Act Unit
  | 0 => return ()
  | n + 1 => do
    let s ← get
    if depth < s.machine.dyns.size then
      if let some b := s.machine.dyns.back? then
        modifyMachine fun m => { m with dyns := m.dyns.pop }
        updateSymbol b.symbol fun r => { r with value := b.old }
        unwindFrom depth n

/-- Undoes dynamic bindings until `depth` are left. -/
def unwind (depth : Nat) : Act Unit := do unwindFrom depth (← gets (·.machine.dyns.size))

/-- The record of a symbol that an instruction names. -/
def operandSymbol (v : Value) : Act Symbol := do require (← gets fun s => s.heap.symbol? v)

/-- Binds a symbol dynamically. -/
def bindDynamic (symbol value : Value) : Act Unit := do
  let old := (← operandSymbol symbol).value
  modifyMachine fun m => { m with dyns := m.dyns.push ⟨symbol, old⟩ }
  setGlobal symbol value

/-! ## Escapes -/

/-- A continuation's record. -/
def Heap.cont? (h : Heap) (v : Value) : Option Cont :=
  match v.cell?.map h.cell with
  | some (.cont k) => some k
  | _ => none

/-- Marks a continuation as left. -/
def Heap.markExited (h : Heap) (v : Value) : Heap :=
  match v.cell?, h.cont? v with
  | some i, some k => h.set i (.cont { k with exited := true })
  | _, _ => h

/-- Marks the continuations from a depth on as left and drops them. -/
def dropConts (depth : Nat) : Act Unit := do
  let left ← gets fun s => s.machine.conts.extract depth s.machine.conts.size
  modifyHeap fun h => left.foldl Heap.markExited h
  modifyMachine fun m => { m with conts := m.conts.shrink depth }

/-- The continuation of a machine that resumes at an instruction. -/
def Machine.toCont (m : Machine) (resumeAt : Nat) : Cont :=
  { sp := .ofNat m.stack.size
    fp := .ofNat m.fp
    dynDepth := .ofNat m.dyns.size
    depth := .ofNat m.conts.size
    code := m.code
    pc := .ofNat resumeAt
    exited := false }

/-- Establishes a continuation. -/
def establish (resumeAt : Nat) : Act Unit := do
  let k ← allocCell (.cont (← gets fun s => s.machine.toCont resumeAt))
  modifyMachine fun m => { m with conts := m.conts.push k }

/-- Exits to a continuation with a value. -/
def exitTo (target value : Value) : Act Unit := do
  match ← gets fun s => if target.object?.isSome then s.heap.cont? target else none with
  | none => typeError .continuation target
  | some k =>
    if k.exited then fail .exitedCont
    let stale ← gets fun s =>
      s.machine.conts[k.depth.toNat]? != some target || s.machine.stack.size < k.sp.toNat
    if stale then fail .staleCont
    dropConts k.depth.toNat
    unwind k.dynDepth.toNat
    modifyMachine fun m =>
      { (m.truncate k.sp.toNat).resume ⟨k.code, k.pc.toNat, k.fp.toNat⟩ with val := value }

/-! ## Environments -/

/-- The block of the environment so many places below the top, and an index in it. -/
def envSlot (offset index : Nat) : Act (Block × Nat) := do
  let env ← require (← gets fun s => s.machine.top? offset)
  match ← gets fun s => s.heap.array? env with
  | some data =>
    if index < (← gets fun s => (s.heap.payload data).items.size) then return (data, index)
    else typeError .environment env
  | none => typeError .environment env

/-- Element of an environment. -/
def envRef (offset index : Nat) : Act Value := do
  let (data, i) ← envSlot offset index
  gets fun s => (s.heap.payload data).items.getD i .nil

/-! ## Instructions -/

/-- An array of the top `count` values, which are popped. -/
def arrayFromStack (count : Nat) : Act Unit := do
  let size ← gets (·.machine.stack.size)
  if size < count then halt .corrupt
  let items ← gets fun s => s.machine.stack.extract (size - count) size
  let array ← makeArray items
  modifyMachine fun m => { m.truncate (size - count) with val := array }

/-- Carries out an instruction; true when the machine stops. -/
def execute (i : Instr) : Act Bool := do
  match i.op with
  | .halt => return true
  | .const => setVal i.operand
  | .push => push (← gets (·.machine.val))
  | .drop =>
    let size ← gets (·.machine.stack.size)
    if size < i.modifier then halt .corrupt
    modifyMachine (·.truncate (size - i.modifier))
  | .stackRef => setVal (← require (← gets fun s => s.machine.top? i.modifier))
  | .stackSet =>
    if (← gets (·.machine.stack.size)) ≤ i.modifier then halt .corrupt
    modifyMachine fun m => m.setTop i.modifier m.val
  | .envRef => setVal (← envRef i.modifier i.operand.word)
  | .envSet =>
    let (data, index) ← envSlot i.modifier i.operand.word
    let v ← gets (·.machine.val)
    modifyHeap (·.modifyPayload data (Builtin.setItem index v))
  | .globalRef =>
    match (← operandSymbol i.operand).value with
    | some v => setVal v
    | none => fail (.unbound (← gets fun s => s.heap.symbolName i.operand))
  | .globalSet => setGlobal i.operand (← gets (·.machine.val))
  | .jump => modifyMachine fun m => { m with pc := i.operand.word }
  | .jumpIfFalse =>
    if (← gets (·.machine.val)).isNil then modifyMachine fun m => { m with pc := i.operand.word }
  | .call =>
    let m ← gets (·.machine)
    enter m.val i.modifier ⟨m.code, m.pc, m.fp⟩
  | .tailCall => tailCall i.modifier
  | .ret => returnFrom
  | .varargs => collectRest i.modifier
  | .makeArray => arrayFromStack i.modifier
  | .withCont => establish i.operand.word
  | .popCont => dropConts ((← gets (·.machine.conts.size)) - 1)
  | .contRef => setVal (← require (← gets fun s => s.machine.cont? i.modifier))
  | .exit =>
    let k ← require (← gets fun s => s.machine.cont? i.modifier)
    exitTo k (← gets (·.machine.val))
  | .envExit => exitTo (← envRef i.modifier i.operand.word) (← gets (·.machine.val))
  | .dynBind => bindDynamic i.operand (← gets (·.machine.val))
  | .dynUnbind =>
    let depth ← gets (·.machine.dyns.size)
    if depth < i.modifier then halt .corrupt
    unwind (depth - i.modifier)
  return false

/-- One instruction; true when the machine stops. -/
def step : Act Bool := do
  let i ← require (← gets fun s => s.heap.instr? s.machine.code s.machine.pc)
  modifyMachine fun m => { m with pc := m.pc + 1 }
  execute i

end CellLisp
