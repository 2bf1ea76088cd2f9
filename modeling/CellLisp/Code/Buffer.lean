import CellLisp.Symbols

/-!
# `CellLisp.Code.Buffer` — building compiled code

The instructions of a procedure are a growing array in a block.  A new procedure has
room for eight; when the block is full, its contents move to one twice as large.

    emit     appends an instruction and yields its place
    patch    points the jump at a place to a target
-/

namespace CellLisp

/-- Instructions that a new procedure has room for. -/
def initialRoom : Nat := 8

/-- Compiled code without instructions. -/
def makeBytecode (name doc : Value) (arity : Arity) : Act Value := do
  let code ← allocPayload (initialRoom * Instr.bytes) (.code #[])
  allocCell (.bytecode { name, doc, arity, code })

/-- The record of compiled code, which must be there. -/
def bytecodeOf (code : Value) : Act Bytecode := do
  match ← gets fun s => s.heap.bytecode? code with
  | some b => return b
  | none => halt .corrupt

/-- Instructions so far. -/
def codeLength (code : Value) : Act Nat := do
  let b ← bytecodeOf code
  gets fun s => (s.heap.instrs b).size

/-- Moves the instructions of `code` to a block with room for twice as many, keeping
`operand` alive meanwhile. -/
def growCode (code : Value) (b : Bytecode) (length : Nat) (operand : Value) : Act Block := do
  let _ ← protect operand
  let grown ← allocBlock (length * 2 * Instr.bytes)
  unprotect 1
  modifyHeap fun h => h.putPayload grown (h.payload b.code)
  modifyHeap fun h =>
    match code.cell? with
    | some i => h.set i (.bytecode { b with code := grown })
    | none => h
  return grown

/-- Appends an instruction to a payload. -/
def Payload.pushInstr (instr : Instr) : Payload → Payload
  | .code is => .code (is.push instr)
  | _ => .code #[instr]

/-- Appends an instruction; yields its place.  `code` must be reachable. -/
def emit (code : Value) (op : Opcode) (modifier : Nat) (operand : Value) : Act Nat := do
  let b ← bytecodeOf code
  let length ← gets fun s => (s.heap.instrs b).size
  let capacity ← gets fun s => s.heap.arena.capacity b.code
  let block ← if capacity < (length + 1) * Instr.bytes then growCode code b length operand
    else pure b.code
  modifyHeap (·.modifyPayload block (.pushInstr ⟨op, modifier, operand⟩))
  return length

/-- Replaces the operand of the instruction at a place in a payload. -/
def Payload.setOperand (place : Nat) (operand : Value) : Payload → Payload
  | .code is => .code (is.modify place fun i => { i with operand })
  | p => p

/-- Points the jump at `place` to the instruction `target`. -/
def patch (code : Value) (place target : Nat) : Act Unit := do
  let b ← bytecodeOf code
  modifyHeap (·.modifyPayload b.code (.setOperand place (.ofInt target)))

end CellLisp
