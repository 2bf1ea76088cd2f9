import CellLisp.Value

/-!
# `CellLisp.Code.Instr` — instructions of the stack machine

An instruction is an operation, a modifier of 16 bits and an operand value.  The
machine has a value register `val`, an operand stack, a stack of escape
continuations and a stack of dynamic bindings.

    operation     effect, with modifier m and operand x
    halt          stop
    const         val ← x
    push          push val
    drop          pop m values
    stackRef      val ← the value m places below the top
    stackSet      the value m places below the top ← val
    envRef        val ← element x of the environment m places below the top
    envSet        that element ← val
    globalRef     val ← global value of the symbol x
    globalSet     global value of x ← val
    jump          continue at instruction x
    jumpIfFalse   continue at x if val is nil
    call          call val with m arguments from the stack
    tailCall      the same, replacing the current frame
    ret           return from the current frame
    varargs       collect the arguments past the first m into a list
    makeArray     val ← array of the top m values, which are popped
    withCont      establish a continuation that resumes at x
    popCont       drop the newest continuation
    contRef       val ← the continuation m below the newest
    exit          exit to it with val
    envExit       exit to element x of the environment m below the top
    dynBind       bind the symbol x to val for a dynamic extent
    dynUnbind     undo the newest m dynamic bindings
-/

namespace CellLisp

/-- Operation of an instruction. -/
inductive Opcode where
  | halt | const | push | drop | stackRef | stackSet | envRef | envSet | globalRef | globalSet
  | jump | jumpIfFalse | call | tailCall | ret | varargs | makeArray | withCont | popCont
  | contRef | exit | envExit | dynBind | dynUnbind
  deriving DecidableEq, Inhabited, Repr

/-- Name of an operation in listings. -/
def Opcode.label : Opcode → String
  | .halt => "Halt"
  | .const => "Const"
  | .push => "Push"
  | .drop => "Drop"
  | .stackRef => "StackRef"
  | .stackSet => "StackSet"
  | .envRef => "EnvRef"
  | .envSet => "EnvSet"
  | .globalRef => "GlobalRef"
  | .globalSet => "GlobalSet"
  | .jump => "Jump"
  | .jumpIfFalse => "JumpIfFalse"
  | .call => "Call"
  | .tailCall => "TailCall"
  | .ret => "Ret"
  | .varargs => "Varargs"
  | .makeArray => "MakeArray"
  | .withCont => "WithCont"
  | .popCont => "PopCont"
  | .contRef => "ContRef"
  | .exit => "Exit"
  | .envExit => "EnvExit"
  | .dynBind => "DynBind"
  | .dynUnbind => "DynUnbind"

/-- One instruction. -/
structure Instr where
  /-- What it does. -/
  op : Opcode
  /-- Count or offset, below `2 ^ 16`. -/
  modifier : Nat
  /-- Constant, symbol, index or target. -/
  operand : Value
  deriving DecidableEq, Inhabited, Repr

/-- Bytes that one instruction takes up. -/
def Instr.bytes : Nat := 16

end CellLisp
