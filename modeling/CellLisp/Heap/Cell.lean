import CellLisp.Code.Instr
import CellLisp.Primitive.Table

/-!
# `CellLisp.Heap.Cell` — the records of the pool

All cells are of one size.  Contents of variable length (the characters of a
string, the elements of an array, instructions, the buffer of a stream) live in
a block of the payload arena, and the cell holds the block's place.

    cell           refers to                     block
    free           next free cell                —
    pair           head, tail                    —
    symbol         name, global value, next      —
    native         name                          —
    closure        environment, code             —
    bytecode       name, documentation           instructions, whose operands count
    cont           code                          —
    array          —                             elements
    string         —                             text
    stringStream   —                             bytes
    fileStream     —                             —
-/

namespace CellLisp

/-- Place of a block: the offset of its header in the arena, in words. -/
structure Block where
  /-- Offset of the header. -/
  offset : Nat
  deriving DecidableEq, Inhabited, Repr

/-- What a symbol has been declared as. -/
inductive Role where
  | plain
  | constant
  | function
  /-- A procedure from forms to forms, called while compiling. -/
  | expander
  deriving DecidableEq, Inhabited, Repr

/-- A symbol. -/
structure Symbol where
  /-- Its name, a string. -/
  name : Value
  /-- Hash of the name. -/
  hash : UInt32
  /-- Declared role. -/
  role : Role
  /-- Declared arity, for functions. -/
  arity : Option Arity
  /-- Whether any declaration was made. -/
  declared : Bool
  /-- Global value, if bound. -/
  value : Option Value
  /-- Next symbol of the same bucket. -/
  next : Value
  deriving Inhabited, Repr

/-- A built-in procedure under its name. -/
structure Native where
  /-- The symbol it was bound to. -/
  name : Value
  /-- Arguments it takes. -/
  arity : Arity
  /-- What it does. -/
  procedure : Primitive
  deriving Inhabited, Repr

/-- A compiled procedure. -/
structure Bytecode where
  /-- The symbol it is named by, or nil. -/
  name : Value
  /-- Documentation string, or nil. -/
  doc : Value
  /-- Arguments it takes. -/
  arity : Arity
  /-- Block of its instructions. -/
  code : Block
  deriving Inhabited, Repr

/-- An escape continuation: the state of the machine to return to.  A cell has room for
32 bits of each number. -/
structure Cont where
  /-- Operand stack depth. -/
  sp : UInt32
  /-- Frame. -/
  fp : UInt32
  /-- Dynamic binding depth. -/
  dynDepth : UInt32
  /-- Its own place in the stack of continuations. -/
  depth : UInt32
  /-- Code to resume. -/
  code : Value
  /-- Instruction to resume at. -/
  pc : UInt32
  /-- Whether control has already left it. -/
  exited : Bool
  deriving Inhabited, Repr

/-- A stream over a growing buffer. -/
structure StringStream where
  /-- Block of the bytes written so far. -/
  data : Block
  /-- Bytes read so far. -/
  pos : Nat
  /-- Whether it has not been closed. -/
  isOpen : Bool
  deriving Inhabited, Repr

/-- How a file was opened. -/
inductive FileMode where
  | read
  | write
  | append
  deriving DecidableEq, Inhabited, Repr

/-- What a file stream reads from or writes to. -/
inductive Endpoint where
  | standardInput
  | standardOutput
  /-- A named file, with the position of the next byte. -/
  | file (name : String) (mode : FileMode) (pos : Nat)
  /-- A directory, which can be opened for reading but not read. -/
  | directory
  | closed
  deriving DecidableEq, Inhabited, Repr

/-- Contents of one cell of the pool. -/
inductive Cell where
  /-- Unused; the next unused cell, zero at the end. -/
  | free (next : Nat)
  | pair (head tail : Value)
  | symbol (record : Symbol)
  | native (record : Native)
  | closure (code env : Value)
  | bytecode (record : Bytecode)
  | cont (record : Cont)
  | array (data : Block)
  | string (data : Block)
  | stringStream (record : StringStream)
  | fileStream (endpoint : Endpoint)
  deriving Inhabited, Repr

namespace Cell

/-- Tag of references to a cell. -/
def tag : Cell → Tag
  | .pair .. => .pair
  | .symbol _ => .symbol
  | .native _ => .native
  | .closure .. => .closure
  | .bytecode _ => .bytecode
  | _ => .object

/-- Whether a cell is unused. -/
def isFree : Cell → Bool
  | .free _ => true
  | _ => false

/-- Name of a kind of cell in printed descriptions. -/
def kindName : Cell → String
  | .free _ => "free"
  | .pair .. => "cons"
  | .symbol _ => "symbol"
  | .native _ => "native"
  | .closure .. => "closure"
  | .bytecode _ => "bytecode"
  | .cont _ => "continuation"
  | .array _ => "array"
  | .string _ => "string"
  | .stringStream _ => "string-stream"
  | .fileStream _ => "file-stream"

/-- The block a cell holds, if any. -/
def block? : Cell → Option Block
  | .bytecode b => some b.code
  | .array data => some data
  | .string data => some data
  | .stringStream s => some s.data
  | _ => none

/-- The values a cell itself holds; those in its block apart. -/
def values : Cell → List Value
  | .free _ | .array _ | .string _ | .stringStream _ | .fileStream _ => []
  | .pair head tail => [head, tail]
  | .symbol s => s.name :: (s.value.toList ++ [s.next])
  | .native n => [n.name]
  | .closure code env => [env, code]
  | .bytecode b => [b.name, b.doc]
  | .cont k => [k.code]

end Cell

/-- Contents of a block. -/
inductive Payload where
  /-- All zero, as every block starts out. -/
  | blank
  | text (text : String)
  | bytes (bytes : Array UInt8)
  | values (values : Array Value)
  | code (instrs : Array Instr)
  deriving Inhabited, Repr

namespace Payload

/-- Elements of an array; none in any other payload. -/
def items : Payload → Array Value
  | .values vs => vs
  | _ => #[]

/-- Instructions of a procedure; none in any other payload. -/
def instrs : Payload → Array Instr
  | .code is => is
  | _ => #[]

/-- Characters of a string; none in any other payload. -/
def string : Payload → String
  | .text s => s
  | _ => ""

/-- Bytes of a stream; none in any other payload. -/
def octets : Payload → Array UInt8
  | .bytes bs => bs
  | _ => #[]

/-- The values a payload holds: elements of an array, operands of instructions. -/
def references : Payload → List Value
  | .values vs => vs.toList
  | .code is => is.toList.map Instr.operand
  | _ => []

/-- Bytes that the contents take up. -/
def size : Payload → Nat
  | .blank => 0
  | .text s => s.utf8ByteSize
  | .bytes bs => bs.size
  | .values vs => 8 * vs.size
  | .code is => Instr.bytes * is.size

end Payload
end CellLisp
