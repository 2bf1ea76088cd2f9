import CellLisp.Code.Listing
import CellLisp.Compile.Form
import CellLisp.Primitive.Arith
import CellLisp.Stream

/-!
# `CellLisp.Primitive.Apply` — what the built-in procedures do

`Builtin.apply` gives the effect of each built-in on its arguments, whose number has
been checked against the arity.  The arguments stay on the operand stack meanwhile, so
an allocation does not lose them.

An embedding program's own procedure may ask for a text to be evaluated while the
machine runs; compiling it is allowed, running it is not (`refuse`).
-/

namespace CellLisp

namespace Builtin

/-! ## Shapes of argument lists -/

/-- One argument. -/
def one (f : Value → Act Value) : List Value → Act Value
  | [a] => f a
  | _ => halt .corrupt

/-- Two arguments. -/
def two (f : Value → Value → Act Value) : List Value → Act Value
  | [a, b] => f a b
  | _ => halt .corrupt

/-- Three arguments. -/
def three (f : Value → Value → Value → Act Value) : List Value → Act Value
  | [a, b, c] => f a b c
  | _ => halt .corrupt

/-- One argument or more. -/
def oneOrMore (f : Value → List Value → Act Value) : List Value → Act Value
  | a :: rest => f a rest
  | _ => halt .corrupt

/-- Two arguments or more. -/
def twoOrMore (f : Value → Value → List Value → Act Value) : List Value → Act Value
  | a :: b :: rest => f a b rest
  | _ => halt .corrupt

/-- A question about a value and the heap. -/
def ask (test : Heap → Value → Bool) : List Value → Act Value :=
  one fun v => do truth (test (← get).heap v)

/-! ## Arguments -/

/-- The text of a string. -/
def textOf (v : Value) : Act String := do
  match ← gets fun s => s.heap.text? v with
  | some text => return text
  | none => typeError .string v

/-- The text of a string or the name of a symbol. -/
def wordOf (v : Value) : Act String :=
  if v.isSymbol then gets fun s => s.heap.symbolName v else textOf v

/-- The block of an array. -/
def arrayOf (v : Value) : Act Block := do
  match ← gets fun s => s.heap.array? v with
  | some data => return data
  | none => typeError .array v

/-- The compiled code of a procedure. -/
def codeOf? (h : Heap) (v : Value) : Option Value :=
  match v.cell?.map h.cell with
  | some (.closure code _) => some code
  | _ => if v.isBytecode then some v else none

/-- A stream given as an argument, or the standard one. -/
def streamOr (standard : Act Value) : List Value → Act Value
  | stream :: _ => return stream
  | [] => standard

/-! ## Lists -/

/-- Head of a list; the empty list is its own. -/
def head (v : Value) : Act Value := do
  match ← gets fun s => s.heap.pair? v with
  | some (x, _) => return x
  | none => if v.isNil then return .nil else typeError .list v

/-- Tail of a list; the empty list is its own. -/
def tail (v : Value) : Act Value := do
  match ← gets fun s => s.heap.pair? v with
  | some (_, x) => return x
  | none => if v.isNil then return .nil else typeError .list v

/-- Changes a pair. -/
def updatePair (v x : Value) (f : Value → Value → Cell) : Act Value := do
  match v.cell?, ← gets fun s => s.heap.pair? v with
  | some i, some (a, d) =>
    modifyHeap (·.set i (f a d))
    return x
  | _, _ => typeError .pair v

/-- A list of values. -/
def list (items : List Value) : Act Value :=
  items.reverse.foldlM (fun rest v => cons v rest) .nil

/-! ## Arrays -/

/-- A new array of equal elements. -/
def newArray (length : Value) (fill : List Value) : Act Value := do
  let n ← indexOf length
  let data ← allocBlock (8 * n)
  modifyHeap (·.putPayload data (.values (Array.replicate n (fill.head?.getD .nil))))
  allocCell (.array data)

/-- An array and an index within it. -/
def arrayIndex (array index : Value) : Act (Block × Nat) := do
  let data ← arrayOf array
  let i ← indexOf index
  let length ← gets fun s => (s.heap.payload data).items.size
  if length ≤ i then fail (.outOfBounds i length)
  return (data, i)

/-- Element of an array. -/
def arrayRef (array index : Value) : Act Value := do
  let (data, i) ← arrayIndex array index
  gets fun s => (s.heap.payload data).items.getD i .nil

/-- Replaces an element in a payload. -/
def setItem (i : Nat) (v : Value) : Payload → Payload
  | .values vs => .values (vs.setIfInBounds i v)
  | p => p

/-- Replaces an element of an array. -/
def arraySet (array index v : Value) : Act Value := do
  let (data, i) ← arrayIndex array index
  modifyHeap (·.modifyPayload data (setItem i v))
  return v

/-- Number of elements. -/
def arrayLength (array : Value) : Act Value := do
  let data ← arrayOf array
  return .ofInt (← gets fun s => (s.heap.payload data).items.size)

/-! ## Strings and symbols -/

/-- Texts joined. -/
def stringAppend (parts : List Value) : Act Value := do
  let text ← parts.foldlM (fun acc p => do return acc ++ (← textOf p)) ""
  makeString text

/-- A symbol that no other is identical with. -/
def gensym : Act Value := do
  modify fun s => { s with gensyms := s.gensyms + 1 }
  makeSymbol ("g" ++ toString (← gets (·.gensyms)))

/-- The name of a symbol. -/
def symbolName (v : Value) : Act Value := do
  match ← gets fun s => if v.isSymbol then s.heap.symbol? v else none with
  | some s => return s.name
  | none => typeError .symbol v

/-- The number that a text writes, or nil. -/
def stringToNumber (v : Value) : Act Value := do
  return ((Number.parse? (Text.trim (← textOf v))).map Value.ofNumber).getD .nil

/-- The text of a number. -/
def numberToString (v : Value) : Act Value := do
  let _ ← numberOf v
  makeString (← gets fun s => s.heap.print v)

/-! ## Declarations and procedures -/

/-- The role that a symbol names. -/
def roleOf (v : Value) : Act Role := do
  let k ← gets (·.known)
  if v = k.plainRole then return .plain
  else if v = k.constantRole then return .constant
  else if v = k.functionRole then return .function
  else if v = k.expanderRole then return .expander
  else typeError .role v

/-- The arity that an optional argument gives. -/
def arityOf? : List Value → Act (Option Arity)
  | [] => return none
  | v :: _ => do
    match Arity.ofInt? (← integerOf v) with
    | some a => return some a
    | none => typeError .arity v

/-- Declares a symbol. -/
def declareSymbol (symbol role : Value) (arity : List Value) : Act Value := do
  let role ← roleOf role
  let arity ← arityOf? arity
  declare symbol role arity
  return symbol

/-- A closure. -/
def makeClosure (code env : Value) : Act Value := do
  if !code.isBytecode then typeError .bytecode code
  let _ ← arrayOf env
  allocCell (.closure code env)

/-- Documentation of a procedure, or nil. -/
def documentation (v : Value) : Act Value := do
  match ← gets fun s => codeOf? s.heap v with
  | some code => return (← bytecodeOf code).doc
  | none => return .nil

/-- Listing of a procedure. -/
def disassemble (v : Value) : Act Value := do
  match ← gets fun s => codeOf? s.heap v with
  | some code => makeString (← gets fun s => s.heap.listing code)
  | none => typeError .compiled v

/-- Fails with a message and the values it is about. -/
def signal (message : Value) (about : List Value) : Act Value := do
  let h ← gets (·.heap)
  fail (.signal (about.foldl (fun acc v => acc ++ " " ++ h.print v) (h.display message)))

/-! ## Streams -/

/-- Writes the text of a value. -/
def output (text : Heap → Value → String) (v : Value) (stream : List Value) : Act Value := do
  let out ← streamOr standardOutput stream
  writeText out (text (← get).heap v)
  return v

/-- Writes a line feed. -/
def newline (stream : List Value) : Act Value := do
  writeBytes (← streamOr standardOutput stream) #[10]
  return .nil

/-- A new stream over a buffer that holds a text. -/
def bufferStream (init : List Value) : Act Value := do
  let stream ← makeStringStream
  match init with
  | [] => return stream
  | v :: _ =>
    let text ← textOf v
    let _ ← protect stream
    writeText stream text
    unprotect 1
    return stream

/-- Opens a file. -/
def openPath (path mode : Value) : Act Value := do
  let path ← textOf path
  let mode ← wordOf mode
  openFile path mode

/-- Next byte of a stream, or nil. -/
def nextByte (stream : List Value) : Act Value := do
  match ← readByte (← streamOr standardInput stream) with
  | some b => return .ofInt b.toNat
  | none => return .nil

/-- Writes a byte. -/
def putByte (byte : Value) (stream : List Value) : Act Value := do
  let out ← streamOr standardOutput stream
  let i ← integerOf byte
  if i < 0 ∨ 255 < i then typeError .byte byte
  writeBytes out #[UInt8.ofNat i.toNat]
  return byte

/-- Next character of a stream as a string, or nil. -/
def nextChar (stream : List Value) : Act Value := do
  match ← readChar (← streamOr standardInput stream) with
  | some c => makeString c.toString
  | none => return .nil

/-- Writes the characters of a string. -/
def putChar (text : Value) (stream : List Value) : Act Value := do
  let out ← streamOr standardOutput stream
  writeText out (← textOf text)
  return text

/-! ## Procedures of an embedding program -/

/-- Refuses every call, since the machine is running. -/
def refuse : Caller := fun _ _ => fail .reentrant

/-- What an embedding program's procedure does. -/
def applyHost : HostProcedure → List Value → Act Value
  | .evaluate, args => do evalTextWith refuse (← textOf (args.head?.getD .nil))
  | .count, args => return .ofInt args.length
  | .last, args => return args.getLast?.getD .nil

/-! ## All of them -/

/-- What a built-in procedure does. -/
def apply : Primitive → List Value → Act Value
  | .add => foldArith .add (.int 0)
  | .mul => foldArith .mul (.int 1)
  | .sub => oneOrMore subtract
  | .div => oneOrMore divide
  | .modulo => two modulo
  | .numEq => oneOrMore (compareAll Ordering.isEq)
  | .numLt => oneOrMore (compareAll Ordering.isLT)
  | .numGt => oneOrMore (compareAll Ordering.isGT)
  | .numLe => oneOrMore (compareAll Ordering.isLE)
  | .numGe => oneOrMore (compareAll Ordering.isGE)
  | .same => two fun a b => truth (a == b)
  | .equal => two fun a b => do truth ((← get).heap.equal a b)
  | .not => ask fun _ v => v.isNil
  | .isNil => ask fun _ v => v.isNil
  | .isPair => ask fun _ v => v.isPair
  | .isSymbol => ask fun _ v => v.isSymbol
  | .isInt => ask fun _ v => match v with
    | .int _ => true
    | _ => false
  | .isFloat => ask fun _ v => match v with
    | .float _ _ => true
    | _ => false
  | .isNumber => ask fun _ v => v.number?.isSome
  | .isString => ask fun h v => h.isString v
  | .isProcedure => ask fun _ v => v.isProcedure
  | .isArray => ask fun h v => (h.array? v).isSome
  | .isContinuation => ask fun h v => match v.object?.map h.cell with
    | some (.cont _) => true
    | _ => false
  | .isStream => ask fun h v => (h.stream? v).isSome
  | .cons => two cons
  | .head => one head
  | .tail => one tail
  | .setHead => two fun p x => updatePair p x fun _ d => .pair x d
  | .setTail => two fun p x => updatePair p x fun a _ => .pair a x
  | .list => list
  | .makeArray => oneOrMore newArray
  | .arrayRef => two arrayRef
  | .arraySet => three arraySet
  | .arrayLength => one arrayLength
  | .stringLength => one fun v => do return .ofInt (← textOf v).length
  | .stringAppend => stringAppend
  | .symbolName => one symbolName
  | .intern => one fun v => do intern (← textOf v)
  | .gensym => fun _ => gensym
  | .stringToNumber => one stringToNumber
  | .numberToString => one numberToString
  | .readFromString => one fun v => do read (← textOf v)
  | .declare => twoOrMore declareSymbol
  | .makeClosure => two makeClosure
  | .documentation => one documentation
  | .disassemble => one disassemble
  | .signal => oneOrMore signal
  | .collect => fun _ => do
    collect
    return .ofInt (← gets fun s => s.heap.freeCount)
  | .print => oneOrMore (output Heap.print)
  | .display => oneOrMore (output Heap.display)
  | .newline => newline
  | .makeStringStream => bufferStream
  | .streamString => one streamString
  | .openFile => two openPath
  | .closeStream => one fun v => do
    closeStream v
    return .nil
  | .readByte => nextByte
  | .writeByte => oneOrMore putByte
  | .readChar => nextChar
  | .writeChar => oneOrMore putChar
  | .host h => applyHost h

end Builtin
end CellLisp
