import CellLisp.Heap.Pool
import CellLisp.Text.Blank

/-!
# `CellLisp.Object` — reading structures off the heap

Views of a value in a heap: a pair, a list, a symbol, a string, an array, a
procedure; structural equality; and the text of a value.  All are functions of the
heap alone.

A structure without cycles is no deeper than the pool is large, and two structures
that compare without end would meet the same pair of cells again.  Those bounds
serve as the fuel of the walks below.

    value        printed                 displayed
    list         (a b . c)               the same, elements displayed
    string       "text"                  text
    array        [a b]                   the same, elements displayed
    procedure    #<kind name>            the same
    other        #<kind index>           the same
    no object    #<invalid>              the same
-/

namespace CellLisp.Heap

/-! ## Lists -/

/-- Head and tail of a pair. -/
def pair? (h : Heap) (v : Value) : Option (Value × Value) :=
  match v with
  | .ref .pair i =>
    match h.cell i with
    | .pair head tail => some (head, tail)
    | _ => none
  | _ => none

/-- Elements along the tails of a value, and the tail that is no pair. -/
def spineFrom (h : Heap) (acc : Array Value) : Nat → Value → Array Value × Value
  | 0, v => (acc, v)
  | n + 1, v =>
    match h.pair? v with
    | some (head, tail) => h.spineFrom (acc.push head) n tail
    | none => (acc, v)

/-- Elements along the tails of a value, and the tail that is no pair. -/
def spine (h : Heap) (v : Value) : Array Value × Value := h.spineFrom #[] h.cells.size v

/-- Elements of a proper list. -/
def items? (h : Heap) (v : Value) : Option (Array Value) :=
  let (items, tail) := h.spine v
  if tail.isNil then some items else none

/-! ## Symbols and strings -/

/-- The record of a symbol. -/
def symbol? (h : Heap) (v : Value) : Option Symbol :=
  match v.cell? with
  | some i =>
    match h.cell i with
    | .symbol s => some s
    | _ => none
  | none => none

/-- The text of a string. -/
def text? (h : Heap) (v : Value) : Option String :=
  match v.object? with
  | some i =>
    match h.cell i with
    | .string data => some (h.payload data).string
    | _ => none
  | none => none

/-- Whether a value is a string. -/
def isString (h : Heap) (v : Value) : Bool := (h.text? v).isSome

/-- The name of a symbol; empty for anything else. -/
def symbolName (h : Heap) (v : Value) : String :=
  match h.symbol? v with
  | some s => (h.text? s.name).getD ""
  | none => ""

/-- Global value of a symbol, if it is bound. -/
def global? (h : Heap) (v : Value) : Option Value := (h.symbol? v).bind (·.value)

/-- Changes the record of a symbol. -/
def modifySymbol (h : Heap) (v : Value) (f : Symbol → Symbol) : Heap :=
  match v.cell? with
  | some i =>
    match h.cell i with
    | .symbol s => h.set i (.symbol (f s))
    | _ => h
  | none => h

/-! ## Arrays and procedures -/

/-- The block of an array. -/
def array? (h : Heap) (v : Value) : Option Block :=
  match v.object? with
  | some i =>
    match h.cell i with
    | .array data => some data
    | _ => none
  | none => none

/-- The record of compiled code. -/
def bytecode? (h : Heap) (v : Value) : Option Bytecode :=
  match v.cell? with
  | some i =>
    match h.cell i with
    | .bytecode b => some b
    | _ => none
  | none => none

/-- Instructions of compiled code. -/
def instrs (h : Heap) (b : Bytecode) : Array Instr := (h.payload b.code).instrs

/-- The instruction that the words at a place behind the header of a block stand for. -/
def straysAt? (h : Heap) (b : Block) (pc : Nat) : Option Instr :=
  let offset := b.offset + 1 + 2 * pc
  match h.arena.word? offset, h.arena.word? (offset + 1) with
  | some word, some operand => Instr.ofImage? word operand
  | _, _ => none

/-- The instruction at a place of compiled code.  Past the last one it is what the words
there stand for: `halt` in room not used yet, and behind the block whatever the arena
holds. -/
def instr? (h : Heap) (code : Value) (pc : Nat) : Option Instr :=
  match h.bytecode? code with
  | none => none
  | some b =>
    match (h.instrs b)[pc]? with
    | some i => some i
    | none => h.straysAt? b.code pc

/-- The name under which a procedure shows, given the value of its name field. -/
def nameText (h : Heap) (name : Value) : String :=
  if name.isSymbol then h.symbolName name else "anonymous"

/-- Name of a procedure; a closure has that of its code, to a depth of `n`. -/
def procNameTo (h : Heap) : Nat → Value → String
  | 0, _ => ""
  | n + 1, v =>
    match v.cell?.map h.cell with
    | some (.native r) => h.nameText r.name
    | some (.bytecode b) => h.nameText b.name
    | some (.closure code _) => h.procNameTo n code
    | _ => ""

/-- Name of a procedure; a closure has that of its code. -/
def procName (h : Heap) (v : Value) : String := h.procNameTo h.cells.size v

/-! ## Equality -/

/-- Equality of lists and strings by contents, and of all else by identity, to a
depth of `n`. -/
def equalTo (h : Heap) : Nat → Value → Value → Bool
  | 0, _, _ => false
  | n + 1, a, b =>
    if a = b then true
    else match h.pair? a, h.pair? b with
      | some (x, xs), some (y, ys) => if h.equalTo n x y then h.equalTo n xs ys else false
      | _, _ =>
        match h.text? a, h.text? b with
        | some s, some t => s == t
        | _, _ => false

/-- Equality of lists and strings by contents, and of all else by identity. -/
def equal (h : Heap) (a b : Value) : Bool := h.equalTo (h.cells.size * h.cells.size + 1) a b

/-! ## Text -/

/-- Appends texts of elements, a blank between them. -/
def writeItems (write : String → Value → String) (acc : String) (items : Array Value) : String :=
  (items.foldl (fun (p : String × Bool) v =>
    (write (if p.2 then p.1 else p.1.push ' ') v, false)) (acc, true)).1

/-- Appends the text of an object that is no list. -/
def writeObject (h : Heap) (readably : Bool) (write : String → Value → String) (acc : String)
    (i : Nat) : String :=
  match h.cell i with
  | .string data =>
    let text := (h.payload data).string
    if readably then (acc.push '"' ++ text).push '"' else acc ++ text
  | .array data => (writeItems write (acc.push '[') (h.payload data).items).push ']'
  | c => acc ++ "#<" ++ c.kindName ++ " " ++ toString i ++ ">"

/-- Appends the text of a value, to a depth of `n`. -/
def writeTo (h : Heap) (readably : Bool) : Nat → String → Value → String
  | 0, acc, _ => acc
  | n + 1, acc, v =>
    match v with
    | .nil => acc ++ "()"
    | .int i => acc ++ toString i
    | .float x _ => acc ++ x.text
    | .ref .pair _ =>
      let (items, tail) := h.spine v
      let acc := writeItems (h.writeTo readably n) (acc.push '(') items
      let acc := if tail.isNil then acc else h.writeTo readably n (acc ++ " . ") tail
      acc.push ')'
    | .ref .symbol _ => acc ++ h.symbolName v
    | .ref .native _ => acc ++ "#<native " ++ h.procName v ++ ">"
    | .ref .closure _ => acc ++ "#<closure " ++ h.procName v ++ ">"
    | .ref .bytecode _ => acc ++ "#<bytecode " ++ h.procName v ++ ">"
    | .ref .object 0 | .stray _ => acc ++ "#<invalid>"
    | .ref .object i => h.writeObject readably (h.writeTo readably n) acc i

/-- Text that reads back as an equal value where that is possible. -/
def print (h : Heap) (v : Value) : String := h.writeTo true (h.cells.size + 1) "" v

/-- Text with strings shown bare. -/
def display (h : Heap) (v : Value) : String := h.writeTo false (h.cells.size + 1) "" v

end CellLisp.Heap
