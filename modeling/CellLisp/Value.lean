import CellLisp.Number.Literal
import CellLisp.Number.Shortest

/-!
# `CellLisp.Value` — what a variable can hold

A value is immediate (the empty list, an integer, a float) or refers to a cell
of the pool.  A reference carries the tag of the cell it was made for, so that
the common questions (is it a pair, a symbol, a procedure) need no look at the
pool.  Equality of values is identity.

Every word of 64 bits can turn up as a value, since a machine led astray takes its
operands from wherever it is.  So a float has its spare bits, and a word with a tag that
nothing has is a value too.

    tag         cell it refers to
    pair        head and tail
    symbol      a name with its global value
    native      a built-in procedure
    bytecode    a compiled procedure
    closure     a compiled procedure with its environment
    object      anything else: string, array, stream, continuation
-/

namespace CellLisp

/-- Tag of a reference. -/
inductive Tag where
  | object
  | pair
  | symbol
  | native
  | closure
  | bytecode
  deriving DecidableEq, Inhabited, Repr

/-- Name of a tag in diagnostic texts. -/
def Tag.label : Tag → String
  | .object => "Object"
  | .pair => "List"
  | .symbol => "Symbol"
  | .native => "Native"
  | .closure => "Closure"
  | .bytecode => "Bytecode"

/-- A value of the language. -/
inductive Value where
  /-- The empty list, which is also false. -/
  | nil
  | int (value : Int)
  /-- A float, and the 28 bits between it and its tag, which are zero in every float that
  was read or computed. -/
  | float (value : Binary32) (spare : Nat)
  /-- The cell at `index`.  Cell zero is never in use. -/
  | ref (tag : Tag) (index : Nat)
  /-- A word without a tag.  It can be kept, moved and compared, and nothing else. -/
  | stray (word : Nat)
  deriving DecidableEq, Inhabited, Repr

namespace Value

/-- An integer reduced to 60 bits, two's complement. -/
def ofInt (i : Int) : Value := .int (Int.bmod i 0x1000000000000000)

/-- A float, nothing in its spare bits. -/
def ofFloat (x : Binary32) : Value := .float x 0

/-- The value of a number. -/
def ofNumber : Number → Value
  | .int i => .int i
  | .float x => .ofFloat x

/-- The number that a value is, if it is one. -/
def number? : Value → Option Number
  | .int i => some (.int i)
  | .float x _ => some (.float x)
  | _ => none

/-- The empty list. -/
def isNil : Value → Bool
  | .nil => true
  | _ => false

/-- A pair, not the empty list. -/
def isPair : Value → Bool
  | .ref .pair _ => true
  | _ => false

/-- A symbol. -/
def isSymbol : Value → Bool
  | .ref .symbol _ => true
  | _ => false

/-- A procedure of any kind. -/
def isProcedure : Value → Bool
  | .ref .native _ | .ref .closure _ | .ref .bytecode _ => true
  | _ => false

/-- A reference to compiled code. -/
def isBytecode : Value → Bool
  | .ref .bytecode _ => true
  | _ => false

/-- The cell referred to, whatever its tag.  No value refers to cell zero. -/
def cell? : Value → Option Nat
  | .ref _ i => if i = 0 then none else some i
  | _ => none

/-- The cell referred to under the tag `object`. -/
def object? : Value → Option Nat
  | .ref .object i => some i
  | _ => none

/-- A number of 60 bits as one of 64, its top bit repeated. -/
def signExtend (n : Nat) : Nat := if n < 0x800000000000000 then n else 0xF000000000000000 + n

/-- A value taken as a machine word with its tag bits dropped and the sign kept.  For the
saved words of a frame this is the natural they hold; any other value gives the word
it would be stored as. -/
def word : Value → Nat
  | .nil => 0
  | .int i => if 0 ≤ i then i.toNat else (0x10000000000000000 + i).toNat
  | .float x spare => signExtend (0x10000000 * x.bits.toNat + spare)
  | .ref _ i => signExtend i
  | .stray w => signExtend (w / 16)

/-- Diagnostic text, without a look at the pool. -/
def describe : Value → String
  | .nil => "Nil"
  | .int i => "Int(" ++ toString i ++ ")"
  | .float x _ => "Float(" ++ x.text ++ ")"
  | .ref tag i => tag.label ++ "#" ++ toString i
  | .stray w => "Stray#" ++ toString (w / 16)

theorem cell?_eq_some_iff {v : Value} {i : Nat} :
    v.cell? = some i ↔ ∃ tag, v = .ref tag i ∧ i ≠ 0 := by
  cases v <;> simp [cell?]
  grind

@[simp] theorem word_int_natCast (n : Nat) : (Value.int n).word = n := by
  simp [word]

end Value
end CellLisp
