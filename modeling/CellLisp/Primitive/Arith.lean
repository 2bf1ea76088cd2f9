import CellLisp.Symbols

/-!
# `CellLisp.Primitive.Arith` — arithmetic and comparison

Arithmetic folds over its arguments from the left.  As long as all are integers it is
exact, within 64 bits on the way and 60 bits at the end; once a float takes part, it
goes on in floats.

    operation    integers                 fails with
    add          sum                      overflow
    mul          product                  overflow
    sub          difference               overflow
    div          quotient toward zero     overflow, or division by zero
    modulo       remainder in 0 .. |y|-1  division by zero

A comparison holds when it holds of every two neighbours; integers compare exactly.
-/

namespace CellLisp

/-- Arithmetic operations that fold. -/
inductive ArithOp where
  | add
  | mul
  | sub
  | div
  deriving DecidableEq, Inhabited, Repr

/-- An integer, if it fits 64 bits. -/
def fits64? (i : Int) : Option Int :=
  if -0x8000000000000000 ≤ i ∧ i < 0x8000000000000000 then some i else none

/-- A float for any number. -/
def Number.toFloat : Number → Binary32
  | .int i => .ofInt i
  | .float x => x

namespace ArithOp

/-- On integers; `none` when the result does not exist or leaves 64 bits. -/
def onInts? (op : ArithOp) (x y : Int) : Option Int :=
  match op with
  | .add => fits64? (x + y)
  | .mul => fits64? (x * y)
  | .sub => fits64? (x - y)
  | .div => if y = 0 then none else fits64? (x.tdiv y)

/-- On floats. -/
def onFloats (op : ArithOp) (x y : Binary32) : Binary32 :=
  match op with
  | .add => x.add y
  | .mul => x.mul y
  | .sub => x.sub y
  | .div => x.div y

/-- On numbers. -/
def apply (op : ArithOp) (a b : Number) : Except Error Number :=
  match a, b with
  | .int x, .int y =>
    match op.onInts? x y with
    | some r => .ok (.int r)
    | none => .error (if y = 0 then .divisionByZero else .overflow)
  | a, b => .ok (.float (op.onFloats a.toFloat b.toFloat))

end ArithOp

/-- The value of a number; an integer must fit 60 bits. -/
def Number.value : Number → Except Error Value
  | .int i => if intMin ≤ i ∧ i ≤ intMax then .ok (.int i) else .error .overflow
  | .float x => .ok (.ofFloat x)

/-- Opposite number, as a value. -/
def Number.negate : Number → Except Error Value
  | .int i => Number.value (.int (-i))
  | .float x => .ok (.ofFloat x.neg)

/-- Order of two numbers; `none` if a NaN is among them. -/
def Number.compare? : Number → Number → Option Ordering
  | .int x, .int y => some (compare x y)
  | .int x, .float y => Binary32.compareInt? x y
  | .float x, .int y => (Binary32.compareInt? y x).map Ordering.swap
  | .float x, .float y => Binary32.compare? x y

/-- The result of a computation, or its failure. -/
def ofExcept {α : Type} : Except Error α → Act α
  | .ok a => return a
  | .error cause => fail cause

/-- The number that a value is. -/
def numberOf (v : Value) : Act Number :=
  match v.number? with
  | some n => return n
  | none => typeError .number v

/-- The integer that a value is. -/
def integerOf (v : Value) : Act Int :=
  match v with
  | .int i => return i
  | _ => typeError .integer v

/-- The natural that a value is. -/
def indexOf (v : Value) : Act Nat :=
  match v with
  | .int i => if 0 ≤ i then return i.toNat else typeError .index v
  | _ => typeError .index v

/-- Folds an operation over arguments. -/
def foldArith (op : ArithOp) (start : Number) (args : List Value) : Act Value := do
  let total ← args.foldlM (fun acc v => do ofExcept (op.apply acc (← numberOf v))) start
  ofExcept total.value

/-- Negation of one argument, or the difference of several. -/
def subtract (first : Value) (rest : List Value) : Act Value := do
  let n ← numberOf first
  if rest.isEmpty then ofExcept n.negate else foldArith .sub n rest

/-- Reciprocal of one argument, or the quotient of several. -/
def divide (first : Value) (rest : List Value) : Act Value := do
  if rest.isEmpty then foldArith .div (.int 1) [first]
  else foldArith .div (← numberOf first) rest

/-- Remainder that is never negative. -/
def modulo (a b : Value) : Act Value := do
  let x ← integerOf a
  let y ← integerOf b
  if y = 0 then fail .divisionByZero else ofExcept (Number.value (.int (x % y)))

/-- The truth value of a Boolean. -/
def truth (b : Bool) : Act Value := do if b then gets (·.known.t) else return .nil

/-- Whether `test` holds from one number to the next all along a list. -/
def compareFrom (test : Ordering → Bool) (previous : Number) : List Value → Act Value
  | [] => truth true
  | v :: rest => do
    let n ← numberOf v
    if ((previous.compare? n).map test).getD false then compareFrom test n rest
    else return .nil

/-- Whether `test` holds of all neighbours. -/
def compareAll (test : Ordering → Bool) (first : Value) (rest : List Value) : Act Value := do
  compareFrom test (← numberOf first) rest

end CellLisp
