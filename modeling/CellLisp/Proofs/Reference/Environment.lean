import CellLisp.Proofs.Compile.Closure
import CellLisp.Proofs.Machine.Gather

/-!
# `CellLisp.Proofs.Reference.Environment` — names and what they stand for

What a name stands for where a form is evaluated, said without a stack.  A procedure under way has
variables and operands of its own, parameters and continuations (`Env`), and, if it is a closure, an
array of the values that it copied when it was made (`Self`).

| a name is found | |
| :-- | :-- |
| among what the procedure has made itself, the newest first | its value, or the global one if a dynamic binding of that name is found first |
| among its parameters, the last first | its value |
| among the names that it has copied | the element of the array |
| nowhere | the global value |
-/

namespace CellLisp

/-! ## Arrays -/

/-- An element of an array. -/
def Heap.item? (h : Heap) (array : Value) (i : Nat) : Option Value :=
  (h.array? array).bind fun b => (h.payload b).items[i]?

/-- The heap with another element of an array. -/
def Heap.withItem (h : Heap) (array : Value) (i : Nat) (v : Value) : Heap :=
  match h.array? array with
  | some b => h.modifyPayload b (Builtin.setItem i v)
  | none => h

/-- The state with another global value of a symbol. -/
def State.assigned (s : State) (x v : Value) : State :=
  { s with heap := s.heap.modifySymbol x fun r => { r with value := some v } }

namespace Reference

/-! ## Environments -/

/-- Something that a procedure under way has made. -/
inductive Item where
  /-- A variable. -/
  | var (name value : Value)
  /-- An operand. -/
  | temp (value : Value)
  /-- A dynamic binding, which hides variables of that name. -/
  | dynamic (name : Value)

namespace Item

/-- The value that it holds. -/
def value? : Item → Option Value
  | .var _ v | .temp v => some v
  | .dynamic _ => none

/-- The value of the newest variable of a name, unless a dynamic binding hides it. -/
def find? (x : Value) : List Item → Option (Option Value)
  | [] => none
  | .var y v :: is => if y = x then some (some v) else find? x is
  | .temp _ :: is => find? x is
  | .dynamic y :: is => if y = x then some none else find? x is

/-- Another value for the newest variable of a name. -/
def set (x v : Value) : List Item → List Item
  | [] => []
  | .var y u :: is => if y = x then .var y v :: is else .var y u :: set x v is
  | i :: is => i :: set x v is

end Item

/-- The value of the first variable of a name, in a list of parameters. -/
def findParam? (x : Value) : List (Value × Value) → Option Value
  | [] => none
  | (y, v) :: ps => if y = x then some v else findParam? x ps

/-- Another value for it. -/
def setParam (x v : Value) : List (Value × Value) → List (Value × Value)
  | [] => []
  | (y, u) :: ps => if y = x then (y, v) :: ps else (y, u) :: setParam x v ps

/-- What a procedure under way has. -/
structure Env where
  /-- What it has made itself, the newest first. -/
  own : List Item
  /-- Its parameters with their values, the last first. -/
  params : List (Value × Value)
  /-- The continuations that it has established, by name, the newest first. -/
  conts : List (Value × Value)

namespace Env

/-- Nothing. -/
def empty : Env := ⟨[], [], []⟩

/-- Its operands and variables, the newest first. -/
def words (E : Env) : List Value := E.own.filterMap Item.value?

/-- All values that it holds. -/
def values (E : Env) : List Value := E.words ++ E.params.map (·.2) ++ E.conts.map (·.2)

/-- The value of a variable, unless a dynamic binding hides it. -/
def find? (E : Env) (x : Value) : Option (Option Value) :=
  match Item.find? x E.own with
  | some found => some found
  | none => (findParam? x E.params).map some

/-- Another value for a variable. -/
def set (E : Env) (x v : Value) : Env :=
  match Item.find? x E.own with
  | some _ => { E with own := Item.set x v E.own }
  | none => { E with params := setParam x v E.params }

/-- One thing more. -/
def push (E : Env) (i : Item) : Env := { E with own := i :: E.own }

/-- The newest `n` operands, the newest first. -/
def operands (E : Env) (n : Nat) : List Value := (E.own.take n).filterMap Item.value?

/-- The newest `n` things are gone. -/
def drop (E : Env) (n : Nat) : Env := { E with own := E.own.drop n }

/-- The newest operands become variables: the last name names the newest. -/
def name (E : Env) (names : List Value) : Env :=
  { E with own := List.zipWith Item.var names.reverse (E.operands names.length)
      ++ E.own.drop names.length }

/-- A continuation is established. -/
def establish (E : Env) (name cont : Value) : Env := { E with conts := (name, cont) :: E.conts }

/-- What has been made since there was `E₀` is gone. -/
def cut (E E₀ : Env) : Env :=
  { E with
    own := E.own.drop (E.own.length - E₀.own.length)
    conts := E.conts.drop (E.conts.length - E₀.conts.length) }

end Env

/-! ## Procedures under way -/

/-- A procedure under way. -/
structure Self where
  /-- Its code. -/
  code : Value
  /-- The names that it has copied. -/
  copies : Captures
  /-- The array of their values, if it is a closure. -/
  array : Option Value
  /-- What those hold that wait for it. -/
  held : List Value
  /-- The continuations that those have in force. -/
  live : List Value

/-- What a name stands for. -/
inductive Meant where
  /-- A variable of the procedure, with its value. -/
  | here (value : Value)
  /-- An element of the array of copies. -/
  | copied (array : Value) (index : Nat)
  | global

namespace Self

/-- What the procedure and those that wait for it hold. -/
def keeps (σ : Self) (E : Env) : List Value :=
  E.values ++ (σ.code :: (σ.array.toList ++ (σ.live ++ σ.held)))

/-- The continuations in force. -/
def inForce (σ : Self) (E : Env) : List Value := E.conts.map (·.2) ++ σ.live

/-- What is held while the procedure waits for another one that it calls; in tail position it does
not wait. -/
def below (σ : Self) (tail : Bool) (E : Env) : List Value := if tail then σ.held else σ.keeps E

/-- The continuations in force then. -/
def liveBelow (σ : Self) (tail : Bool) (E : Env) : List Value :=
  if tail then σ.live else σ.inForce E

/-- What a variable's name stands for. -/
def meant (σ : Self) (E : Env) (x : Value) : Meant :=
  match E.find? x with
  | some (some v) => .here v
  | some none => .global
  | none =>
    match σ.copies.vars.idxOf? x, σ.array with
    | some i, some a => .copied a (σ.copies.conts.length + i)
    | _, _ => .global

/-- The value of a variable that is not global. -/
def local? (σ : Self) (E : Env) (t : State) (x : Value) : Option Value :=
  match σ.meant E x with
  | .here v => some v
  | .copied a i => t.heap.item? a i
  | .global => none

/-- The continuation that a name stands for. -/
def cont? (σ : Self) (E : Env) (t : State) (k : Value) : Option Value :=
  match findParam? k E.conts with
  | some c => some c
  | none =>
    match σ.copies.conts.idxOf? k, σ.array with
    | some i, some a => t.heap.item? a i
    | _, _ => none

/-- The values of names that are to be copied, continuations first. -/
def copied? (σ : Self) (E : Env) (t : State) (c : Captures) : Option (List Value) := do
  return (← c.conts.mapM (σ.cont? E t)) ++ (← c.vars.mapM (σ.local? E t))

/-- An assignment, as far as it has a meaning. -/
def assign? (σ : Self) (E : Env) (t : State) (x v : Value) : Option (Env × State) :=
  match σ.meant E x with
  | .here _ => some (E.set x v, t)
  | .copied a i => (t.heap.item? a i).map fun _ => (E, { t with heap := t.heap.withItem a i v })
  | .global => some (E, t.assigned x v)

end Self

/-! ## Calls -/

/-- A procedure as it was written: its parameters, one for the arguments past them perhaps, what it
copies, and its body. -/
structure Lambda where
  fixed : List Value
  rest : Option Value
  copies : Captures
  body : Core

namespace Lambda

/-- All parameters. -/
def params (p : Lambda) : List Value := p.fixed ++ p.rest.toList

/-- What its code is made from. -/
def proc (p : Lambda) (code : Value) : Proc :=
  Comp.procedure code p.params p.copies (if p.rest.isSome then some p.fixed.length else none) p.body

/-- The values of the parameters, with the list of the arguments past the required ones. -/
def bound (p : Lambda) (args : List Value) (list : Value) : Env :=
  { own := []
    params := (p.params.zip (args.take p.fixed.length ++ p.rest.toList.map fun _ => list)).reverse
    conts := [] }

end Lambda

end Reference
end CellLisp
