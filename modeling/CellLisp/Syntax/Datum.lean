import CellLisp.Object

/-!
# `CellLisp.Syntax.Datum` — the tree that a value stands for

A `Datum` is a value as a tree, with no heap behind it.
-/

namespace CellLisp

/-- A tree of pairs over the atoms that can be written. -/
inductive Datum where
  | nil
  | int (value : Int)
  | float (value : Binary32)
  | symbol (name : String)
  | string (text : String)
  | pair (head tail : Datum)
  /-- A value that cannot be written. -/
  | other
  deriving DecidableEq, Inhabited, Repr

/-- The elements of a datum and its last tail. -/
def Datum.spine : Datum → List Datum × Datum
  | .pair head tail =>
    let (items, last) := tail.spine
    (head :: items, last)
  | d => ([], d)

/-- The tree of a value, to a depth of `n`. -/
def Heap.datumTo (h : Heap) : Nat → Value → Datum
  | 0, _ => .other
  | n + 1, v =>
    match v with
    | .nil => .nil
    | .int i => .int i
    | .float x _ => .float x
    | .ref .symbol _ => .symbol (h.symbolName v)
    | .ref .pair _ =>
      let (items, tail) := h.spine v
      items.foldr (fun x rest => .pair (h.datumTo n x) rest) (h.datumTo n tail)
    | v =>
      match h.text? v with
      | some text => .string text
      | none => .other

/-- The tree of a value. -/
def Heap.datum (h : Heap) (v : Value) : Datum := h.datumTo (h.cells.size + 1) v

end CellLisp
