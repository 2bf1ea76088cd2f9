import CellLisp.Heap.Arena

/-!
# `CellLisp.Heap.Pool` — the pool of cells beside the arena

The pool is fixed in size.  Cell zero is never handed out; the free cells form a
list through their own contents, at first in ascending order.

    take         the first free cell, filled
    cell         contents of a cell
    set          new contents for a cell
    claim        a block of the arena
-/

namespace CellLisp

/-- Pool and arena. -/
structure Heap where
  /-- The pool. -/
  cells : Array Cell
  /-- The cells that a collection has come upon, each at its index. -/
  marks : Array Bool
  /-- First free cell; zero when there is none. -/
  firstFree : Nat
  /-- Number of free cells. -/
  freeCount : Nat
  /-- Number of free cells at which an allocation collects first. -/
  lowWater : Nat
  /-- Payload blocks. -/
  arena : Arena
  /-- Collections so far. -/
  collections : Nat
  deriving Inhabited

namespace Heap

/-- Contents of cell `i` in a new pool of `n` cells. -/
def initialCell (n i : Nat) : Cell := .free (if i = 0 ∨ i + 1 = n then 0 else i + 1)

/-- A pool of at least two cells, all free, and an empty arena. -/
def new (cells payloadBytes lowWater : Nat) : Heap :=
  let n := max cells 2
  { cells := Array.ofFn fun i : Fin n => initialCell n i
    marks := Array.replicate n false
    firstFree := 1
    freeCount := n - 1
    lowWater
    arena := .new payloadBytes
    collections := 0 }

/-- Cells handed out. -/
def liveCount (h : Heap) : Nat := h.cells.size - 1 - h.freeCount

/-- Whether an allocation should collect first. -/
def isLow (h : Heap) : Bool := h.freeCount ≤ h.lowWater

/-- Contents of a cell; outside the pool, a free cell. -/
def cell (h : Heap) (i : Nat) : Cell := h.cells.getD i (.free 0)

/-- Replaces the contents of a cell. -/
def set (h : Heap) (i : Nat) (c : Cell) : Heap :=
  { h with cells := h.cells.setIfInBounds i c }

/-- Puts `c` into the first free cell; nothing changes when there is none. -/
def take (h : Heap) (c : Cell) : Option Nat × Heap :=
  if h.firstFree = 0 then (none, h)
  else match h.cell h.firstFree with
    | .free next =>
      let index := h.firstFree
      let h := h.set index c
      (some index, { h with firstFree := next, freeCount := h.freeCount - 1 })
    | _ => (none, h)

/-- Claims a blank block for a number of bytes; nothing changes when none fits. -/
def claim (h : Heap) (bytes : Nat) : Option Block × Heap :=
  let (block, arena) := h.arena.claim bytes
  (block, { h with arena })

/-- What the block of a cell holds. -/
def payload (h : Heap) (b : Block) : Payload := h.arena.payload b

/-- Changes what a block holds. -/
def modifyPayload (h : Heap) (b : Block) (f : Payload → Payload) : Heap :=
  { h with arena := h.arena.modify b f }

/-- Replaces what a block holds. -/
def putPayload (h : Heap) (b : Block) (p : Payload) : Heap := h.modifyPayload b fun _ => p

/-- Everything a cell refers to, in its own fields or in its block. -/
def references (h : Heap) (c : Cell) : List Value :=
  match c.block? with
  | some b => (h.payload b).references ++ c.values
  | none => c.values

/-- Cells that `v` leads to from the roots `rs`. -/
inductive Reachable (h : Heap) (rs : List Value) : Nat → Prop where
  | root {v : Value} {i : Nat} : v ∈ rs → v.cell? = some i → Reachable h rs i
  | step {i j : Nat} {v : Value} :
      Reachable h rs i → v ∈ h.references (h.cell i) → v.cell? = some j → Reachable h rs j

end Heap
end CellLisp
