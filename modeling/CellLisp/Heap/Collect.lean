import CellLisp.Heap.Pool

/-!
# `CellLisp.Heap.Collect` — the collector

A collection finds the cells that the roots lead to and gives back all others,
with every block that no such cell holds.

    markBlock    marks the block of a cell
    markFrom     marks the cells that a list of values leads to, and their blocks
    sweepCells   the cells without a mark go to the front of the free list, the
                 lowest first; the others lose their marks
    sweep        both sweeps, and how much was given back
    collect      what a cell about to be placed refers to is marked first, then the
                 roots

Marking ends on every graph, cycles included: each cell is entered once.
-/

namespace CellLisp.Heap

/-! ## Marking -/

/-- Whether a cell is marked. -/
def marked (h : Heap) (i : Nat) : Bool := h.marks.getD i false

/-- Entering a cell leaves fewer to enter. -/
theorem count_false_set {marks : Array Bool} {i : Nat} (hi : i < marks.size)
    (hf : ¬marks[i] = true) : (marks.set i true).count false < marks.count false := by
  have hf : marks[i] = false := by simpa using hf
  have hpos : 0 < marks.count false := Array.count_pos_iff.2 (hf ▸ Array.getElem_mem hi)
  have hat : (marks[i] == false) = true := by rw [hf]; rfl
  rw [Array.count_set hi, if_pos hat, if_neg (by decide)]
  omega

/-- Marks the block of a cell. -/
def markBlock (h : Heap) (c : Cell) : Heap :=
  match c.block? with
  | some b => { h with arena := h.arena.mark b }
  | none => h

@[simp] theorem marks_markBlock (h : Heap) (c : Cell) : (h.markBlock c).marks = h.marks := by
  unfold markBlock; split <;> rfl

/-- Marks a cell and its block. -/
def enter (h : Heap) (i : Nat) : Heap :=
  let c := h.cell i
  markBlock { h with marks := h.marks.setIfInBounds i true } c

theorem count_false_enter (h : Heap) {i : Nat} (hi : i < h.marks.size)
    (hf : ¬h.marks[i] = true) : (h.enter i).marks.count false < h.marks.count false := by
  simpa [enter, Array.setIfInBounds, hi] using count_false_set hi hf

/-- Follows the values of a work list, marking each cell that is not yet marked and its
block. -/
def markFrom (h : Heap) (work : List Value) : Heap :=
  match work with
  | [] => h
  | v :: work =>
    match v.cell? with
    | none => h.markFrom work
    | some i =>
      if hi : i < h.marks.size then
        if hf : h.marks[i] = true then h.markFrom work
        else
          let next := h.references (h.cell i)
          (h.enter i).markFrom (next ++ work)
      else h.markFrom work
  termination_by (h.marks.count false, work.length)
  decreasing_by
    · exact Prod.Lex.right _ (by simp)
    · exact Prod.Lex.right _ (by simp)
    · exact Prod.Lex.left _ _ (h.count_false_enter hi hf)
    · exact Prod.Lex.right _ (by simp)

/-- Marks what a cell about to be placed refers to. -/
def markPending (h : Heap) : Option Cell → Heap
  | some c => (h.markBlock c).markFrom (h.references c)
  | none => h

/-! ## Sweeping -/

/-- Takes the mark off cell `i` if it has one, else puts the cell on the free list if it
is in use; counts the latter. -/
def sweepCell (h : Heap) (freed i : Nat) : Heap × Nat :=
  if h.marked i then ({ h with marks := h.marks.setIfInBounds i false }, freed)
  else if (h.cell i).isFree then (h, freed)
  else
    let h := h.set i (.free h.firstFree)
    ({ h with firstFree := i, freeCount := h.freeCount + 1 }, freed + 1)

/-- Sweeps the cells `n`, `n - 1`, …, 1. -/
def sweepCells (h : Heap) (freed : Nat) : Nat → Heap × Nat
  | 0 => (h, freed)
  | n + 1 =>
    let (h, freed) := sweepCell h freed (n + 1)
    sweepCells h freed n

/-- What a collection gave back. -/
structure Reclaimed where
  /-- Cells put on the free list. -/
  cells : Nat
  /-- Blocks that were in use and are free. -/
  blocks : Nat
  deriving DecidableEq, Repr

/-- Gives back all cells and blocks without a mark, and clears the marks. -/
def sweep (h : Heap) : Heap × Reclaimed :=
  let (h, cells) := sweepCells h 0 (h.cells.size - 1)
  let (blocks, arena) := h.arena.release
  ({ h with arena }, ⟨cells, blocks⟩)

/-- Collects: keeps what `roots` and the references of `pending` lead to. -/
def collect (h : Heap) (roots : List Value) (pending : Option Cell) : Heap × Reclaimed :=
  let (h, reclaimed) := ((h.markPending pending).markFrom roots).sweep
  ({ h with collections := h.collections + 1 }, reclaimed)

end CellLisp.Heap
