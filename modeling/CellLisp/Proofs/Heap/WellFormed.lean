import CellLisp.Alloc
import CellLisp.Proofs.Heap.FreeList
import CellLisp.Proofs.Heap.Layout

/-!
# `CellLisp.Proofs.Heap.WellFormed` — heaps in order

A heap is in order when its free cells form one list, its blocks tile the arena, no
mark is set, and nothing in use refers to what is not there:

| | |
| :-- | :-- |
| `Holds h v` | `v` refers to no cell, or to a cell in use of the kind its tag names |
| `Claims h b` | at `b` stands the header of a claimed block |
| `Sound h c` | the cell contents `c` refer to what is there |

Values do not move and cells in use are not reused, so what a value refers to stays the
same until a collection finds that nothing leads to it.
-/

namespace CellLisp

namespace Heap

/-- A value refers to no cell, or to a cell in use of the kind that its tag names. -/
def Holds (h : Heap) (v : Value) : Prop :=
  ∀ tag i, v = .ref tag i → i ≠ 0 → (h.cell i).isFree = false ∧ (h.cell i).tag = tag

/-- A claimed block stands at a place. -/
def Claims (h : Heap) (b : Block) : Prop :=
  ∃ r, h.arena.record? b.offset = some r ∧ r.used = true

/-- What the contents of a cell refer to is there. -/
structure Sound (h : Heap) (c : Cell) : Prop where
  values : ∀ v ∈ h.references c, h.Holds v
  block : ∀ b, c.block? = some b → h.Claims b

/-- A heap in order. -/
structure WellFormed (h : Heap) : Prop where
  pool : h.Pooled
  tiled : Arena.Tiled h.arena.slots 0
  top_le : h.arena.top ≤ h.arena.limit
  sound : ∀ i, (h.cell i).isFree = false → h.Sound (h.cell i)
  unmarked : ∀ i, h.marked i = false
  blockUnmarked : ∀ o r, h.arena.record? o = some r → r.marked = false

theorem Holds.inUse {h : Heap} {v : Value} {i : Nat} (hv : h.Holds v) (hc : v.cell? = some i) :
    (h.cell i).isFree = false := by
  obtain ⟨tag, rfl, hi⟩ := Value.cell?_eq_some_iff.1 hc
  exact (hv tag i rfl hi).1

/-- A value that refers to no cell holds in every heap. -/
theorem holds_of_cell?_eq_none {h : Heap} {v : Value} (hv : v.cell? = none) : h.Holds v := by
  rintro tag i rfl hi
  simp [Value.cell?, hi] at hv

/-- What the roots lead to is in use. -/
theorem Reachable.inUse {h : Heap} {rs : List Value} {i : Nat} (hw : h.WellFormed)
    (hrs : ∀ v ∈ rs, h.Holds v) (hi : h.Reachable rs i) : (h.cell i).isFree = false := by
  induction hi with
  | root hv hc => exact (hrs _ hv).inUse hc
  | step _ hv hc ih => exact ((hw.sound _ ih).values _ hv).inUse hc

/-- The values that a collection starts from. -/
def startValues (h : Heap) (rs : List Value) : Option Cell → List Value
  | some c => h.references c ++ rs
  | none => rs

/-- A block is held by a cell that the roots lead to, or by a cell about to be placed. -/
def HeldBlock (h : Heap) (rs : List Value) (pending : Option Cell) (b : Block) : Prop :=
  (∃ i, h.Reachable (h.startValues rs pending) i ∧ (h.cell i).block? = some b) ∨
  ∃ c, pending = some c ∧ c.block? = some b

end Heap

/-- A state whose heap is in order, whose roots hold, and in which a cell about to be
placed refers to what is there. -/
structure State.WellFormed (s : State) (pending : Option Cell) : Prop where
  heap : s.heap.WellFormed
  roots : ∀ v ∈ s.rootValues, s.heap.Holds v
  pending : ∀ c, pending = some c → s.heap.Sound c

theorem Heap.holds_startValues {h : Heap} {rs : List Value} {pending : Option Cell}
    (hrs : ∀ v ∈ rs, h.Holds v) (hp : ∀ c, pending = some c → h.Sound c) :
    ∀ v ∈ h.startValues rs pending, h.Holds v := by
  intro v hv
  cases pending with
  | none => exact hrs v hv
  | some c =>
      rcases List.mem_append.1 hv with hv | hv
      · exact (hp c rfl).values v hv
      · exact hrs v hv

end CellLisp
