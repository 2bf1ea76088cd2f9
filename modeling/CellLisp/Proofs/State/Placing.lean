import CellLisp.Proofs.Heap.Orderly
import CellLisp.Proofs.State.Act

/-!
# `CellLisp.Proofs.State.Placing` — placing a cell, and when there is no room

Placing a cell takes the first free one, after a collection if few are free.  The collection
also keeps what the new contents refer to, so what counts is what the roots and those lead to:

| | |
| :-- | :-- |
| `s.Full c` | they lead to every cell but cell zero |
| `s.Supplied c v s'` | they led nowhere near `v`, which has the contents `c` now |

`allocCell_of_full` and `allocCell_of_not_full` say that placing fails in the first case only.
Without a collection there is room since some cells are free, more than the low-water mark;
behind a collection the free cells are exactly those that nothing led to.
-/

namespace CellLisp

/-! ## The free list -/

namespace Heap

variable {h : Heap}

/-- A free list that begins somewhere begins at a free cell. -/
theorem Pooled.isFree_firstFree (hp : h.Pooled) (hf : h.firstFree ≠ 0) :
    h.firstFree < h.cells.size ∧ (h.cell h.firstFree).isFree = true := by
  obtain ⟨l, hl, -, -, hmem⟩ := hp.list
  obtain ⟨next, l', rfl, -⟩ := hl.next hf
  have hin := (hmem h.firstFree).1 (by simp)
  exact hin.2

/-- With no free list every cell is in use. -/
theorem Pooled.inUse_of_firstFree (hp : h.Pooled) (hf : h.firstFree = 0) {i : Nat} (hi : i ≠ 0)
    (hlt : i < h.cells.size) : (h.cell i).isFree = false := by
  obtain ⟨l, hl, -, -, hmem⟩ := hp.list
  rw [hf] at hl
  cases hl with
  | nil =>
      have hno : (h.cell i).isFree ≠ true := fun hfree =>
        absurd ((hmem i).2 ⟨hi, hlt, hfree⟩) List.not_mem_nil
      simpa using hno
  | cons h0 => exact absurd rfl h0

/-- Cells that are counted as free are on the free list. -/
theorem Pooled.firstFree_ne_zero (hp : h.Pooled) (hcount : 0 < h.freeCount) :
    h.firstFree ≠ 0 := by
  obtain ⟨l, hl, -, hlen, -⟩ := hp.list
  intro hf
  rw [hf] at hl
  cases hl with
  | nil => simp at hlen; omega
  | cons h0 => exact h0 rfl

theorem take_of_firstFree_eq_zero (hf : h.firstFree = 0) (c : Cell) : h.take c = (none, h) := by
  rw [take, if_pos hf]

theorem Pooled.take_eq_some (hp : h.Pooled) (hf : h.firstFree ≠ 0) (c : Cell) :
    (h.take c).1 = some h.firstFree := by
  have hfree := (hp.isFree_firstFree hf).2
  rw [take, if_neg hf]
  cases hc : h.cell h.firstFree with
  | free next => rfl
  | _ => rw [hc] at hfree; cases hfree

end Heap

/-! ## The two steps of an allocation -/

/-- Puts a cell into the first free place. -/
def placeCell (c : Cell) : Act Value := do
  match ← modifyGet fun s => ((s.heap.take c).1, { s with heap := (s.heap.take c).2 }) with
  | some index => return .ref c.tag index
  | none => exhausted "cell pool" .cellsExhausted

/-- The state in which a cell is placed: a collection comes first when few cells are free. -/
def State.ready (s : State) (c : Cell) : State := if s.heap.isLow then s.collect (some c) else s

theorem allocCell_eq (c : Cell) (s : State) : allocCell c s = placeCell c (s.ready c) := by
  have heq : allocCell c = (do
      if (← gets fun s => s.heap.isLow) then modify fun s => s.collect (some c)
      placeCell c) := rfl
  rw [heq, act_bind, act_gets, State.ready]
  cases s.heap.isLow <;> rfl

theorem placeCell_eq (c : Cell) (s : State) :
    placeCell c s = match (s.heap.take c).1 with
      | some i => .ok (.ref c.tag i) { s with heap := (s.heap.take c).2 }
      | none => exhausted "cell pool" .cellsExhausted { s with heap := (s.heap.take c).2 } := by
  unfold placeCell
  rw [act_bind, act_modifyGet]
  cases (s.heap.take c).1 <;> rfl

/-! ## One allocation -/

namespace State

/-- What a collection keeps that knows of a cell about to be placed starts from these. -/
def startValues (s : State) (c : Cell) : List Value :=
  s.heap.startValues s.rootValues (some c)

/-- Every cell but cell zero is led to, from the roots or from what `c` refers to. -/
def Full (s : State) (c : Cell) : Prop :=
  ∀ i, i ≠ 0 → i < s.heap.cells.size → s.heap.Reachable (s.startValues c) i

/-- A cell that nothing led to has been given the contents `c`, under the tag of their kind; all
that is led to is as it was, and so is the block that comes with the contents. -/
structure Supplied (s : State) (c : Cell) (v : Value) (s' : State) : Prop where
  fresh : ∃ i, v = .ref c.tag i ∧ i ≠ 0 ∧ i < s.heap.cells.size ∧
    ¬s.heap.Reachable (s.startValues c) i ∧ s'.heap.cell i = c
  kept : Heap.Kept (s.startValues c) s.heap s'.heap
  record : ∀ b, c.block? = some b → s'.heap.arena.record? b.offset = s.heap.arena.record? b.offset
  size : s'.heap.cells.size = s.heap.cells.size
  /-- Only the heap and the log are others. -/
  rest : ∃ h w, s' = { s with heap := h, world := w }

section

variable {s s' : State} {c : Cell} {v : Value} {i : Nat}

theorem rootValues_ready (s : State) (c : Cell) : (s.ready c).rootValues = s.rootValues := by
  unfold ready
  split <;> rfl

theorem WellFormed.holds_startValues (hs : s.WellFormed (some c)) :
    ∀ v ∈ s.startValues c, s.heap.Holds v :=
  Heap.holds_startValues hs.roots hs.pending

theorem WellFormed.ready (hs : s.WellFormed (some c)) : (s.ready c).WellFormed (some c) := by
  unfold State.ready
  split
  · exact (collect_exact hs).2.1
  · exact hs

/-- What is led to is the same when a cell is placed. -/
theorem WellFormed.kept_ready (hs : s.WellFormed (some c)) :
    Heap.Kept (s.startValues c) s.heap (s.ready c).heap := by
  unfold State.ready
  split
  · exact Heap.kept_collect hs.heap hs.roots hs.pending
  · exact .refl

/-- And so is the block of the cell to be placed. -/
theorem WellFormed.record_ready (hs : s.WellFormed (some c)) {b : Block}
    (hb : c.block? = some b) :
    (s.ready c).heap.arena.record? b.offset = s.heap.arena.record? b.offset := by
  unfold State.ready
  split
  · have hcollected := Heap.collected_collect hs.heap hs.roots hs.pending
    exact hcollected.block b (.inr ⟨c, rfl, hb⟩)
  · rfl

theorem WellFormed.size_ready (hs : s.WellFormed (some c)) :
    (s.ready c).heap.cells.size = s.heap.cells.size := by
  unfold State.ready
  split
  · exact (Heap.collected_collect hs.heap hs.roots hs.pending).size
  · rfl

theorem WellFormed.references_ready (hs : s.WellFormed (some c)) :
    (s.ready c).heap.references c = s.heap.references c :=
  Heap.references_eq_of_record? fun _ hb => hs.record_ready hb

theorem WellFormed.startValues_ready (hs : s.WellFormed (some c)) :
    (s.ready c).startValues c = s.startValues c := by
  simp only [startValues, Heap.startValues, hs.references_ready, rootValues_ready]

/-- A cell that is free when a cell is placed is one that nothing led to. -/
theorem WellFormed.not_reachable_of_ready (hs : s.WellFormed (some c))
    (hi : ((s.ready c).heap.cell i).isFree = true) : ¬s.heap.Reachable (s.startValues c) i := by
  intro hr
  have hr' := hs.kept_ready.reachable hr
  rw [← hs.startValues_ready] at hr'
  have huse := hr'.inUse hs.ready.heap hs.ready.holds_startValues
  rw [hi] at huse
  cases huse

/-- There is a free cell to take unless everything is led to. -/
theorem WellFormed.firstFree_ready_iff (hs : s.WellFormed (some c)) :
    (s.ready c).heap.firstFree = 0 ↔ s.Full c := by
  have hpool := hs.ready.heap.pool
  constructor
  · intro hf i hi hlt
    rw [← hs.size_ready] at hlt
    have huse := hpool.inUse_of_firstFree hf hi hlt
    cases hlow : s.heap.isLow with
    | true =>
        rw [State.ready, if_pos hlow] at huse
        exact ((Heap.collected_collect hs.heap hs.roots hs.pending).inUse i).1 huse
    | false =>
        -- Without a collection more cells are free than the low-water mark says.
        have hcount : s.heap.lowWater < s.heap.freeCount := by
          simpa [Heap.isLow] using hlow
        have hsame : s.ready c = s := if_neg (by simp [hlow])
        rw [hsame] at hf hpool
        exact absurd hf (hpool.firstFree_ne_zero (by omega))
  · intro hfull
    refine Decidable.byContradiction fun hf => ?_
    obtain ⟨hlt, hfree⟩ := hpool.isFree_firstFree hf
    rw [hs.size_ready] at hlt
    exact hs.not_reachable_of_ready hfree (hfull _ hf hlt)

/-- When everything is led to there is no room for another cell. -/
theorem WellFormed.allocCell_of_full (hs : s.WellFormed (some c)) (hfull : s.Full c) :
    ∃ s', allocCell c s = .error (.fatal .cellsExhausted) s' := by
  have hf := hs.firstFree_ready_iff.2 hfull
  rw [allocCell_eq, placeCell_eq, Heap.take_of_firstFree_eq_zero hf]
  exact ⟨_, rfl⟩

/-- Otherwise a cell is placed where nothing led to. -/
theorem WellFormed.allocCell_of_not_full (hs : s.WellFormed (some c)) (hc : c.isFree = false)
    (hfull : ¬s.Full c) :
    ∃ v s', allocCell c s = .ok v s' ∧ s.Supplied c v s' ∧ s'.WellFormed none := by
  have hr := hs.ready
  have hf : (s.ready c).heap.firstFree ≠ 0 := fun hf => hfull (hs.firstFree_ready_iff.1 hf)
  have hplace := hr.heap.pool.take_eq_some hf c
  have htake : (s.ready c).heap.take c
      = (some (s.ready c).heap.firstFree, ((s.ready c).heap.take c).2) := Prod.ext hplace rfl
  have ht := Heap.taken_of_take hr.heap.pool htake
  have hlt : (s.ready c).heap.firstFree < s.heap.cells.size := by
    rw [← hs.size_ready]
    exact (hr.heap.pool.isFree_firstFree hf).1
  have hkept : Heap.Kept (s.startValues c) (s.ready c).heap ((s.ready c).heap.take c).2 :=
    ht.extends.kept hr.heap (by rw [← hs.startValues_ready]; exact hr.holds_startValues)
  have hroots : ∀ v ∈ s.rootValues, ((s.ready c).heap.take c).2.Holds v := by
    intro v hv
    rw [← rootValues_ready s c] at hv
    exact ht.extends.holds (hr.roots v hv)
  refine ⟨.ref c.tag (s.ready c).heap.firstFree,
    { s.ready c with heap := ((s.ready c).heap.take c).2 }, ?_, ⟨?_, ?_, ?_, ?_, ?_⟩, ?_⟩
  · rw [allocCell_eq, placeCell_eq, hplace]
  · exact ⟨_, rfl, hf, hlt, hs.not_reachable_of_ready ht.wasFree, ht.cell_self⟩
  · exact hs.kept_ready.trans hkept
  · intro b hb
    refine Eq.trans ?_ (hs.record_ready hb)
    show ((s.ready c).heap.take c).2.arena.record? b.offset = _
    rw [ht.arena]
  · exact ht.size.trans hs.size_ready
  · unfold State.ready
    split
    · exact ⟨_, _, rfl⟩
    · exact ⟨_, s.world, rfl⟩
  · have hsame : { s.ready c with heap := ((s.ready c).heap.take c).2 }.rootValues
        = s.rootValues := rootValues_ready s c
    refine ⟨ht.wellFormed hr.heap hc (hr.pending c rfl), ?_, fun _ hc => by cases hc⟩
    rw [hsame]
    exact hroots

/-- A cell that is placed is one that nothing led to. -/
theorem WellFormed.supplied (hs : s.WellFormed (some c)) (hc : c.isFree = false)
    (h : allocCell c s = .ok v s') : s.Supplied c v s' ∧ s'.WellFormed none := by
  by_cases hfull : s.Full c
  · obtain ⟨s₁, h₁⟩ := hs.allocCell_of_full hfull
    rw [h] at h₁
    cases h₁
  · obtain ⟨v₁, s₁, h₁, hsup, hw⟩ := hs.allocCell_of_not_full hc hfull
    rw [h] at h₁
    cases h₁
    exact ⟨hsup, hw⟩

end

end State
end CellLisp
