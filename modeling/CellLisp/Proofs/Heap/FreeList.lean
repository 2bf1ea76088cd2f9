import CellLisp.Heap.Collect

/-!
# `CellLisp.Proofs.Heap.FreeList` — the free cells and the sweep over cells

The free cells other than cell zero form one list through their own links.  `Pooled`
says so: following the links from the first free cell visits each of them once, as many
as are counted.

Sweeping looks at each cell once, from the last to the first.

| | before | after |
| :-- | :-- | :-- |
| `cell_sweepCells` | marked, or free already | as it was |
| `isFree_sweepCells` | in use and not marked | free |
| `marked_sweepCells` | any cell | not marked |
| `Pooled.sweepCells` | the free cells | are one list again |
-/

namespace CellLisp.Heap

/-- Following the links from a cell visits the cells of a list and ends. -/
inductive FreeList (h : Heap) : Nat → List Nat → Prop
  | nil : FreeList h 0 []
  | cons {i next : Nat} {l : List Nat} : i ≠ 0 → h.cell i = .free next →
      FreeList h next l → FreeList h i (i :: l)

/-- The links of the cells on a list are all that a free list depends on. -/
theorem FreeList.congr {h h' : Heap} {i : Nat} {l : List Nat} (hl : FreeList h i l)
    (hsame : ∀ j ∈ l, h'.cell j = h.cell j) : FreeList h' i l := by
  induction hl with
  | nil => exact .nil
  | cons hi hc _ ih =>
      exact .cons hi ((hsame _ (by simp)).trans hc)
        (ih fun j hj => hsame j (List.mem_cons_of_mem _ hj))

/-- The free cells other than cell zero are one list, which the count goes with. -/
structure Pooled (h : Heap) : Prop where
  marks_size : h.marks.size = h.cells.size
  zero : (h.cell 0).isFree = true
  list : ∃ l, FreeList h h.firstFree l ∧ l.Nodup ∧ l.length = h.freeCount ∧
    ∀ i, i ∈ l ↔ i ≠ 0 ∧ i < h.cells.size ∧ (h.cell i).isFree = true

theorem cell_set (h : Heap) {i : Nat} (hi : i < h.cells.size) (c : Cell) (j : Nat) :
    (h.set i c).cell j = if j = i then c else h.cell j := by
  simp only [cell, set, Array.getD_eq_getD_getElem?, Array.getElem?_setIfInBounds]
  by_cases e : i = j
  · subst e
    simp [hi]
  · simp [e, Ne.symm e]

/-- A cell in use is a cell of the pool. -/
theorem lt_of_isFree_eq_false {h : Heap} {i : Nat} (hc : (h.cell i).isFree = false) :
    i < h.cells.size := by
  refine Nat.lt_of_not_le fun hout => ?_
  simp only [cell, Array.getD_eq_getD_getElem?, Array.getElem?_eq_none hout] at hc
  cases hc

/-! ## One cell -/

/-- What sweeping one cell does. -/
inductive Swept (h : Heap) (i : Nat) : Heap → Prop
  | kept : h.marked i = true → Swept h i { h with marks := h.marks.setIfInBounds i false }
  | free : h.marked i = false → (h.cell i).isFree = true → Swept h i h
  | freed : h.marked i = false → (h.cell i).isFree = false →
      Swept h i { h.set i (.free h.firstFree) with
        firstFree := i
        freeCount := h.freeCount + 1 }

theorem swept_sweepCell (h : Heap) (freed i : Nat) : Swept h i (h.sweepCell freed i).1 := by
  unfold sweepCell
  split
  · exact .kept ‹_›
  · split
    · exact .free (by simpa using ‹¬h.marked i = true›) ‹_›
    · exact .freed (by simpa using ‹¬h.marked i = true›) (by simpa using ‹¬_ = true›)

section Swept

variable {h h' : Heap} {i : Nat}

theorem Swept.arena_eq (hs : Swept h i h') : h'.arena = h.arena := by
  cases hs <;> rfl

theorem Swept.size_eq (hs : Swept h i h') : h'.cells.size = h.cells.size := by
  cases hs with
  | kept _ => rfl
  | free _ _ => rfl
  | freed _ _ => simp [set]

theorem Swept.cell_of_ne (hs : Swept h i h') {j : Nat} (hj : j ≠ i) : h'.cell j = h.cell j := by
  cases hs with
  | kept _ => rfl
  | free _ _ => rfl
  | freed _ hc => exact (cell_set h (lt_of_isFree_eq_false hc) _ j).trans (by simp [hj])

theorem Swept.marked_of_ne (hs : Swept h i h') {j : Nat} (hj : j ≠ i) :
    h'.marked j = h.marked j := by
  cases hs with
  | kept _ => simp [marked, Array.getD_eq_getD_getElem?, Ne.symm hj]
  | free _ _ => rfl
  | freed _ _ => rfl

theorem Swept.cell_of_marked (hs : Swept h i h') (hm : h.marked i = true) :
    h'.cell i = h.cell i := by
  cases hs with
  | kept _ => rfl
  | free hf _ => simp [hm] at hf
  | freed hf _ => simp [hm] at hf

theorem Swept.isFree_of_not_marked (hs : Swept h i h') (hm : h.marked i = false) :
    (h'.cell i).isFree = true := by
  cases hs with
  | kept hk => rw [hm] at hk; cases hk
  | free _ hf => exact hf
  | freed _ hc =>
      have hset := cell_set h (lt_of_isFree_eq_false hc) (.free h.firstFree) i
      exact (congrArg Cell.isFree (hset.trans (if_pos rfl))).trans rfl

theorem Swept.cell_of_isFree (hs : Swept h i h') (hf : (h.cell i).isFree = true) :
    h'.cell i = h.cell i := by
  cases hs with
  | kept _ => rfl
  | free _ _ => rfl
  | freed _ hc => rw [hf] at hc; cases hc

theorem Swept.not_marked (hs : Swept h i h') : h'.marked i = false := by
  cases hs with
  | kept hm =>
      have hi : i < h.marks.size := by
        refine Nat.lt_of_not_le fun hout => ?_
        simp [marked, hout] at hm
      simp [marked, hi]
  | free hm _ => exact hm
  | freed hm _ => exact hm

/-- A cell that is given up comes to the front of the free list. -/
theorem Pooled.swept (hp : h.Pooled) (hs : Swept h i h') (hi : i ≠ 0) : h'.Pooled := by
  obtain ⟨hsize, hzero, l, hl, hnodup, hcount, hmem⟩ := hp
  cases hs with
  | kept _ => exact ⟨by simpa using hsize, hzero, l, hl.congr fun _ _ => rfl, hnodup, hcount, hmem⟩
  | free _ _ => exact ⟨hsize, hzero, l, hl, hnodup, hcount, hmem⟩
  | freed _ hc =>
      have hlt := lt_of_isFree_eq_false hc
      have hcell := cell_set h hlt (.free h.firstFree)
      have hnot : i ∉ l := fun hin => by
        rw [((hmem i).1 hin).2.2] at hc
        cases hc
      refine ⟨by simpa [set] using hsize, ?_, i :: l, ?_, ?_, ?_, fun j => ?_⟩
      · exact (congrArg Cell.isFree ((hcell 0).trans (if_neg hi.symm))).trans hzero
      · refine .cons hi ((hcell i).trans (if_pos rfl)) (hl.congr fun j hj => ?_)
        have hne : j ≠ i := fun e => by subst e; exact hnot hj
        exact (hcell j).trans (if_neg hne)
      · exact List.nodup_cons.2 ⟨hnot, hnodup⟩
      · simp [hcount]
      · change j ∈ i :: l ↔ j ≠ 0 ∧ j < (h.set i _).cells.size ∧ ((h.set i _).cell j).isFree = true
        rw [hcell j, List.mem_cons, hmem j]
        by_cases e : j = i
        · subst e
          simp [hi, set, hlt, Cell.isFree]
        · simp [e, set]

end Swept

/-! ## All cells -/

theorem sweepCells_succ (h : Heap) (freed n : Nat) :
    (h.sweepCells freed (n + 1)).1
      = ((h.sweepCell freed (n + 1)).1.sweepCells (h.sweepCell freed (n + 1)).2 n).1 := rfl

theorem arena_sweepCells (h : Heap) (freed n : Nat) :
    (h.sweepCells freed n).1.arena = h.arena := by
  induction n generalizing h freed with
  | zero => rfl
  | succ n ih => exact (ih _ _).trans (swept_sweepCell h freed (n + 1)).arena_eq

theorem size_sweepCells (h : Heap) (freed n : Nat) :
    (h.sweepCells freed n).1.cells.size = h.cells.size := by
  induction n generalizing h freed with
  | zero => rfl
  | succ n ih => exact (ih _ _).trans (swept_sweepCell h freed (n + 1)).size_eq

theorem Pooled.sweepCells {h : Heap} (hp : h.Pooled) (freed n : Nat) :
    (h.sweepCells freed n).1.Pooled := by
  induction n generalizing h freed with
  | zero => exact hp
  | succ n ih => exact ih (hp.swept (swept_sweepCell h freed (n + 1)) (Nat.succ_ne_zero n)) _

/-- Cells not gone over keep their marks. -/
theorem marked_sweepCells_of_outside {h : Heap} {freed n j : Nat} (hj : j = 0 ∨ n < j) :
    (h.sweepCells freed n).1.marked j = h.marked j := by
  induction n generalizing h freed with
  | zero => rfl
  | succ n ih =>
      exact (ih (by omega)).trans
        ((swept_sweepCell h freed (n + 1)).marked_of_ne (by omega))

/-- Cells gone over lose them. -/
theorem marked_sweepCells {h : Heap} {freed n j : Nat} (hpos : j ≠ 0) (hj : j ≤ n) :
    (h.sweepCells freed n).1.marked j = false := by
  induction n generalizing h freed with
  | zero => omega
  | succ n ih =>
      have hs := swept_sweepCell h freed (n + 1)
      rcases Nat.lt_or_ge n j with hlt | hge
      · obtain rfl : j = n + 1 := by omega
        exact (marked_sweepCells_of_outside (.inr hlt)).trans hs.not_marked
      · exact ih hge

/-- Cells not gone over stay as they are. -/
theorem cell_sweepCells_of_lt {h : Heap} {freed n j : Nat} (hj : n < j) :
    (h.sweepCells freed n).1.cell j = h.cell j := by
  induction n generalizing h freed with
  | zero => rfl
  | succ n ih =>
      exact (ih (by omega)).trans
        ((swept_sweepCell h freed (n + 1)).cell_of_ne (by omega))

/-- Cells that are marked or free stay as they are. -/
theorem cell_sweepCells {h : Heap} {freed n j : Nat}
    (hj : h.marked j = true ∨ (h.cell j).isFree = true) :
    (h.sweepCells freed n).1.cell j = h.cell j := by
  induction n generalizing h freed with
  | zero => rfl
  | succ n ih =>
      have hs := swept_sweepCell h freed (n + 1)
      rw [sweepCells_succ]
      by_cases e : j = n + 1
      · subst e
        have hsame : (h.sweepCell freed (n + 1)).1.cell (n + 1) = h.cell (n + 1) :=
          hj.elim hs.cell_of_marked hs.cell_of_isFree
        rcases hj with hm | hf
        · -- gone over already, so that the rest of the sweep does not touch it
          exact (cell_sweepCells_of_lt (Nat.lt_succ_self n)).trans hsame
        · exact (ih (.inr (by rw [hsame]; exact hf))).trans hsame
      · refine (ih ?_).trans (hs.cell_of_ne e)
        rw [hs.marked_of_ne e, hs.cell_of_ne e]
        exact hj

/-- Cells that are not marked are free in the end. -/
theorem isFree_sweepCells {h : Heap} {freed n j : Nat} (hpos : j ≠ 0) (hj : j ≤ n)
    (hm : h.marked j = false) : ((h.sweepCells freed n).1.cell j).isFree = true := by
  induction n generalizing h freed with
  | zero => omega
  | succ n ih =>
      have hs := swept_sweepCell h freed (n + 1)
      rw [sweepCells_succ]
      by_cases e : j = n + 1
      · subst e
        have hfree := hs.isFree_of_not_marked hm
        exact (congrArg Cell.isFree (cell_sweepCells (.inr hfree))).trans hfree
      · exact ih (by omega) ((hs.marked_of_ne e).trans hm)

end CellLisp.Heap
