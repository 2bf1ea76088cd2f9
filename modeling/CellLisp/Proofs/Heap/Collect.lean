import CellLisp.Proofs.Heap.WellFormed

/-!
# `CellLisp.Proofs.Heap.Collect` — a collection is exact

What a collection keeps is what the roots, and a cell about to be placed, lead to: no
cell more, no cell less, and with each its block.

The proof follows the three passes.  `marked_marking` and `blocksMarked_marking` say what
is marked before the sweeps; the sweep over cells goes by the former and the sweep over
blocks by the latter.  Since all that is kept is reachable, nothing that is kept refers to
what was given up, so the heap is in order again.
-/

namespace CellLisp

namespace Heap

/-! ## What is marked -/

theorem plain_markPending (h : Heap) (pending : Option Cell) :
    (h.markPending pending).plain = h.plain := by
  cases pending with
  | none => rfl
  | some c => exact (plain_markFrom _ _).trans (plain_markBlock h c)

theorem plain_marking (h : Heap) (rs : List Value) (pending : Option Cell) :
    ((h.markPending pending).markFrom rs).plain = h.plain :=
  (plain_markFrom _ _).trans (plain_markPending h pending)

@[simp] theorem size_marks_markPending (h : Heap) (pending : Option Cell) :
    (h.markPending pending).marks.size = h.marks.size := by
  cases pending with
  | none => rfl
  | some c => simp [markPending]

@[simp] theorem marked_markBlock (h : Heap) (c : Cell) (i : Nat) :
    (h.markBlock c).marked i = h.marked i := by
  simp [marked]

/-- Without marks nothing has been left out yet. -/
theorem explored_of_unmarked {h : Heap} (hm : ∀ i, h.marked i = false) (work : List Value) :
    h.Explored work := by
  intro i hi
  simp [hm i] at hi

theorem Explored.mono {h : Heap} (he : h.Explored []) (work : List Value) : h.Explored work := by
  intro i hi v hv j hj hlt
  rcases he i hi v hv j hj hlt with hm | ⟨w, hw, -⟩
  · exact .inl hm
  · cases hw

theorem explored_markPending {h : Heap} (hm : ∀ i, h.marked i = false) (pending : Option Cell) :
    (h.markPending pending).Explored [] := by
  cases pending with
  | none => exact explored_of_unmarked hm []
  | some c => exact (explored_of_unmarked (fun i => by simp [hm i]) _).markFrom

/-- The cells marked before the sweeps are those that the roots, and the cell about to be
placed, lead to. -/
theorem marked_marking {h : Heap} {rs : List Value} {pending : Option Cell}
    (hsize : h.marks.size = h.cells.size) (hm : ∀ i, h.marked i = false) {i : Nat}
    (hi : i < h.cells.size) :
    ((h.markPending pending).markFrom rs).marked i = true
      ↔ h.Reachable (h.startValues rs pending) i := by
  constructor
  · intro hmark
    rcases marked_markFrom_sound hmark with hmark | hr
    · cases pending with
      | none => simp [markPending, hm i] at hmark
      | some c =>
          rcases marked_markFrom_sound hmark with hmark | hr
          · simp [hm i] at hmark
          · exact (hr.congr (plain_markBlock h c)).mono (List.subset_append_left _ _)
    · refine (hr.congr (plain_markPending h pending)).mono ?_
      cases pending with
      | none => exact List.Subset.refl _
      | some c => exact List.subset_append_right _ _
  · intro hr
    have hplain := plain_marking h rs pending
    refine marked_of_reachable (by simpa [size_congr hplain] using hsize)
      ((explored_markPending hm pending).mono rs).markFrom (fun v hv j hj hlt => ?_)
      (hr.congr hplain.symm) (by simpa [hsize] using hi)
    simp only [size_marks_markFrom, size_marks_markPending] at hlt
    cases pending with
    | none => exact marked_markFrom_of_mem hv hj (by simpa using hlt)
    | some c =>
        rcases List.mem_append.1 hv with hv | hv
        · exact marked_markFrom_of_marked (marked_markFrom_of_mem hv hj (by simpa using hlt))
        · exact marked_markFrom_of_mem hv hj (by simpa using hlt)

/-- The blocks marked before the sweeps are those of the cells marked and of the cell
about to be placed. -/
theorem blocksMarked_marking {h : Heap} {rs : List Value} {pending : Option Cell}
    (hm : ∀ i, h.marked i = false) (hb : ∀ o r, h.arena.record? o = some r → r.marked = false) :
    ((h.markPending pending).markFrom rs).BlocksMarked
      fun o => ∃ c, pending = some c ∧ c.block? = some ⟨o⟩ := by
  refine BlocksMarked.markFrom ?_
  cases pending with
  | none =>
      intro o r hr
      simp [hb o r hr, markPending, hm]
  | some c =>
      refine BlocksMarked.markFrom fun o r hr => ?_
      obtain ⟨r₀, hr₀, hiff⟩ := marked_of_record?_markBlock hr
      simp [hiff, hb o r₀ hr₀, hm]

end Heap

theorem Arena.Tiled.of_unmark {slots slots' : Array Slot} {offset : Nat}
    (ht : Tiled slots offset) (e : slots'.map Slot.unmark = slots.map Slot.unmark) :
    Tiled slots' offset := by
  have hat : ∀ k, (slots'[k]?).map Slot.unmark = (slots[k]?).map Slot.unmark := fun k => by
    rw [← Array.getElem?_map, ← Array.getElem?_map, e]
  induction ht with
  | done h =>
      have hsize : slots'.size = slots.size := by simpa using congrArg Array.size e
      exact .done (h.trans hsize.symm)
  | @block offset r hr hw hin _ ih =>
      have hr' := hat offset
      rw [hr] at hr'
      obtain ⟨s, hs, hsr⟩ := Option.map_eq_some_iff.1 hr'
      cases s with
      | inner => simp [Slot.unmark] at hsr
      | header r' =>
          have hwords : r'.words = r.words := by
            simp only [Slot.unmark, Slot.header.injEq, BlockRecord.mk.injEq] at hsr
            exact hsr.1
          refine .block hs (hwords ▸ hw) (fun k hk hk' => ?_) (hwords ▸ ih)
          have hk'' := hat k
          rw [hin k hk (hwords ▸ hk')] at hk''
          obtain ⟨s, hs, hsi⟩ := Option.map_eq_some_iff.1 hk''
          cases s with
          | inner => exact hs
          | header r'' => simp [Slot.unmark] at hsi

namespace Heap

/-! ## What is kept -/

/-- A collection from `rs` with `pending` about to be placed leads from `h` to `h'`, and
is exact. -/
structure Collected (h h' : Heap) (rs : List Value) (pending : Option Cell) : Prop where
  /-- The cells in use afterwards are those that the roots lead to. -/
  inUse : ∀ i, (h'.cell i).isFree = false ↔ h.Reachable (h.startValues rs pending) i
  /-- They are as they were. -/
  cell : ∀ i, h.Reachable (h.startValues rs pending) i → h'.cell i = h.cell i
  /-- The blocks claimed afterwards are those that they and the cell about to be placed
  hold. -/
  claimed : ∀ b, h'.Claims b ↔ h.HeldBlock rs pending b
  /-- They are as they were. -/
  block : ∀ b, h.HeldBlock rs pending b → h'.arena.record? b.offset = h.arena.record? b.offset
  /-- No cell is marked. -/
  unmarked : ∀ i, h'.marked i = false
  /-- No block is marked. -/
  blockUnmarked : ∀ o r, h'.arena.record? o = some r → r.marked = false
  /-- Pool and arena are as large as before. -/
  size : h'.cells.size = h.cells.size
  limit : h'.arena.limit = h.arena.limit

section Collect

variable {h : Heap} {rs : List Value} {pending : Option Cell}

theorem size_marking (h : Heap) (rs : List Value) (pending : Option Cell) :
    ((h.markPending pending).markFrom rs).cells.size = h.cells.size :=
  size_congr (plain_marking h rs pending)

/-! ### Cells -/

theorem cell_collect (i : Nat) : (h.collect rs pending).1.cell i
    = (((h.markPending pending).markFrom rs).sweepCells 0
        (((h.markPending pending).markFrom rs).cells.size - 1)).1.cell i := rfl

theorem size_collect : (h.collect rs pending).1.cells.size = h.cells.size :=
  (size_sweepCells _ _ _).trans (size_marking h rs pending)

/-- A cell that the roots lead to stays as it is. -/
theorem cell_collect_of_reachable (hw : h.WellFormed)
    (hstart : ∀ v ∈ h.startValues rs pending, h.Holds v) {i : Nat}
    (hi : h.Reachable (h.startValues rs pending) i) :
    (h.collect rs pending).1.cell i = h.cell i := by
  have hlt : i < h.cells.size := lt_of_isFree_eq_false (hi.inUse hw hstart)
  rw [cell_collect,
    cell_sweepCells (.inl ((marked_marking hw.pool.marks_size hw.unmarked hlt).2 hi)),
    cell_congr (plain_marking h rs pending)]

/-- Only cells that the roots lead to are in use afterwards. -/
theorem reachable_of_inUse_collect (hw : h.WellFormed) {i : Nat}
    (hfree : ((h.collect rs pending).1.cell i).isFree = false) :
    h.Reachable (h.startValues rs pending) i := by
  have hi : i < h.cells.size := by
    rw [← @size_collect h rs pending]
    exact lt_of_isFree_eq_false hfree
  have hsize := size_marking h rs pending
  rw [cell_collect] at hfree
  by_cases hm : ((h.markPending pending).markFrom rs).marked i = true
  · exact (marked_marking hw.pool.marks_size hw.unmarked hi).1 hm
  · exfalso
    by_cases h0 : i = 0
    · subst h0
      have hz : (((h.markPending pending).markFrom rs).cell 0).isFree = true := by
        rw [cell_congr (plain_marking h rs pending)]
        exact hw.pool.zero
      rw [cell_sweepCells (.inr hz), hz] at hfree
      cases hfree
    · rw [isFree_sweepCells h0 (by omega) (by simpa using hm)] at hfree
      cases hfree

/-- No mark is left on a cell. -/
theorem marked_collect (hw : h.WellFormed)
    (hstart : ∀ v ∈ h.startValues rs pending, h.Holds v) (i : Nat) :
    (h.collect rs pending).1.marked i = false := by
  have hsize := size_marking h rs pending
  change (((h.markPending pending).markFrom rs).sweepCells 0 _).1.marked i = false
  by_cases hi : i ≠ 0 ∧ i < h.cells.size
  · exact marked_sweepCells hi.1 (by omega)
  · rw [marked_sweepCells_of_outside (by omega)]
    by_cases hin : i < h.cells.size
    · -- nothing leads to cell zero
      obtain rfl : i = 0 := by omega
      refine Bool.eq_false_iff.2 fun hm => ?_
      have hr := (marked_marking hw.pool.marks_size hw.unmarked hin).1 hm
      have hused := hr.inUse hw hstart
      rw [hw.pool.zero] at hused
      cases hused
    · have hout : ((h.markPending pending).markFrom rs).marks.size ≤ i := by
        have := hw.pool.marks_size
        simp
        omega
      rw [marked, Array.getD_eq_getD_getElem?, Array.getElem?_eq_none hout]
      rfl

/-! ### Blocks -/

theorem arena_collect : (h.collect rs pending).1.arena
    = ((h.markPending pending).markFrom rs).arena.release.2 :=
  congrArg (fun a : Arena => a.release.2) (arena_sweepCells _ _ _)

/-- What the sweep over blocks leaves. -/
theorem released_collect (hw : h.WellFormed) :
    Arena.Released ((h.markPending pending).markFrom rs).arena.slots none 0
      (h.collect rs pending).1.arena.slots := by
  rw [arena_collect]
  refine Arena.released_releaseFrom (hw.tiled.of_unmark ?_) (fun _ hs => by cases hs)
  exact congrArg (fun p : Heap => p.arena.slots) (plain_marking h rs pending)

/-- Before the sweeps a block has a mark just in case it is held. -/
theorem record?_marking (hw : h.WellFormed) {b : Block} {r : BlockRecord}
    (hr : h.arena.record? b.offset = some r) :
    ∃ m, ((h.markPending pending).markFrom rs).arena.record? b.offset
        = some { r with marked := m } ∧
      (m = true ↔ h.HeldBlock rs pending b) := by
  have hplain := congrArg (fun p : Heap => p.arena.record? b.offset)
    (plain_marking h rs pending)
  simp only [record?_plain, hr, Option.map_some] at hplain
  obtain ⟨r', hr', hrr⟩ := Option.map_eq_some_iff.1 hplain
  refine ⟨r'.marked, ?_, ?_⟩
  · rw [hr']
    cases r'
    cases r
    simp_all
  · rw [blocksMarked_marking hw.unmarked hw.blockUnmarked b.offset r' hr', or_comm]
    refine or_congr (exists_congr fun i => ?_) Iff.rfl
    rw [cell_congr (plain_marking h rs pending)]
    refine and_congr_left fun hib => ?_
    have hi : i < h.cells.size := by
      refine Nat.lt_of_not_le fun hout => ?_
      simp [cell, hout, Cell.block?] at hib
    exact marked_marking hw.pool.marks_size hw.unmarked hi

/-- Every block that is held is claimed. -/
theorem HeldBlock.claims (hw : h.WellFormed)
    (hstart : ∀ v ∈ h.startValues rs pending, h.Holds v)
    (hp : ∀ c, pending = some c → h.Sound c) {b : Block} (hb : h.HeldBlock rs pending b) :
    h.Claims b := by
  rcases hb with ⟨i, hi, hb⟩ | ⟨c, hc, hb⟩
  · exact (hw.sound i (hi.inUse hw hstart)).block b hb
  · exact (hp c hc).block b hb

/-- A block that is held stays as it is. -/
theorem record?_collect_of_held (hw : h.WellFormed) {b : Block} (hc : h.Claims b)
    (hb : h.HeldBlock rs pending b) :
    (h.collect rs pending).1.arena.record? b.offset = h.arena.record? b.offset := by
  obtain ⟨r, hr, hu⟩ := hc
  obtain ⟨m, hm, hiff⟩ := @record?_marking h rs pending hw _ _ hr
  obtain rfl : m = true := hiff.2 hb
  have hkept := (released_collect hw).kept b.offset _ (Nat.zero_le _)
    (Arena.record?_eq_some_iff.1 hm) (by simp [BlockRecord.isLive, hu])
  have hunmarked := hw.blockUnmarked _ _ hr
  rw [Arena.record?_eq_some_iff.2 hkept, hr]
  cases r
  simp_all

/-- Only blocks that are held are claimed afterwards. -/
theorem held_of_claims_collect (hw : h.WellFormed) {b : Block}
    (hb : (h.collect rs pending).1.Claims b) : h.HeldBlock rs pending b := by
  obtain ⟨r, hr, hu⟩ := hb
  obtain ⟨r₀, hr₀, hlive⟩ := (released_collect hw).used b.offset r (Nat.zero_le _)
    (Arena.record?_eq_some_iff.1 hr) hu
  have hr₀ := Arena.record?_eq_some_iff.2 hr₀
  simp only [BlockRecord.isLive, Bool.and_eq_true] at hlive
  have hplain := congrArg (fun p : Heap => p.arena.record? b.offset)
    (plain_marking h rs pending)
  simp only [record?_plain, hr₀, Option.map_some] at hplain
  obtain ⟨r₁, hr₁, -⟩ := Option.map_eq_some_iff.1 hplain.symm
  obtain ⟨m, hm, hiff⟩ := @record?_marking h rs pending hw _ _ hr₁
  rw [hr₀] at hm
  obtain rfl := Option.some.inj hm
  exact hiff.1 hlive.2

/-- A collection keeps exactly what the roots and the cell about to be placed lead to. -/
theorem collected_collect (hw : h.WellFormed) (hrs : ∀ v ∈ rs, h.Holds v)
    (hp : ∀ c, pending = some c → h.Sound c) :
    h.Collected (h.collect rs pending).1 rs pending := by
  have hstart := holds_startValues hrs hp
  refine
    { inUse := fun i => ⟨reachable_of_inUse_collect hw, fun hi => ?_⟩
      cell := fun i hi => cell_collect_of_reachable hw hstart hi
      claimed := fun b => ⟨held_of_claims_collect hw, fun hb => ?_⟩
      block := fun b hb => record?_collect_of_held hw (hb.claims hw hstart hp) hb
      unmarked := marked_collect hw hstart
      blockUnmarked := fun o r hr => ?_
      size := size_collect
      limit := ?_ }
  · rw [cell_collect_of_reachable hw hstart hi]
    exact hi.inUse hw hstart
  · obtain ⟨r, hr, hu⟩ := hb.claims hw hstart hp
    exact ⟨r, (record?_collect_of_held hw ⟨r, hr, hu⟩ hb).trans hr, hu⟩
  · exact (released_collect hw).unmarked o r (Nat.zero_le _) (Arena.record?_eq_some_iff.1 hr)
  · rw [arena_collect]
    exact limit_congr (plain_marking h rs pending)

end Collect

/-! ## The heap is in order again -/

section Collected

variable {h h' : Heap} {rs : List Value} {pending : Option Cell}

/-- What the roots lead to holds as before. -/
theorem Collected.holds (hc : h.Collected h' rs pending) {v : Value} (hv : h.Holds v)
    (hr : ∀ i, v.cell? = some i → h.Reachable (h.startValues rs pending) i) : h'.Holds v := by
  rintro tag i rfl hi
  rw [hc.cell i (hr i (Value.cell?_eq_some_iff.2 ⟨tag, rfl, hi⟩))]
  exact hv tag i rfl hi

/-- A block that is held has the contents it had. -/
theorem Collected.payload (hc : h.Collected h' rs pending) {b : Block}
    (hb : h.HeldBlock rs pending b) : h'.payload b = h.payload b := by
  simp only [Heap.payload, Arena.payload, hc.block b hb]

theorem Collected.references (hc : h.Collected h' rs pending) {c : Cell}
    (hb : ∀ b, c.block? = some b → h.HeldBlock rs pending b) :
    h'.references c = h.references c := by
  unfold Heap.references
  cases hblock : c.block? with
  | none => rfl
  | some b => simp only [hc.payload (hb b hblock)]

/-- Contents that refer to what is kept are as sound as before. -/
theorem Collected.sound (hc : h.Collected h' rs pending) {c : Cell} (hs : h.Sound c)
    (hr : ∀ v ∈ h.references c, ∀ i, v.cell? = some i →
      h.Reachable (h.startValues rs pending) i)
    (hb : ∀ b, c.block? = some b → h.HeldBlock rs pending b) : h'.Sound c := by
  refine ⟨fun v hv => ?_, fun b hblock => (hc.claimed b).2 (hb b hblock)⟩
  rw [hc.references hb] at hv
  exact hc.holds (hs.values v hv) (hr v hv)

theorem Collected.sound_of_reachable (hc : h.Collected h' rs pending) (hw : h.WellFormed)
    (hstart : ∀ v ∈ h.startValues rs pending, h.Holds v) {i : Nat}
    (hi : h.Reachable (h.startValues rs pending) i) : h'.Sound (h.cell i) :=
  hc.sound (hw.sound i (hi.inUse hw hstart)) (fun _ hv _ hj => .step hi hv hj)
    (fun _ hb => .inl ⟨i, hi, hb⟩)

theorem Pooled.congr (hp : h.Pooled) (e : h'.plain = h.plain)
    (hm : h'.marks.size = h.marks.size) : h'.Pooled := by
  obtain ⟨hsize, hzero, l, hl, hnodup, hcount, hmem⟩ := hp
  have hcell := cell_congr e
  have hcells := size_congr e
  have hfirst : h'.firstFree = h.firstFree := by
    have : h'.plain.firstFree = h.plain.firstFree := by rw [e]
    exact this
  have hfree : h'.freeCount = h.freeCount := by
    have : h'.plain.freeCount = h.plain.freeCount := by rw [e]
    exact this
  refine ⟨by omega, by rw [hcell]; exact hzero, l, ?_, hnodup, by omega, fun i => ?_⟩
  · rw [hfirst]
    exact hl.congr fun j _ => hcell j
  · rw [hmem i, hcells, hcell]

theorem pooled_collect (hp : h.Pooled) : (h.collect rs pending).1.Pooled := by
  have hm : ((h.markPending pending).markFrom rs).Pooled :=
    hp.congr (plain_marking h rs pending) (by simp)
  obtain ⟨hsize, hzero, l, hl, hrest⟩ :=
    hm.sweepCells 0 (((h.markPending pending).markFrom rs).cells.size - 1)
  exact ⟨hsize, hzero, l, hl.congr fun _ _ => rfl, hrest⟩

/-- A collection leaves a heap in order. -/
theorem WellFormed.collect (hw : h.WellFormed) (hrs : ∀ v ∈ rs, h.Holds v)
    (hp : ∀ c, pending = some c → h.Sound c) : (h.collect rs pending).1.WellFormed := by
  have hc := collected_collect hw hrs hp
  have hstart := holds_startValues hrs hp
  have hreleased := @released_collect h rs pending hw
  refine
    { pool := pooled_collect hw.pool
      tiled := hreleased.tiled
      top_le := ?_
      sound := fun i hi => ?_
      unmarked := hc.unmarked
      blockUnmarked := hc.blockUnmarked }
  · have hslots := congrArg (fun p : Heap => p.arena.slots.size) (plain_marking h rs pending)
    simp only [plain, Array.size_map] at hslots
    have htop := hw.top_le
    rw [hc.limit]
    change (h.collect rs pending).1.arena.slots.size ≤ _
    rw [hreleased.size, hslots]
    exact htop
  · have hr := (hc.inUse i).1 hi
    rw [hc.cell i hr]
    exact hc.sound_of_reachable hw hstart hr

end Collected

end Heap

/-! ## The state -/

/-- A collection keeps exactly what the roots of the state and the cell about to be placed
lead to, and leaves the state in order.  On every heap, in order or not, marking is a run
of steps of which there is no infinite run. -/
theorem State.collect_exact {s : State} {pending : Option Cell} (hs : s.WellFormed pending) :
    s.heap.Collected (s.collect pending).heap s.rootValues pending ∧
    (s.collect pending).WellFormed pending ∧
    (∀ h work, Relation.ReflTransGen Heap.MarkStep (h, work) (h.markFrom work, [])) ∧
    WellFounded fun p q : Heap × List Value => Heap.MarkStep q p := by
  have hc := Heap.collected_collect hs.heap hs.roots hs.pending
  refine ⟨hc, ⟨hs.heap.collect hs.roots hs.pending, fun v hv => ?_, ?_⟩,
    Heap.markFrom_run, Heap.wellFounded_markStep⟩
  · have hmem : v ∈ s.heap.startValues s.rootValues pending := by
      cases pending with
      | none => exact hv
      | some c => exact List.mem_append_right _ hv
    exact hc.holds (hs.roots v hv) fun i hi => .root hmem hi
  · rintro c rfl
    refine hc.sound (hs.pending c rfl) (fun v hv i hi => .root ?_ hi)
      (fun b hb => .inr ⟨c, rfl, hb⟩)
    exact List.mem_append_left _ hv

/-! ### A heap with a cycle -/

/-- Seven cells: the pairs 1 and 2 refer to each other, the array 4 to the first of them,
nothing to the array 3; 5 and 6 are free. -/
def Heap.cyclic : Heap :=
  { cells := #[.free 0, .pair (.ref .pair 2) .nil, .pair (.ref .pair 1) (.int 5), .array ⟨0⟩,
      .array ⟨2⟩, .free 6, .free 0]
    marks := Array.replicate 7 false
    firstFree := 5
    freeCount := 2
    lowWater := 2
    arena :=
      { slots := #[.header ⟨1, true, false, .values #[.int 1]⟩, .inner,
          .header ⟨1, true, false, .values #[.ref .pair 1]⟩, .inner]
        residue := #[]
        limit := 8 }
    collections := 0 }

/-- The array 4 is in the value register. -/
def State.cyclic : State :=
  { heap := .cyclic
    symbols := ⟨#[], 0⟩
    machine := { limit := 16, val := .ref .object 4 }
    roots := #[]
    known := {}
    config := {}
    gensyms := 0
    failure := none
    world := { input := [], output := .empty, log := #[], files := [] } }

theorem Heap.pooled_cyclic : Heap.cyclic.Pooled := by
  refine ⟨rfl, rfl, [5, 6], ?_, by decide, rfl, fun i => ?_⟩
  · exact .cons (by decide) rfl (.cons (by decide) rfl .nil)
  · match i with
    | 0 | 1 | 2 | 3 | 4 | 5 | 6 => decide
    | n + 7 =>
        have hsize : ¬n + 7 < Heap.cyclic.cells.size := by
          show ¬n + 7 < 7
          omega
        simp [hsize]

theorem Heap.holds_cyclic {vs : List Value}
    (hvs : vs ⊆ [.nil, .int 1, .int 5, .ref .pair 1, .ref .pair 2]) :
    ∀ v ∈ vs, Heap.cyclic.Holds v := by
  intro v hv tag i hi _
  have hv := hvs hv
  simp only [List.mem_cons, List.not_mem_nil, or_false] at hv
  rcases hv with rfl | rfl | rfl | rfl | rfl <;> cases hi <;> exact ⟨rfl, rfl⟩

theorem Heap.sound_cyclic (i : Nat) (hi : (Heap.cyclic.cell i).isFree = false) :
    Heap.cyclic.Sound (Heap.cyclic.cell i) := by
  match i with
  | 0 | 5 | 6 => cases hi
  | 1 =>
      have hrefs : Heap.cyclic.references (Heap.cyclic.cell 1) = [.ref .pair 2, .nil] := rfl
      exact ⟨by rw [hrefs]; exact holds_cyclic (by simp), nofun⟩
  | 2 =>
      have hrefs : Heap.cyclic.references (Heap.cyclic.cell 2) = [.ref .pair 1, .int 5] := rfl
      exact ⟨by rw [hrefs]; exact holds_cyclic (by simp), nofun⟩
  | 3 =>
      have hrefs : Heap.cyclic.references (Heap.cyclic.cell 3) = [.int 1] := rfl
      refine ⟨by rw [hrefs]; exact holds_cyclic (by simp), ?_⟩
      rintro b ⟨⟩
      exact ⟨_, rfl, rfl⟩
  | 4 =>
      have hrefs : Heap.cyclic.references (Heap.cyclic.cell 4) = [.ref .pair 1] := rfl
      refine ⟨by rw [hrefs]; exact holds_cyclic (by simp), ?_⟩
      rintro b ⟨⟩
      exact ⟨_, rfl, rfl⟩
  | n + 7 => simp [Heap.cyclic, Heap.cell, Cell.isFree] at hi

theorem Heap.wellFormed_cyclic : Heap.cyclic.WellFormed := by
  refine ⟨pooled_cyclic, ?_, by decide, sound_cyclic, fun i => ?_, fun o r hr => ?_⟩
  · refine .block (r := ⟨1, true, false, .values #[.int 1]⟩) rfl (by decide) (fun k hk hk' => ?_)
      (.block (r := ⟨1, true, false, .values #[.ref .pair 1]⟩) rfl (by decide)
        (fun k hk hk' => ?_) (.done rfl))
    · obtain rfl : k = 1 := by simp at hk'; omega
      rfl
    · obtain rfl : k = 3 := by simp at hk hk'; omega
      rfl
  · rcases i with _ | _ | _ | _ | _ | _ | _ | n
    case succ => simp [Heap.cyclic, Heap.marked]
    all_goals rfl
  · rcases o with _ | _ | _ | _ | n
    case succ => simp [Heap.cyclic, Arena.record?] at hr
    all_goals cases hr
    all_goals rfl

/-- A pair is about to be placed that refers to the cycle. -/
theorem State.collect_exact_cyclic :
    State.cyclic.WellFormed (some (.pair (.ref .pair 2) .nil)) ∧
    Heap.cyclic.Collected (State.cyclic.collect (some (.pair (.ref .pair 2) .nil))).heap
      State.cyclic.rootValues (some (.pair (.ref .pair 2) .nil)) := by
  have hs : State.cyclic.WellFormed (some (.pair (.ref .pair 2) .nil)) := by
    refine ⟨Heap.wellFormed_cyclic, fun v hv => ?_, ?_⟩
    · have hroots : State.cyclic.rootValues = [.nil, .nil, .ref .object 4, .nil] := rfl
      rw [hroots] at hv
      intro tag i hi h0
      simp only [List.mem_cons, List.not_mem_nil, or_false] at hv
      rcases hv with rfl | rfl | rfl | rfl <;> cases hi
      exact ⟨rfl, rfl⟩
    · rintro c ⟨⟩
      have hrefs : Heap.cyclic.references (.pair (.ref .pair 2) .nil) = [.ref .pair 2, .nil] := rfl
      exact ⟨by show ∀ v ∈ Heap.cyclic.references _, _; rw [hrefs]; exact Heap.holds_cyclic (by simp),
        nofun⟩
  exact ⟨hs, (State.collect_exact hs).1⟩

end CellLisp
