import Mathlib.Algebra.GroupWithZero.Nat
import CellLisp.Proofs.Heap.Orderly

/-!
# `CellLisp.Proofs.Heap.Upkeep` — a heap under any sequence of its operations

Nothing is said here about how the heap is used.  Cells are taken, blocks claimed and written
to, values marked and everything swept in any order, and still

| | |
| :-- | :-- |
| `Skeleton` | the free cells are one list, and the blocks tile the arena |
| `Settled` | behind a sweep no two neighbouring blocks are free |
| `Accounted` | a marked block is a used one |

The last asks for more: a cell that was marked while it was free, and taken before the next
sweep, outlives that sweep without its block.  So no cell is to be taken with a mark on it
(`Op.Unmarked`).  A collection sweeps as soon as it has marked, and never does.
-/

namespace CellLisp

/-! ## Neighbours -/

namespace Arena

/-- No two neighbouring blocks at or behind an offset are free. -/
def Apart (slots : Array Slot) (offset : Nat) : Prop :=
  ∀ o r r', offset ≤ o → slots[o]? = some (.header r) →
    slots[o + 1 + r.words]? = some (.header r') → r.used = true ∨ r'.used = true

section Apart

variable {slots slots' out : Array Slot} {run : Option Nat} {offset start : Nat} {r : BlockRecord}

/-- Behind a free run that ends where a used block begins. -/
theorem Apart.of_run (hrun : FreeRun out offset start) (h : Apart out offset)
    (hnext : ∀ r, out[offset]? = some (.header r) → r.used = true) : Apart out start := by
  obtain ⟨hlt, hstart, hinner⟩ := hrun
  intro o r r' ho hr hr'
  rcases Nat.lt_trichotomy o start with hbefore | rfl | hbehind
  · omega
  · rw [hstart] at hr
    obtain rfl := Slot.header.inj (Option.some.inj hr)
    rw [show o + 1 + (offset - o - 1) = offset by omega] at hr'
    exact .inr (hnext r' hr')
  · rcases Nat.lt_or_ge o offset with hin | hout
    · rw [hinner o hbehind hin] at hr
      cases hr
    · exact h o r r' hout hr hr'

theorem FreeRun.congr (hrun : FreeRun slots offset start)
    (hsame : ∀ k, k < offset → slots'[k]? = slots[k]?) : FreeRun slots' offset start := by
  obtain ⟨hlt, hstart, hinner⟩ := hrun
  exact ⟨hlt, (hsame start (by omega)).trans hstart,
    fun k hk hk' => (hsame k hk').trans (hinner k hk hk')⟩

/-- Behind a used block. -/
theorem Apart.of_used (hoffset : out[offset]? = some (.header r)) (hused : r.used = true)
    (hin : ∀ k, offset < k → k < offset + 1 + r.words → out[k]? = some .inner)
    (h : Apart out (offset + 1 + r.words)) : Apart out offset := by
  intro o r₁ r₂ ho hr₁ hr₂
  rcases Nat.eq_or_lt_of_le ho with rfl | hlt
  · rw [hoffset] at hr₁
    obtain rfl := Slot.header.inj (Option.some.inj hr₁)
    exact .inl hused
  · rcases Nat.lt_or_ge o (offset + 1 + r.words) with hinside | hbehind
    · rw [hin o hlt hinside] at hr₁
      cases hr₁
    · exact h o r₁ r₂ hbehind hr₁ hr₂

end Apart

/-- Releasing leaves no two free blocks side by side. -/
theorem apart_releaseFrom {slots : Array Slot} {run : Option Nat} {freed offset : Nat}
    (ht : Tiled slots offset)
    (hrun : ∀ start, run = some start → FreeRun slots offset start) :
    Apart (releaseFrom slots run freed offset).2 (run.getD offset) := by
  fun_induction releaseFrom slots run freed offset with
  | case1 slots run freed offset hlt hinner =>
      exact (ht.not_inner (by rw [Array.getElem?_eq_getElem hlt, hinner])).elim
  | case2 slots run freed offset hlt r hr hlive ih =>
      have hr : slots[offset]? = some (.header r) := by rw [Array.getElem?_eq_getElem hlt, hr]
      obtain ⟨-, hin, hnext⟩ := ht.header hr
      have hnext' : Tiled (slots.set offset (.header { r with marked := false }))
          (offset + 1 + r.words) :=
        hnext.congr (by simp) fun k hk => Array.getElem?_set_ne hlt (by omega)
      have hreleased : Released _ none _ (releaseFrom _ none freed _).2 :=
        released_releaseFrom hnext' (by simp)
      have hsame : ∀ k, k < offset + 1 + r.words → k ≠ offset →
          (releaseFrom (slots.set offset (.header { r with marked := false })) none freed
            (offset + 1 + r.words)).2[k]? = slots[k]? := fun k hk hne =>
        (hreleased.before k hk).trans (Array.getElem?_set_ne hlt (Ne.symm hne))
      have hat := (hreleased.before offset (by simp only [Option.getD_none]; omega)).trans
        (Array.getElem?_set_self hlt)
      have hused : r.used = true := by
        simp only [BlockRecord.isLive, Bool.and_eq_true] at hlive
        exact hlive.1
      have hrest := Apart.of_used hat hused
        (fun k hk hk' => (hsame k hk' (by omega)).trans (hin k hk hk')) (ih hnext' (by simp))
      cases run with
      | none => exact hrest
      | some start =>
          refine .of_run ((hrun start rfl).congr fun k hk => hsame k (by omega) (by omega)) hrest ?_
          intro r' hr'
          rw [hat] at hr'
          obtain rfl := Slot.header.inj (Option.some.inj hr')
          exact hused
  | case3 slots freed offset hlt r hr hlive freed' ih =>
      have hr : slots[offset]? = some (.header r) := by rw [Array.getElem?_eq_getElem hlt, hr]
      obtain ⟨hw, hin, hnext⟩ := ht.header hr
      have hsame : ∀ k, k ≠ offset →
          (slots.set offset (.header ⟨r.words, false, false, .blank⟩))[k]? = slots[k]? :=
        fun k hk => Array.getElem?_set_ne hlt (fun e => hk e.symm)
      refine ih (hnext.congr (by simp) fun k hk => hsame k (by omega)) ?_
      rintro start ⟨⟩
      refine ⟨by omega, ?_, fun k hk hk' => (hsame k (by omega)).trans (hin k hk hk')⟩
      rw [Array.getElem?_set_self]
      congr 3
      omega
  | case4 slots freed offset hlt r hr hlive freed' start ih =>
      have hr : slots[offset]? = some (.header r) := by rw [Array.getElem?_eq_getElem hlt, hr]
      obtain ⟨hw, hin, hnext⟩ := ht.header hr
      have hbefore := (hrun start rfl).1
      refine ih (hnext.congr (size_join ..) fun k hk =>
        getElem?_join_other (by omega) (by omega)) ?_
      rintro start' ⟨⟩
      exact (hrun start rfl).join hlt hin
  | case5 slots run freed offset hend =>
      have hnone : ∀ k, offset ≤ k → slots[k]? = none := fun k hk =>
        Array.getElem?_eq_none (by omega)
      cases run with
      | none =>
          intro o r r' ho hr
          rw [hnone o ho] at hr
          cases hr
      | some start =>
          refine .of_run (hrun start rfl) (fun o r r' ho hr => ?_) fun r hr => ?_
          · rw [hnone o ho] at hr
            cases hr
          · rw [hnone offset (Nat.le_refl _)] at hr
            cases hr

end Arena

namespace Heap

/-- What is done to a heap. -/
inductive Op where
  /-- Puts a cell into the first free place. -/
  | take (c : Cell)
  /-- Claims a block. -/
  | claim (bytes : Nat)
  /-- Marks what a value leads to. -/
  | mark (v : Value)
  /-- Gives back what is not marked. -/
  | sweep
  /-- Writes inside a block. -/
  | write (b : Block) (f : Payload → Payload)

namespace Op

/-- The heap behind an operation. -/
def apply (h : Heap) : Op → Heap
  | take c => (h.take c).2
  | claim bytes => (h.claim bytes).2
  | mark v => h.markFrom [v]
  | sweep => h.sweep.1
  | write b f => h.modifyPayload b f

/-- A cell that is placed holds a block in use, if it holds one, and so is a block that is
written to. -/
def Allowed (h : Heap) : Op → Prop
  | take c => c.isFree = false ∧ ∀ b, c.block? = some b → h.Claims b
  | write b _ => h.Claims b
  | claim _ | mark _ | sweep => True

/-- A cell that is taken carries no mark. -/
def Unmarked (h : Heap) : Op → Prop
  | take _ => h.marked h.firstFree = false
  | claim _ | mark _ | sweep | write _ _ => True

end Op

/-- What a heap becomes by operations that are permitted when they are done. -/
inductive Made (permitted : Heap → Op → Prop) (start : Heap) : Heap → Prop
  | start : Made permitted start start
  | next {h : Heap} (op : Op) : Made permitted start h → permitted h op →
      Made permitted start (op.apply h)

/-- More may be permitted. -/
theorem Made.mono {permitted permitted' : Heap → Op → Prop} {start h : Heap}
    (hm : Made permitted start h) (himp : ∀ h op, permitted h op → permitted' h op) :
    Made permitted' start h := by
  induction hm with
  | start => exact .start
  | next op _ hop ih => exact ih.next op (himp _ op hop)

/-! ## What always holds -/

/-- The free cells are one list, and the blocks tile the arena. -/
structure Skeleton (h : Heap) : Prop where
  pool : h.Pooled
  tiled : Arena.Tiled h.arena.slots 0
  top_le : h.arena.top ≤ h.arena.limit

section Skeleton

variable {h h' : Heap} {a : Arena}

/-- The free cells do not depend on the arena. -/
theorem Pooled.withArena (hp : h.Pooled) (a : Arena) : Pooled { h with arena := a } := by
  obtain ⟨hsize, hzero, l, hl, hrest⟩ := hp
  exact ⟨hsize, hzero, l, hl.congr fun _ _ => rfl, hrest⟩

theorem cell_initial {cells bytes lowWater i : Nat} (hi : i < max cells 2) :
    (Heap.new cells bytes lowWater).cell i = initialCell (max cells 2) i := by
  simp [Heap.new, cell, hi]

/-- The free list of a new pool, from a cell on. -/
theorem freeList_new (cells bytes lowWater k : Nat) : ∀ i, i ≠ 0 → i + k + 1 = max cells 2 →
    FreeList (Heap.new cells bytes lowWater) i (List.range' i (k + 1)) := by
  induction k with
  | zero =>
      intro i hi hk
      refine .cons hi ((cell_initial (by omega)).trans ?_) .nil
      simp [initialCell, hi, show i + 1 = max cells 2 by omega]
  | succ k ih =>
      intro i hi hk
      refine .cons hi ((cell_initial (by omega)).trans ?_) (ih (i + 1) (by omega) (by omega))
      simp [initialCell, hi, show i + 1 ≠ max cells 2 by omega]

theorem isFree_new (cells bytes lowWater i : Nat) :
    ((Heap.new cells bytes lowWater).cell i).isFree = true := by
  by_cases hi : i < max cells 2
  · rw [cell_initial hi]
    rfl
  · simp [Heap.new, cell, hi, Cell.isFree]

theorem size_new (cells bytes lowWater : Nat) :
    (Heap.new cells bytes lowWater).cells.size = max cells 2 := by
  simp [Heap.new]

/-- In a new heap all cells are free and no block is claimed. -/
theorem skeleton_new (cells bytes lowWater : Nat) :
    (Heap.new cells bytes lowWater).Skeleton where
  pool := by
    refine ⟨by simp [Heap.new], isFree_new .., List.range' 1 (max cells 2 - 2 + 1), ?_,
      List.nodup_range', ?_, fun i => ?_⟩
    · exact freeList_new cells bytes lowWater (max cells 2 - 2) 1 (by decide) (by omega)
    · simp only [List.length_range', Heap.new]
      omega
    · simp only [List.mem_range'_1, isFree_new, size_new, and_true]
      omega
  tiled := .done rfl
  top_le := Nat.zero_le _

theorem Skeleton.take (hs : h.Skeleton) {c : Cell} (hc : c.isFree = false) :
    (h.take c).2.Skeleton := by
  cases ht : h.take c with
  | mk place h' =>
      cases place with
      | none =>
          obtain rfl := eq_of_take_none ht
          exact hs
      | some i =>
          have htaken := taken_of_take hs.pool ht
          have harena : h'.arena = h.arena := htaken.arena
          exact ⟨htaken.pool hc, by rw [harena]; exact hs.tiled, by rw [harena]; exact hs.top_le⟩

theorem Skeleton.claim (hs : h.Skeleton) (bytes : Nat) : (h.claim bytes).2.Skeleton := by
  unfold Heap.claim
  cases hc : h.arena.claim bytes with
  | mk block a =>
      cases block with
      | none =>
          obtain rfl := Arena.eq_of_claim_none hc
          exact hs
      | some b =>
          have hclaimed := Arena.claimed_of_claim hs.tiled hs.top_le hc
          exact ⟨hs.pool.withArena a, hclaimed.tiled, hclaimed.top_le⟩

/-- Marks are no part of the skeleton. -/
theorem Skeleton.congr (hs : h.Skeleton) (e : h'.plain = h.plain)
    (hm : h'.marks.size = h.marks.size) : h'.Skeleton := by
  have hslots : h'.arena.slots.map Slot.unmark = h.arena.slots.map Slot.unmark :=
    congrArg (fun p : Heap => p.arena.slots) e
  refine ⟨hs.pool.congr e hm, hs.tiled.of_unmark hslots, ?_⟩
  have hsize : h'.arena.slots.size = h.arena.slots.size := by simpa using congrArg Array.size hslots
  rw [limit_congr e, Arena.top, hsize]
  exact hs.top_le

theorem released_sweep (hs : h.Skeleton) :
    Arena.Released h.arena.slots none 0 h.sweep.1.arena.slots := by
  have harena : (h.sweepCells 0 (h.cells.size - 1)).1.arena = h.arena := arena_sweepCells ..
  have hout : h.sweep.1.arena.slots = (Arena.releaseFrom h.arena.slots none 0 0).2 := by
    rw [← harena]
    rfl
  rw [hout]
  exact Arena.released_releaseFrom hs.tiled nofun

theorem limit_sweep (h : Heap) : h.sweep.1.arena.limit = h.arena.limit := by
  have harena : (h.sweepCells 0 (h.cells.size - 1)).1.arena = h.arena := arena_sweepCells ..
  rw [← harena]
  rfl

theorem Skeleton.sweep (hs : h.Skeleton) : h.sweep.1.Skeleton := by
  have hreleased := released_sweep hs
  refine ⟨(hs.pool.sweepCells 0 (h.cells.size - 1)).withArena _, hreleased.tiled, ?_⟩
  rw [limit_sweep, Arena.top, hreleased.size]
  exact hs.top_le

theorem Skeleton.write (hs : h.Skeleton) (b : Block) (f : Payload → Payload) :
    (h.modifyPayload b f).Skeleton where
  pool := hs.pool.withArena _
  tiled := by
    dsimp only [Heap.modifyPayload, Arena.modify]
    refine Arena.Tiled.modify hs.tiled ?_ fun r => ?_
    · rfl
    · exact ⟨{ r with payload := f r.payload }, rfl, rfl⟩
  top_le := by simpa [Heap.modifyPayload, Arena.modify, Arena.top] using hs.top_le

/-- One operation. -/
theorem Skeleton.apply (hs : h.Skeleton) {op : Op} (hop : op.Allowed h) :
    (op.apply h).Skeleton := by
  cases op with
  | take c => exact hs.take hop.1
  | claim bytes => exact hs.claim bytes
  | mark v => exact hs.congr (plain_markFrom h [v]) (size_marks_markFrom h [v])
  | sweep => exact hs.sweep
  | write b f => exact hs.write b f

/-- Any sequence of operations. -/
theorem Made.skeleton {start : Heap} (hm : Made (fun h op => op.Allowed h) start h)
    (hs : start.Skeleton) : h.Skeleton := by
  induction hm with
  | start => exact hs
  | next op _ hop ih => exact ih.apply hop

/-- No two neighbouring blocks are free. -/
def Settled (h : Heap) : Prop := Arena.Apart h.arena.slots 0

theorem Skeleton.settled (hs : h.Skeleton) : h.sweep.1.Settled := by
  have harena : (h.sweepCells 0 (h.cells.size - 1)).1.arena = h.arena := arena_sweepCells ..
  have hout : h.sweep.1.arena.slots = (Arena.releaseFrom h.arena.slots none 0 0).2 := by
    rw [← harena]
    rfl
  rw [Settled, hout]
  exact Arena.apart_releaseFrom hs.tiled nofun

end Skeleton

/-! ## Marks -/

/-- Each cell's block is in use, and marked if the cell is. -/
structure Accounted (h : Heap) : Prop where
  claims : ∀ i b, (h.cell i).block? = some b → h.Claims b
  blocks : h.BlocksMarked fun _ => False

section Accounted

variable {h h' : Heap}

theorem Accounted.used (ha : h.Accounted) {o : Nat} {r : BlockRecord}
    (hr : h.arena.record? o = some r) (hm : r.marked = true) : r.used = true := by
  obtain ⟨i, -, hb⟩ := ((ha.blocks o r hr).1 hm).resolve_left id
  obtain ⟨r', hr', hu⟩ := ha.claims i _ hb
  rw [hr] at hr'
  exact Option.some.inj hr' ▸ hu

theorem Accounted.take (ha : h.Accounted) (hs : h.Skeleton) {c : Cell}
    (hb : ∀ b, c.block? = some b → h.Claims b) (hfirst : h.marked h.firstFree = false) :
    (h.take c).2.Accounted := by
  cases ht : h.take c with
  | mk place h' =>
      cases place with
      | none =>
          obtain rfl := eq_of_take_none ht
          exact ha
      | some i =>
          have htaken := taken_of_take hs.pool ht
          have hunmarked : h.marked i = false := eq_firstFree_of_take ht ▸ hfirst
          have hclaims : ∀ b, h.Claims b → h'.Claims b := fun b => by
            rw [Claims, Claims, htaken.arena]
            exact id
          refine ⟨fun j b hj => ?_, fun o r hr => ?_⟩
          · rw [htaken.cell j] at hj
            split at hj
            · exact hclaims b (hb b hj)
            · exact hclaims b (ha.claims j b hj)
          · rw [show h'.arena = h.arena from htaken.arena] at hr
            refine (ha.blocks o r hr).trans (or_congr_right (exists_congr fun j => ?_))
            change h.marked j = true ∧ _ ↔ h'.marked j = true ∧ (h'.cell j).block? = _
            rw [htaken.marked j, htaken.cell j]
            split
            · subst_vars
              simp [hunmarked]
            · rfl

theorem Accounted.claim (ha : h.Accounted) (hs : h.Skeleton) (bytes : Nat) :
    (h.claim bytes).2.Accounted := by
  unfold Heap.claim
  cases hc : h.arena.claim bytes with
  | mk block a =>
      cases block with
      | none =>
          obtain rfl := Arena.eq_of_claim_none hc
          exact ha
      | some b =>
          have hclaimed := Arena.claimed_of_claim hs.tiled hs.top_le hc
          refine ⟨fun i b' hb => ?_, fun o r hr => ⟨fun hm => ?_, fun hcell => ?_⟩⟩
          · obtain ⟨r, hr, hu⟩ := ha.claims i b' hb
            exact ⟨r, hclaimed.kept _ r hr hu, hu⟩
          · exact (ha.blocks o r (hclaimed.marked o r hr hm)).1 hm
          · obtain ⟨i, hi, hb⟩ := hcell.resolve_left id
            obtain ⟨r', hr', hu⟩ := ha.claims i _ hb
            have hkept := hclaimed.kept o r' hr' hu
            rw [show a.record? o = some r from hr] at hkept
            obtain rfl := Option.some.inj hkept
            exact (ha.blocks o r hr').2 hcell

theorem Accounted.mark (ha : h.Accounted) (v : Value) : (h.markFrom [v]).Accounted := by
  have hplain := plain_markFrom h [v]
  refine ⟨fun i b hb => ?_, ha.blocks.markFrom⟩
  rw [cell_congr hplain] at hb
  obtain ⟨r, hr, hu⟩ := ha.claims i b hb
  have hrecord := record?_plain h b.offset
  rw [← hplain, record?_plain, hr] at hrecord
  obtain ⟨r', hr', he⟩ := Option.map_eq_some_iff.1 hrecord
  exact ⟨r', hr', (congrArg BlockRecord.used he).trans hu⟩

/-- Behind a sweep no cell in use is marked. -/
theorem Skeleton.marked_sweep (hs : h.Skeleton) {i : Nat}
    (hi : (h.sweep.1.cell i).isFree = false) : h.sweep.1.marked i = false := by
  change ((h.sweepCells 0 (h.cells.size - 1)).1.cell i).isFree = false at hi
  change (h.sweepCells 0 (h.cells.size - 1)).1.marked i = false
  have hlt := lt_of_isFree_eq_false hi
  rw [size_sweepCells] at hlt
  have hpos : i ≠ 0 := by
    rintro rfl
    rw [(hs.pool.sweepCells 0 _).zero] at hi
    cases hi
  exact marked_sweepCells (by omega) (by omega)

/-- A cell in use behind a sweep was marked, and is as it was. -/
theorem Skeleton.of_inUse_sweep (hs : h.Skeleton) {i : Nat}
    (hi : (h.sweep.1.cell i).isFree = false) :
    h.marked i = true ∧ h.sweep.1.cell i = h.cell i := by
  change ((h.sweepCells 0 (h.cells.size - 1)).1.cell i).isFree = false at hi
  change _ ∧ (h.sweepCells 0 (h.cells.size - 1)).1.cell i = h.cell i
  have hlt := lt_of_isFree_eq_false hi
  rw [size_sweepCells] at hlt
  have hpos : i ≠ 0 := by
    rintro rfl
    rw [(hs.pool.sweepCells 0 _).zero] at hi
    cases hi
  cases hm : h.marked i with
  | true => exact ⟨rfl, cell_sweepCells (.inl hm)⟩
  | false =>
      rw [isFree_sweepCells hpos (by omega) hm] at hi
      cases hi

theorem Accounted.sweep (ha : h.Accounted) (hs : h.Skeleton) : h.sweep.1.Accounted := by
  have hreleased := released_sweep hs
  refine ⟨fun i b hb => ?_, fun o r hr => ⟨fun hm => ?_, fun hcell => ?_⟩⟩
  · obtain ⟨hm, hcell⟩ := hs.of_inUse_sweep (Cell.isFree_eq_false_of_block? hb)
    rw [hcell] at hb
    obtain ⟨r, hr, hu⟩ := ha.claims i b hb
    have hmark := (ha.blocks b.offset r hr).2 (.inr ⟨i, hm, hb⟩)
    have hkept := hreleased.kept b.offset r (Nat.zero_le _) (Arena.record?_eq_some_iff.1 hr)
      (by simp [BlockRecord.isLive, hu, hmark])
    exact ⟨_, Arena.record?_eq_some_iff.2 hkept, hu⟩
  · rw [hreleased.unmarked o r (Nat.zero_le _) (Arena.record?_eq_some_iff.1 hr)] at hm
    cases hm
  · obtain ⟨i, hm, hb⟩ := hcell.resolve_left id
    rw [hs.marked_sweep (Cell.isFree_eq_false_of_block? hb)] at hm
    cases hm

theorem Accounted.write (ha : h.Accounted) (b : Block) (f : Payload → Payload) :
    (h.modifyPayload b f).Accounted := by
  refine ⟨fun i b' hb => claims_modifyPayload (ha.claims i b' hb), fun o r hr => ?_⟩
  simp only [Heap.modifyPayload, Arena.record?_modify, Option.map_eq_some_iff] at hr
  obtain ⟨r₀, hr₀, rfl⟩ := hr
  have hblocks := ha.blocks o r₀ hr₀
  split <;> exact hblocks

/-- One operation. -/
theorem Accounted.apply (ha : h.Accounted) (hs : h.Skeleton) {op : Op} (hop : op.Allowed h)
    (hclean : op.Unmarked h) : (op.apply h).Accounted := by
  cases op with
  | take c => exact ha.take hs hop.2 hclean
  | claim bytes => exact ha.claim hs bytes
  | mark v => exact ha.mark v
  | sweep => exact ha.sweep hs
  | write b f => exact ha.write b f

end Accounted

/-! ## The whole -/

section Whole

variable {h : Heap}

theorem Skeleton.limit_apply (hs : h.Skeleton) (op : Op) :
    (op.apply h).arena.limit = h.arena.limit := by
  cases op with
  | take c =>
      change (h.take c).2.arena.limit = _
      cases ht : h.take c with
      | mk place h' =>
          cases place with
          | none => rw [eq_of_take_none ht]
          | some i => rw [(taken_of_take hs.pool ht).arena]
  | claim bytes =>
      change (h.arena.claim bytes).2.limit = _
      cases hc : h.arena.claim bytes with
      | mk block a =>
          cases block with
          | none => rw [Arena.eq_of_claim_none hc]
          | some b => exact (Arena.claimed_of_claim hs.tiled hs.top_le hc).limit
  | mark v => exact limit_congr (plain_markFrom h [v])
  | sweep => exact limit_sweep h
  | write b f => rfl

theorem Made.limit {start : Heap} (hm : Made (fun h op => op.Allowed h) start h)
    (hs : start.Skeleton) : h.arena.limit = start.arena.limit := by
  induction hm with
  | start => rfl
  | next op hm _ ih => exact ((hm.skeleton hs).limit_apply op).trans ih

/-- What holds of a heap at any time. -/
structure InOrder (h : Heap) : Prop where
  /-- The links from the first free cell visit every free cell but cell zero, each once, as many
  as are counted, and end. -/
  freeList : ∃ l, FreeList h h.firstFree l ∧ l.Nodup ∧ l.length = h.freeCount ∧
    ∀ i, i ∈ l ↔ i ≠ 0 ∧ i < h.cells.size ∧ (h.cell i).isFree = true
  /-- A cell can be taken wherever the list is not empty, and is counted. -/
  first : h.firstFree ≠ 0 → 0 < h.freeCount ∧ ∃ next, h.cell h.firstFree = .free next
  /-- Blocks one behind the other make up the words in use. -/
  tiled : Arena.Tiled h.arena.slots 0
  top_le : h.arena.top ≤ h.arena.limit
  /-- The lower half of a header word is the size in bytes. -/
  sizes : ∀ o r, h.arena.record? o = some r → 0 < r.words ∧ r.image % 2 ^ 32 = 8 * r.words

end Whole

end Heap
end CellLisp
