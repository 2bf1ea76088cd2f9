import CellLisp.Proofs.Heap.Orderly

/-!
# `CellLisp.Proofs.Heap.Spare` — blocks that no cell holds yet

Contents with a block are placed in three steps: a block is claimed, it is given what it is to
hold, and a cell takes it over.  In between the block is *spare*.  `Beside h h'` says that the
two heaps differ in spare blocks only.
-/

namespace CellLisp.Heap

/-- The cells and the blocks that they hold are the same. -/
structure Beside (h h' : Heap) : Prop where
  cell : ∀ i, h'.cell i = h.cell i
  record : ∀ i b, (h.cell i).block? = some b →
    h'.arena.record? b.offset = h.arena.record? b.offset
  size : h'.cells.size = h.cells.size
  limit : h'.arena.limit = h.arena.limit

/-- A block that is claimed, but that no cell holds, with its contents. -/
structure Spare (h : Heap) (b : Block) (bytes : Nat) (p : Payload) : Prop where
  claims : h.Claims b
  unowned : h.Unowned b
  payload : h.payload b = p
  room : bytes ≤ h.arena.capacity b

section

variable {h h' : Heap} {b : Block} {bytes : Nat} {p q : Payload} {c : Cell}

theorem Beside.holds (hb : Beside h h') {v : Value} (hv : h.Holds v) : h'.Holds v := by
  intro tag i he hi
  rw [hb.cell i]
  exact hv tag i he hi

theorem Beside.kept (hb : Beside h h') (A : List Value) : Kept A h h' :=
  ⟨fun i _ => hb.cell i, fun i b _ hi => hb.record i b hi⟩

/-! ## Claiming -/

theorem beside_claim {a : Arena} (hw : h.WellFormed) (hc : Arena.Claimed h.arena bytes b a) :
    Beside h { h with arena := a } := by
  have he := Heap.extends_claim (h := h) hc
  refine ⟨fun _ => rfl, fun i b' hi => ?_, rfl, hc.limit⟩
  exact he.record_eq ((hw.sound i (Cell.isFree_eq_false_of_block? hi)).block b' hi)

theorem Orderly.spare_claim {a : Arena} (ho : h.Orderly)
    (hc : Arena.Claimed h.arena bytes b a) : Spare { h with arena := a } b bytes .blank := by
  obtain ⟨hclaims, hunowned, hblank, hroom⟩ := ho.claimed hc
  exact ⟨hclaims, hunowned, hblank, hroom⟩

/-! ## Filling -/

theorem Spare.beside_putPayload (hb : h.Spare b bytes p) (q : Payload) :
    Beside h (h.putPayload b q) := by
  refine ⟨fun _ => rfl, fun i b' hi => ?_, rfl, rfl⟩
  have hne : b'.offset ≠ b.offset := by
    intro e
    have : b' = b := by cases b; cases b'; simp_all
    subst this
    exact hb.unowned i hi
  show (Arena.modify _ _ _).record? _ = _
  rw [Arena.record?_modify]
  cases h.arena.record? b'.offset <;> simp [hne]

theorem Spare.putPayload (hb : h.Spare b bytes p) (q : Payload) :
    (h.putPayload b q).Spare b bytes q := by
  refine ⟨claims_modifyPayload hb.claims, hb.unowned, ?_, ?_⟩
  · show (h.modifyPayload b _).payload b = q
    rw [payload_modifyPayload hb.claims, if_pos rfl]
  · show bytes ≤ (h.modifyPayload b _).arena.capacity b
    rw [capacity_modifyPayload]
    exact hb.room

theorem Orderly.putPayload (ho : h.Orderly) (hb : h.Spare b bytes p) (hsize : q.size ≤ bytes)
    (hrefs : ∀ v ∈ q.references, h.Holds v) : (h.putPayload b q).Orderly :=
  ho.modifyPayload hb.claims hrefs (Nat.le_trans hsize hb.room)

/-! ## Placing -/

/-- Contents without a block may be placed if what they refer to is there. -/
theorem placeable_of_values (hc : c.isFree = false) (hblock : c.block? = none)
    (hvalues : ∀ v ∈ c.values, h.Holds v) : h.Placeable c := by
  have hrefs : h.references c = c.values := by rw [references, hblock]
  have hnone : ∀ b, c.block? ≠ some b := fun b hb => by rw [hblock] at hb; cases hb
  exact ⟨hc, ⟨by rw [hrefs]; exact hvalues, fun b hb => absurd hb (hnone b)⟩,
    fun b hb => absurd hb (hnone b), fun b hb => absurd hb (hnone b)⟩

theorem Spare.references (hb : h.Spare b bytes p) (hblock : c.block? = some b) :
    h.references c = p.references ++ c.values := by
  simp only [Heap.references, hblock, hb.payload]

/-- Contents may be placed that take over a spare block. -/
theorem Spare.placeable (hb : h.Spare b bytes p) (hblock : c.block? = some b)
    (hsize : p.size ≤ bytes) (hvalues : ∀ v ∈ p.references ++ c.values, h.Holds v) :
    h.Placeable c := by
  refine ⟨Cell.isFree_eq_false_of_block? hblock, ⟨?_, ?_⟩, ?_, ?_⟩
  · rw [hb.references hblock]
    exact hvalues
  · rw [hblock]
    rintro _ ⟨⟩
    exact hb.claims
  · rw [hblock]
    rintro _ ⟨⟩
    exact hb.unowned
  · rw [hblock]
    rintro _ ⟨⟩
    rw [hb.payload]
    exact Nat.le_trans hsize hb.room

end

end CellLisp.Heap
