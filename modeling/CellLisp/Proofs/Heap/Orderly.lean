import CellLisp.Proofs.Heap.Claim
import CellLisp.Proofs.Heap.Collect

/-!
# `CellLisp.Proofs.Heap.Orderly` — heaps in order stay in order

A heap is *orderly* when it is in order, no two cells hold one block, and what a block holds
fits in it.  Each way of changing a heap keeps it so:

| | changes |
| :-- | :-- |
| `Orderly.collect` | cells and blocks that nothing leads to are given up |
| `Orderly.take` | a free cell is put to use |
| `Orderly.claim` | a block that nobody has is claimed |
| `Orderly.set` | a cell gets other contents of the same kind |
| `Orderly.modifyPayload` | a block gets other contents |

`Kept A h h'` says that what the values `A` lead to is the same in both heaps, and
`Extends h h'` that all is that is in use.
-/

namespace CellLisp

@[simp] theorem Cell.isFree_eq_false_of_block? {c : Cell} {b : Block} (h : c.block? = some b) :
    c.isFree = false := by
  cases c <;> simp_all [Cell.block?, Cell.isFree]

namespace Heap

/-- A heap in order in which each block has one owner and holds what fits in it. -/
structure Orderly (h : Heap) : Prop where
  wf : h.WellFormed
  owned : ∀ i j b, (h.cell i).block? = some b → (h.cell j).block? = some b → i = j
  fits : ∀ i b, (h.cell i).block? = some b → (h.payload b).size ≤ h.arena.capacity b

/-- A block has room for no more than the whole arena has. -/
theorem WellFormed.capacity_le {h : Heap} (hw : h.WellFormed) (b : Block) :
    h.arena.capacity b ≤ 8 * h.arena.limit := by
  have htop := hw.top_le
  unfold Arena.capacity
  split
  · rename_i r hr
    unfold Arena.record? at hr
    split at hr
    · rename_i r' hslot
      obtain rfl := Option.some.inj hr
      have := hw.tiled.words_le hslot (Nat.zero_le _)
      unfold Arena.top at htop
      omega
    · cases hr
  · exact Nat.zero_le _

/-- No cell holds a block. -/
def Unowned (h : Heap) (b : Block) : Prop := ∀ i, (h.cell i).block? ≠ some b

/-- Contents that may be put into a cell: what they refer to is there, and their block is
theirs. -/
structure Placeable (h : Heap) (c : Cell) : Prop where
  inUse : c.isFree = false
  sound : h.Sound c
  unowned : ∀ b, c.block? = some b → h.Unowned b
  fits : ∀ b, c.block? = some b → (h.payload b).size ≤ h.arena.capacity b

/-- What the values lead to is the same. -/
structure Kept (A : List Value) (h h' : Heap) : Prop where
  cell : ∀ i, h.Reachable A i → h'.cell i = h.cell i
  record : ∀ i b, h.Reachable A i → (h.cell i).block? = some b →
    h'.arena.record? b.offset = h.arena.record? b.offset

/-- All that is in use is the same. -/
structure Extends (h h' : Heap) : Prop where
  cell : ∀ i, (h.cell i).isFree = false → h'.cell i = h.cell i
  record : ∀ o r, h.arena.record? o = some r → r.used = true → h'.arena.record? o = some r

/-! ## What is the same -/

section Same

variable {h h' h'' : Heap} {A B : List Value}

theorem payload_eq_of_record? {b : Block}
    (e : h'.arena.record? b.offset = h.arena.record? b.offset) : h'.payload b = h.payload b := by
  simp only [payload, Arena.payload, e]

theorem references_eq_of_record? {c : Cell}
    (e : ∀ b, c.block? = some b → h'.arena.record? b.offset = h.arena.record? b.offset) :
    h'.references c = h.references c := by
  unfold references
  cases hb : c.block? with
  | none => rfl
  | some b => simp only [payload_eq_of_record? (e b hb)]

/-- The same cells are led to. -/
theorem Kept.reachable (hk : Kept A h h') {i : Nat} (hi : h.Reachable A i) : h'.Reachable A i := by
  induction hi with
  | root hv hc => exact .root hv hc
  | step hi hv hc ih =>
      refine .step ih ?_ hc
      rw [hk.cell _ hi, references_eq_of_record? fun b hb => hk.record _ b hi hb]
      exact hv

theorem Kept.trans (h₁ : Kept A h h') (h₂ : Kept A h' h'') : Kept A h h'' where
  cell i hi := (h₂.cell i (h₁.reachable hi)).trans (h₁.cell i hi)
  record i b hi hb := (h₂.record i b (h₁.reachable hi) (by rw [h₁.cell i hi]; exact hb)).trans
    (h₁.record i b hi hb)

theorem Kept.refl : Kept A h h := ⟨fun _ _ => rfl, fun _ _ _ _ => rfl⟩

theorem Kept.mono (hk : Kept B h h') (H : A ⊆ B) : Kept A h h' :=
  ⟨fun i hi => hk.cell i (hi.mono H), fun i b hi => hk.record i b (hi.mono H)⟩

theorem Kept.holds (hk : Kept A h h') {v : Value} (hv : h.Holds v) (hm : v ∈ A) :
    h'.Holds v := by
  rintro tag i rfl hi
  rw [hk.cell i (.root hm (Value.cell?_eq_some_iff.2 ⟨tag, rfl, hi⟩))]
  exact hv tag i rfl hi

theorem Extends.holds (he : Extends h h') {v : Value} (hv : h.Holds v) : h'.Holds v := by
  rintro tag i rfl hi
  rw [he.cell i (hv tag i rfl hi).1]
  exact hv tag i rfl hi

theorem Extends.claims (he : Extends h h') {b : Block} (hb : h.Claims b) : h'.Claims b := by
  obtain ⟨r, hr, hu⟩ := hb
  exact ⟨r, he.record _ r hr hu, hu⟩

theorem Extends.record_eq (he : Extends h h') {b : Block} (hb : h.Claims b) :
    h'.arena.record? b.offset = h.arena.record? b.offset := by
  obtain ⟨r, hr, hu⟩ := hb
  rw [hr, he.record _ r hr hu]

theorem Extends.references (he : Extends h h') {c : Cell} (hs : h.Sound c) :
    h'.references c = h.references c :=
  references_eq_of_record? fun b hb => he.record_eq (hs.block b hb)

theorem Extends.sound (he : Extends h h') {c : Cell} (hs : h.Sound c) : h'.Sound c := by
  refine ⟨fun v hv => ?_, fun b hb => he.claims (hs.block b hb)⟩
  rw [he.references hs] at hv
  exact he.holds (hs.values v hv)

theorem Extends.kept (he : Extends h h') (hw : h.WellFormed) (hA : ∀ v ∈ A, h.Holds v) :
    Kept A h h' where
  cell i hi := he.cell i (hi.inUse hw hA)
  record i b hi hb := he.record_eq ((hw.sound i (hi.inUse hw hA)).block b hb)

end Same

/-! ## Collecting -/

section Collect

variable {h : Heap} {rs : List Value} {pending : Option Cell}

theorem kept_collect (hw : h.WellFormed) (hrs : ∀ v ∈ rs, h.Holds v)
    (hp : ∀ c, pending = some c → h.Sound c) :
    Kept (h.startValues rs pending) h (h.collect rs pending).1 where
  cell i hi := (collected_collect hw hrs hp).cell i hi
  record i b hi hb := (collected_collect hw hrs hp).block b (.inl ⟨i, hi, hb⟩)

theorem Orderly.collect (ho : h.Orderly) (hrs : ∀ v ∈ rs, h.Holds v)
    (hp : ∀ c, pending = some c → h.Sound c) : (h.collect rs pending).1.Orderly := by
  have hc := collected_collect ho.wf hrs hp
  have hcell : ∀ i b, ((h.collect rs pending).1.cell i).block? = some b →
      h.Reachable (h.startValues rs pending) i ∧ (h.cell i).block? = some b := by
    intro i b hb
    have hi := (hc.inUse i).1 (Cell.isFree_eq_false_of_block? hb)
    rw [hc.cell i hi] at hb
    exact ⟨hi, hb⟩
  refine ⟨ho.wf.collect hrs hp, fun i j b hi hj => ?_, fun i b hi => ?_⟩
  · exact ho.owned i j b (hcell i b hi).2 (hcell j b hj).2
  · obtain ⟨hr, hb⟩ := hcell i b hi
    have e := hc.block b (.inl ⟨i, hr, hb⟩)
    rw [payload_eq_of_record? e]
    simpa only [Arena.capacity, e] using ho.fits i b hb

/-- Contents that may be placed still may be after a collection that knew of them. -/
theorem Placeable.collect {c : Cell} (hc : h.Placeable c) (hw : h.WellFormed)
    (hrs : ∀ v ∈ rs, h.Holds v) : (h.collect rs (some c)).1.Placeable c := by
  have hp : ∀ c', some c = some c' → h.Sound c' := by
    rintro c' ⟨⟩
    exact hc.sound
  have hcol := collected_collect hw hrs hp
  have hblock : ∀ b, c.block? = some b → h.HeldBlock rs (some c) b := fun b hb => .inr ⟨c, rfl, hb⟩
  refine ⟨hc.inUse, hcol.sound hc.sound (fun v hv i hi => .root (List.mem_append_left _ hv) hi) hblock,
    fun b hb i hi => ?_, fun b hb => ?_⟩
  · have hr := (hcol.inUse i).1 (Cell.isFree_eq_false_of_block? hi)
    rw [hcol.cell i hr] at hi
    exact hc.unowned b hb i hi
  · have e := hcol.block b (hblock b hb)
    rw [payload_eq_of_record? e]
    simpa only [Arena.capacity, e] using hc.fits b hb

end Collect

/-! ## Taking a cell -/

section Take

variable {h h' : Heap} {c : Cell} {i : Nat}

theorem eq_of_take_none (ht : h.take c = (none, h')) : h' = h := by
  unfold take at ht
  split at ht
  · simpa using ht.symm
  · split at ht
    · cases ht
    · simpa using ht.symm

theorem FreeList.next {i : Nat} {l : List Nat} (hl : FreeList h i l) (hi : i ≠ 0) :
    ∃ next l', l = i :: l' ∧ h.cell i = .free next ∧ FreeList h next l' := by
  cases hl with
  | nil => exact absurd rfl hi
  | cons _ hc hl => exact ⟨_, _, rfl, hc, hl⟩

/-- What taking a cell does. -/
structure Taken (h : Heap) (c : Cell) (i : Nat) (h' : Heap) : Prop where
  pos : i ≠ 0
  wasFree : (h.cell i).isFree = true
  cell : ∀ j, h'.cell j = if j = i then c else h.cell j
  arena : h'.arena = h.arena
  marked : ∀ j, h'.marked j = h.marked j
  pool : c.isFree = false → h'.Pooled
  size : h'.cells.size = h.cells.size

/-- A cell is placed where the free list begins. -/
theorem eq_firstFree_of_take (ht : h.take c = (some i, h')) : i = h.firstFree := by
  unfold take at ht
  split at ht
  · cases ht
  · split at ht
    · exact (Option.some.inj (Prod.mk.inj ht).1).symm
    · cases ht

theorem taken_of_take (hp : h.Pooled) (ht : h.take c = (some i, h')) : Taken h c i h' := by
  unfold take at ht
  split at ht
  · cases ht
  · rename_i hpos
    split at ht
    · rename_i next hfirst
      simp only [Prod.mk.injEq, Option.some.injEq] at ht
      obtain ⟨rfl, rfl⟩ := ht
      obtain ⟨hsize, hzero, l, hl, hnodup, hcount, hmem⟩ := hp
      obtain ⟨next', l, rfl, hcell, hl⟩ := hl.next hpos
      obtain rfl : next' = next := by simpa [hcell] using hfirst
      have hin := (hmem h.firstFree).1 (by simp)
      have hset := cell_set h hin.2.1 c
      refine ⟨hpos, hin.2.2, hset, rfl, fun _ => rfl, fun hc => ⟨?_, ?_, l, ?_, ?_, ?_, fun j => ?_⟩,
        by simp [set]⟩
      · simpa [set] using hsize
      · exact (congrArg Cell.isFree ((hset 0).trans (if_neg (Ne.symm hpos)))).trans hzero
      · refine hl.congr fun j hj => (hset j).trans (if_neg ?_)
        rintro rfl
        exact (List.nodup_cons.1 hnodup).1 hj
      · exact (List.nodup_cons.1 hnodup).2
      · simp only [List.length_cons] at hcount
        show l.length = h.freeCount - 1
        omega
      · show j ∈ l ↔ j ≠ 0 ∧ j < (h.set h.firstFree c).cells.size ∧
          ((h.set h.firstFree c).cell j).isFree = true
        rw [hset j]
        by_cases e : j = h.firstFree
        · subst e
          simp [hc, (List.nodup_cons.1 hnodup).1]
        · have := hmem j
          simp only [List.mem_cons, e, false_or] at this
          simp [e, this, set]
    · cases ht

theorem Taken.extends (ht : Taken h c i h') : Extends h h' where
  cell j hj := by
    rw [ht.cell j, if_neg]
    rintro rfl
    rw [ht.wasFree] at hj
    cases hj
  record o r hr _ := by rw [ht.arena]; exact hr

theorem Taken.cell_self (ht : Taken h c i h') : h'.cell i = c := (ht.cell i).trans (if_pos rfl)

theorem Taken.wellFormed (ht : Taken h c i h') (hw : h.WellFormed) (hc : c.isFree = false)
    (hs : h.Sound c) : h'.WellFormed where
  pool := ht.pool hc
  tiled := by rw [ht.arena]; exact hw.tiled
  top_le := by rw [ht.arena]; exact hw.top_le
  sound j hj := by
    have he := ht.extends
    rw [ht.cell j] at hj ⊢
    split at hj
    · rw [if_pos ‹_›]
      exact he.sound hs
    · rw [if_neg ‹_›]
      exact he.sound (hw.sound j hj)
  unmarked j := (ht.marked j).trans (hw.unmarked j)
  blockUnmarked := by rw [ht.arena]; exact hw.blockUnmarked

theorem Taken.orderly (ht : Taken h c i h') (ho : h.Orderly) (hc : h.Placeable c) :
    h'.Orderly := by
  have hpay : ∀ b, h'.payload b = h.payload b := fun b => by simp only [payload, ht.arena]
  have hblock : ∀ j b, (h'.cell j).block? = some b →
      (j = i ∧ c.block? = some b) ∨ (j ≠ i ∧ (h.cell j).block? = some b) := by
    intro j b hb
    rw [ht.cell j] at hb
    split at hb
    · exact .inl ⟨‹_›, hb⟩
    · exact .inr ⟨‹_›, hb⟩
  refine ⟨ht.wellFormed ho.wf hc.inUse hc.sound, fun j k b hj hk => ?_, fun j b hj => ?_⟩
  · rcases hblock j b hj with ⟨rfl, h1⟩ | ⟨-, h1⟩ <;> rcases hblock k b hk with ⟨rfl, h2⟩ | ⟨-, h2⟩
    · rfl
    · exact absurd h2 (hc.unowned b h1 k)
    · exact absurd h1 (hc.unowned b h2 j)
    · exact ho.owned j k b h1 h2
  · rw [hpay b, ht.arena]
    rcases hblock j b hj with ⟨-, h1⟩ | ⟨-, h1⟩
    · exact hc.fits b h1
    · exact ho.fits j b h1

end Take

/-! ## Claiming a block -/

section Claim

variable {h : Heap} {bytes : Nat} {b : Block} {a : Arena}

theorem extends_claim (hc : Arena.Claimed h.arena bytes b a) :
    Extends h { h with arena := a } :=
  ⟨fun _ _ => rfl, fun o r hr hu => hc.kept o r hr hu⟩

theorem WellFormed.claim (hw : h.WellFormed) (hc : Arena.Claimed h.arena bytes b a) :
    Heap.WellFormed { h with arena := a } where
  pool := by
    obtain ⟨hsize, hzero, l, hl, hrest⟩ := hw.pool
    exact ⟨hsize, hzero, l, hl.congr fun _ _ => rfl, hrest⟩
  tiled := hc.tiled
  top_le := hc.top_le
  sound i hi := (extends_claim hc).sound (hw.sound i hi)
  unmarked := hw.unmarked
  blockUnmarked := hc.unmarked hw.blockUnmarked

/-- A claimed block is claimed, blank and nobody's. -/
theorem Orderly.claimed (ho : h.Orderly) (hc : Arena.Claimed h.arena bytes b a) :
    Heap.Claims { h with arena := a } b ∧ Heap.Unowned { h with arena := a } b ∧
      Heap.payload { h with arena := a } b = .blank ∧ bytes ≤ a.capacity b := by
  obtain ⟨w, hw, hbytes⟩ := hc.here
  refine ⟨⟨_, hw, rfl⟩, fun i hi => ?_, ?_, ?_⟩
  · obtain ⟨r, hr, hu⟩ := (ho.wf.sound i (Cell.isFree_eq_false_of_block? hi)).block b hi
    rw [hc.fresh r hr] at hu
    cases hu
  · simp only [payload, Arena.payload, hw]
  · simpa only [Arena.capacity, hw] using hbytes

theorem Orderly.claim (ho : h.Orderly) (hc : Arena.Claimed h.arena bytes b a) :
    Heap.Orderly { h with arena := a } := by
  refine ⟨ho.wf.claim hc, ho.owned, fun i b' hi => ?_⟩
  have hclaims := (ho.wf.sound i (Cell.isFree_eq_false_of_block? hi)).block b' hi
  have e : a.record? b'.offset = h.arena.record? b'.offset :=
    (extends_claim hc).record_eq hclaims
  simp only [payload, Arena.payload, Arena.capacity, e]
  exact ho.fits i b' hi

end Claim

/-! ## Changing a cell -/

section Set

variable {h : Heap} {i : Nat} {c : Cell}

theorem cell_set_of_inUse (hi : (h.cell i).isFree = false) (c : Cell) (j : Nat) :
    (h.set i c).cell j = if j = i then c else h.cell j :=
  cell_set h (lt_of_isFree_eq_false hi) c j

theorem cell_set_of_ne (h : Heap) {i j : Nat} (hne : j ≠ i) (c : Cell) :
    (h.set i c).cell j = h.cell j := by
  simp only [cell, set, Array.getD_eq_getD_getElem?, Array.getElem?_setIfInBounds,
    if_neg (Ne.symm hne)]

/-- Values hold when a cell in use gets other contents of its kind. -/
theorem Holds.set (hi : (h.cell i).isFree = false) (hc : c.isFree = false)
    (htag : c.tag = (h.cell i).tag) {v : Value} (hv : h.Holds v) : (h.set i c).Holds v := by
  rintro tag j rfl hj
  rw [cell_set_of_inUse hi c j]
  split
  · subst_vars
    exact ⟨hc, htag.trans (hv tag _ rfl hj).2⟩
  · exact hv tag j rfl hj

theorem Sound.set (hi : (h.cell i).isFree = false) (hc : c.isFree = false)
    (htag : c.tag = (h.cell i).tag) {c' : Cell} (hs : h.Sound c') : (h.set i c).Sound c' :=
  ⟨fun v hv => (hs.values v hv).set hi hc htag, hs.block⟩

theorem WellFormed.set (hw : h.WellFormed) (hi : (h.cell i).isFree = false)
    (hc : c.isFree = false) (htag : c.tag = (h.cell i).tag) (hs : h.Sound c) :
    (h.set i c).WellFormed := by
  have hcell := cell_set_of_inUse hi c
  refine ⟨?_, hw.tiled, hw.top_le, fun j hj => ?_, hw.unmarked, hw.blockUnmarked⟩
  · obtain ⟨hsize, hzero, l, hl, hnodup, hcount, hmem⟩ := hw.pool
    have hne : ∀ j, (h.cell j).isFree = true → j ≠ i := by
      rintro j hj rfl
      rw [hi] at hj
      cases hj
    refine ⟨by simpa [Heap.set] using hsize, ?_, l, hl.congr fun j hj => ?_, hnodup, hcount, fun j => ?_⟩
    · rw [hcell, if_neg (hne 0 hzero)]
      exact hzero
    · exact (hcell j).trans (if_neg (hne j ((hmem j).1 hj).2.2))
    · rw [hmem j, hcell j]
      by_cases e : j = i
      · subst e
        simp [hi, hc]
      · simp [e, Heap.set]
  · rw [hcell j] at hj ⊢
    split
    · exact hs.set hi hc htag
    · rw [if_neg ‹_›] at hj
      exact (hw.sound j hj).set hi hc htag

/-- The block that the new contents hold was the cell's before, or nobody's. -/
theorem Orderly.set (ho : h.Orderly) (hi : (h.cell i).isFree = false) (hc : c.isFree = false)
    (htag : c.tag = (h.cell i).tag) (hs : h.Sound c)
    (hown : ∀ b, c.block? = some b → (h.cell i).block? = some b ∨ h.Unowned b)
    (hfits : ∀ b, c.block? = some b → (h.payload b).size ≤ h.arena.capacity b) :
    (h.set i c).Orderly := by
  have hcell := cell_set_of_inUse hi c
  have hblock : ∀ j b, ((h.set i c).cell j).block? = some b →
      (j = i ∧ c.block? = some b) ∨ (j ≠ i ∧ (h.cell j).block? = some b) := by
    intro j b hb
    rw [hcell j] at hb
    split at hb
    · exact .inl ⟨‹_›, hb⟩
    · exact .inr ⟨‹_›, hb⟩
  have hother : ∀ j b, j ≠ i → c.block? = some b → (h.cell j).block? ≠ some b := by
    intro j b hne hb hj
    rcases hown b hb with hb | hb
    · exact hne (ho.owned j i b hj hb)
    · exact hb j hj
  refine ⟨ho.wf.set hi hc htag hs, fun j k b hj hk => ?_, fun j b hj => ?_⟩
  · rcases hblock j b hj with ⟨rfl, h1⟩ | ⟨hne, h1⟩ <;>
      rcases hblock k b hk with ⟨rfl, h2⟩ | ⟨hne', h2⟩
    · rfl
    · exact absurd h2 (hother k b hne' h1)
    · exact absurd h1 (hother j b hne h2)
    · exact ho.owned j k b h1 h2
  · rcases hblock j b hj with ⟨-, h1⟩ | ⟨-, h1⟩
    · exact hfits b h1
    · exact ho.fits j b h1

end Set

/-! ## Changing the contents of a block -/

end Heap

theorem Arena.record?_modify (a : Arena) (b : Block) (f : Payload → Payload) (o : Nat) :
    (a.modify b f).record? o
      = (a.record? o).map fun r => if o = b.offset then { r with payload := f r.payload } else r := by
  simp only [Arena.modify, Arena.record?, Array.getElem?_modify]
  by_cases e : b.offset = o
  · subst e
    cases a.slots[b.offset]? with
    | none => simp
    | some s => cases s <;> simp
  · rw [if_neg e]
    simp only [if_neg (Ne.symm e)]
    simp

theorem Arena.Tiled.modify {slots : Array Slot} {offset i : Nat} {f : Slot → Slot}
    (ht : Tiled slots offset) (hin : f .inner = .inner)
    (hf : ∀ r, ∃ r', f (.header r) = .header r' ∧ r'.words = r.words) :
    Tiled (slots.modify i f) offset := by
  have hget : ∀ k, (slots.modify i f)[k]? = if i = k then (slots[k]?).map f else slots[k]? :=
    fun k => Array.getElem?_modify
  induction ht with
  | done h => exact .done (by simpa using h)
  | @block offset r hr hw hinner _ ih =>
      have hkeep : ∀ k, offset < k → k < offset + 1 + r.words →
          (slots.modify i f)[k]? = some .inner := by
        intro k hk hk'
        rw [hget k, hinner k hk hk']
        split
        · simp [hin]
        · rfl
      by_cases e : i = offset
      · obtain ⟨r', hr', hw'⟩ := hf r
        refine .block (r := r') ?_ (hw' ▸ hw) (by rw [hw']; exact hkeep) (hw' ▸ ih)
        rw [hget, if_pos e, hr, Option.map_some, hr']
      · refine .block (r := r) ?_ hw hkeep ih
        rw [hget, if_neg e, hr]

namespace Heap

section Modify

variable {h : Heap} {b : Block} {f : Payload → Payload}

theorem payload_modifyPayload (hb : h.Claims b) (b' : Block) :
    (h.modifyPayload b f).payload b' = if b' = b then f (h.payload b) else h.payload b' := by
  obtain ⟨r, hr, -⟩ := hb
  simp only [payload, Arena.payload, modifyPayload, Arena.record?_modify]
  by_cases e : b' = b
  · subst e
    simp [hr]
  · have : b'.offset ≠ b.offset := fun e' => e (by cases b; cases b'; simp_all)
    rw [if_neg e]
    cases h.arena.record? b'.offset <;> simp [this]

theorem capacity_modifyPayload (h : Heap) (b b' : Block) (f : Payload → Payload) :
    (h.modifyPayload b f).arena.capacity b' = h.arena.capacity b' := by
  simp only [Arena.capacity, modifyPayload, Arena.record?_modify]
  cases h.arena.record? b'.offset with
  | none => rfl
  | some r =>
      simp only [Option.map_some]
      split <;> rfl

theorem claims_modifyPayload {b' : Block} (hb : h.Claims b') :
    (h.modifyPayload b f).Claims b' := by
  obtain ⟨r, hr, hu⟩ := hb
  simp only [Claims, modifyPayload, Arena.record?_modify, hr, Option.map_some]
  split
  · exact ⟨_, rfl, hu⟩
  · exact ⟨_, rfl, hu⟩

/-- What a cell refers to, once the contents of a block are others. -/
theorem references_modifyPayload (hb : h.Claims b) (c : Cell) :
    (h.modifyPayload b f).references c
      = if c.block? = some b then (f (h.payload b)).references ++ c.values else h.references c := by
  unfold references
  cases hc : c.block? with
  | none => simp
  | some b' =>
      simp only [payload_modifyPayload hb, Option.some.injEq]
      split <;> rfl

theorem Sound.modifyPayload (hb : h.Claims b) (hf : ∀ v ∈ (f (h.payload b)).references, h.Holds v)
    {c : Cell} (hs : h.Sound c) : (h.modifyPayload b f).Sound c := by
  refine ⟨fun v hv => ?_, fun b' hb' => claims_modifyPayload (hs.block b' hb')⟩
  rw [references_modifyPayload hb] at hv
  have hsame : ∀ v, h.Holds v → (h.modifyPayload b f).Holds v := fun v hv => hv
  split at hv
  · rename_i hc
    rcases List.mem_append.1 hv with hv | hv
    · exact hsame v (hf v hv)
    · refine hsame v (hs.values v ?_)
      rw [references, hc]
      exact List.mem_append_right _ hv
  · exact hsame v (hs.values v hv)

theorem WellFormed.modifyPayload (hw : h.WellFormed) (hb : h.Claims b)
    (hf : ∀ v ∈ (f (h.payload b)).references, h.Holds v) : (h.modifyPayload b f).WellFormed := by
  refine ⟨?_, ?_, ?_, fun i hi => Sound.modifyPayload hb hf (hw.sound i hi), hw.unmarked,
    fun o r hr => ?_⟩
  · obtain ⟨hsize, hzero, l, hl, hrest⟩ := hw.pool
    exact ⟨hsize, hzero, l, hl.congr fun _ _ => rfl, hrest⟩
  · dsimp only [Heap.modifyPayload, Arena.modify]
    refine Arena.Tiled.modify hw.tiled ?_ fun r => ?_
    · rfl
    · exact ⟨{ r with payload := f r.payload }, rfl, rfl⟩
  · simpa [Heap.modifyPayload, Arena.modify, Arena.top] using hw.top_le
  · simp only [Heap.modifyPayload, Arena.record?_modify, Option.map_eq_some_iff] at hr
    obtain ⟨r₀, hr₀, rfl⟩ := hr
    have := hw.blockUnmarked o r₀ hr₀
    split <;> exact this

theorem Orderly.modifyPayload (ho : h.Orderly) (hb : h.Claims b)
    (hf : ∀ v ∈ (f (h.payload b)).references, h.Holds v)
    (hfits : (f (h.payload b)).size ≤ h.arena.capacity b) : (h.modifyPayload b f).Orderly := by
  refine ⟨ho.wf.modifyPayload hb hf, ho.owned, fun i b' hi => ?_⟩
  rw [capacity_modifyPayload, payload_modifyPayload hb]
  split
  · subst_vars
    exact hfits
  · exact ho.fits i b' hi

end Modify

end Heap
end CellLisp
