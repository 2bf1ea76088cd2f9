import CellLisp.Proofs.State.Order
import CellLisp.Stream

/-!
# `CellLisp.Proofs.State.Buffer` — what is done with one stream over a buffer

`h.Buffers v bytes pos isOpen`: the value is a stream over a buffer that holds `bytes`, of which
`pos` have been read.  In a state in order in which something leads to the stream,

| | does |
| :-- | :-- |
| `gives_makeStringStream` | a stream over nothing |
| `gives_writeBytes` | append to the buffer, and leave all else that the roots lead to as it is |
| `readByte_eq` | step over a byte, unless there is none left |
| `closeStream_eq` | close it |
| `gives_streamString` | a string of the whole buffer |

A closed stream refuses bytes and gives none (`readByte_closed`, `writeBytes_closed`).
-/

namespace CellLisp

/-- A stream over a buffer with these contents, so many of them read. -/
def Heap.Buffers (h : Heap) (v : Value) (bytes : List UInt8) (pos : Nat) (isOpen : Bool) : Prop :=
  ∃ i data, v = .ref .object i ∧ h.cell i = .stringStream { data, pos, isOpen } ∧
    h.payload data = .bytes bytes.toArray

/-- All that the roots lead to is as before, but for the cell that a value refers to. -/
structure State.Sparing (v : Value) (s s' : State) : Prop where
  order : s'.InOrder
  roots : s'.rootValues = s.rootValues
  cell : ∀ j, s.heap.Reachable s.rootValues j → v.cell? ≠ some j → s'.heap.cell j = s.heap.cell j
  record : ∀ j b, s.heap.Reachable s.rootValues j → v.cell? ≠ some j →
    (s.heap.cell j).block? = some b →
    s'.heap.arena.record? b.offset = s.heap.arena.record? b.offset

section Buffers

variable {E : Error → Prop} {h h' : Heap} {s s' : State} {A : List Value} {u v : Value}
  {bytes : List UInt8} {pos : Nat} {isOpen : Bool}

/-- The cell that a stream is. -/
theorem Heap.cell_of_stream? {h : Heap} {c : StreamCell} (hs : h.stream? v = some c) :
    v = .ref .object (match c with | .buffer i _ => i | .file i _ => i) ∧
      match c with
      | .buffer i r => h.cell i = .stringStream r
      | .file i e => h.cell i = .fileStream e := by
  unfold Heap.stream? at hs
  split at hs
  · rename_i i hi
    have hv : v = .ref .object i := by
      unfold Value.object? at hi
      split at hi
      · rw [Option.some.inj hi]
      · cases hi
    split at hs
    · rename_i r hc
      obtain rfl := Option.some.inj hs
      exact ⟨hv, hc⟩
    · rename_i e hc
      obtain rfl := Option.some.inj hs
      exact ⟨hv, hc⟩
    · cases hs
  · cases hs

theorem Heap.buffer_of_stream? {i : Nat} {r : StringStream} (hs : h.stream? v = some (.buffer i r)) :
    v = .ref .object i ∧ h.cell i = .stringStream r :=
  cell_of_stream? hs

theorem Heap.Buffers.stream? (hb : h.Buffers v bytes pos isOpen) :
    ∃ i r, v = .ref .object i ∧ h.cell i = .stringStream r ∧ h.stream? v = some (.buffer i r) ∧
      r.pos = pos ∧ r.isOpen = isOpen ∧ h.payload r.data = .bytes bytes.toArray := by
  obtain ⟨i, data, rfl, hc, hp⟩ := hb
  refine ⟨i, _, rfl, hc, ?_, rfl, rfl, hp⟩
  simp only [Heap.stream?, Value.object?, hc]

/-- The cell that a stream is in a heap in order. -/
theorem Heap.Buffers.cell?_eq (hb : h.Buffers v bytes pos isOpen)
    (hz : (h.cell 0).isFree = true) : ∃ i, v.cell? = some i ∧ v = .ref .object i := by
  obtain ⟨i, data, rfl, hc, -⟩ := hb
  exact ⟨i, cell?_of_isFree_eq_false hz (by rw [hc]; rfl), rfl⟩

/-- A stream is the same where its cell and its block are. -/
theorem Heap.Buffers.congr (hb : h.Buffers v bytes pos isOpen) (hz : (h.cell 0).isFree = true)
    (hcell : ∀ i, v.cell? = some i → h'.cell i = h.cell i)
    (hrecord : ∀ i b, v.cell? = some i → (h.cell i).block? = some b →
      h'.arena.record? b.offset = h.arena.record? b.offset) : h'.Buffers v bytes pos isOpen := by
  obtain ⟨i, hi, rfl⟩ := hb.cell?_eq hz
  obtain ⟨_, data, ⟨⟩, hc, hp⟩ := hb
  refine ⟨i, data, rfl, (hcell i hi).trans hc, ?_⟩
  rw [payload_eq_of_record? (hrecord i data hi (by rw [hc]; rfl)), hp]

theorem Heap.Buffers.kept (hb : h.Buffers v bytes pos isOpen) (hz : (h.cell 0).isFree = true)
    (hk : Heap.Kept A h h') (hv : h.Reaches A v) : h'.Buffers v bytes pos isOpen :=
  hb.congr hz (fun i hi => hk.cell i (hv i hi)) fun i b hi hbl => hk.record i b (hv i hi) hbl

/-- A stream is the same behind what spares all but another value's cell. -/
theorem Heap.Buffers.sparing (hb : s.heap.Buffers v bytes pos isOpen) (hs : s.InOrder)
    (h : s.Sparing u s') (hv : s.heap.Reaches s.rootValues v) (hne : u.cell? ≠ v.cell?) :
    s'.heap.Buffers v bytes pos isOpen :=
  hb.congr hs.isFree_zero (fun i hi => h.cell i (hv i hi) fun hu => hne (hu.trans hi.symm))
    fun i b hi hbl => h.record i b (hv i hi) (fun hu => hne (hu.trans hi.symm)) hbl

theorem Heap.Buffers.references_eq_nil (hb : h.Buffers v bytes pos isOpen)
    (hz : (h.cell 0).isFree = true) (i : Nat) (hi : v.cell? = some i) :
    h.references (h.cell i) = [] := by
  obtain ⟨j, data, rfl, hc, hp⟩ := hb
  obtain rfl : j = i :=
    Option.some.inj ((cell?_of_isFree_eq_false hz (by rw [hc]; rfl)).symm.trans hi)
  simp only [references, hc, Cell.block?, Cell.values, hp]
  rfl

/-- What was led to is led to, if the cell that was not spared led to nothing. -/
theorem State.Sparing.reaches (h : s.Sparing v s')
    (hnone : ∀ i, v.cell? = some i → s.heap.references (s.heap.cell i) = [])
    (hu : s.heap.Reaches s.rootValues u) : s'.heap.Reaches s'.rootValues u := by
  intro j hj
  have hreach := hu j hj
  rw [h.roots]
  clear hj hu
  induction hreach with
  | root hw hk => exact .root hw hk
  | @step j k w hj hw hk ih =>
      refine .step ih ?_ hk
      by_cases hv : v.cell? = some j
      · rw [hnone j hv] at hw
        cases hw
      · rw [h.cell j hj hv, Heap.references_eq_of_record? fun b hb => h.record j b hj hv hb]
        exact hw

theorem State.Grows.sparing (h : s.Grows [] s') : s.Sparing v s' where
  order := h.order
  roots := h.rootValues
  cell j hj _ := h.kept.cell j (hj.mono (List.subset_append_left _ _))
  record j b hj _ hbl := h.kept.record j b (hj.mono (List.subset_append_left _ _)) hbl

/-- An empty stream. -/
theorem gives_makeStringStream (hs : s.InOrder) :
    Gives E makeStringStream s fun v s' => s.Grows [] s' ∧ s'.heap.Buffers v [] 0 true := by
  refine Gives.bind (gives_allocPayload hs (p := .bytes #[]) (Nat.zero_le _) nofun) ?_
  rintro b s₁ ⟨hgrows, hb⟩
  have hc : s₁.heap.Placeable (.stringStream { data := b, pos := 0, isOpen := true }) :=
    hb.placeable rfl (Nat.zero_le _) nofun
  refine (gives_allocCell hgrows.order hc).mono ?_
  rintro v s₂ ⟨hgrows', hplaced⟩
  obtain ⟨i, -, rfl, hcell⟩ := hplaced.exists_index
  refine ⟨hgrows.trans (hgrows'.mono (List.nil_subset _)), i, b, rfl, hcell, ?_⟩
  rw [Heap.payload_eq_of_record? (hplaced.record b rfl), hb.payload]

/-! ## Reading and closing -/

theorem streamOf_eq {c : StreamCell} (hc : s.heap.stream? v = some c) : streamOf v s = .ok c s := by
  unfold streamOf
  rw [act_bind, act_gets, hc]
  rfl

/-- The record of a stream becomes another one. -/
def State.putBuffer (s : State) (i : Nat) (r : StringStream) : State :=
  { s with heap := s.heap.set i (.stringStream r) }

variable {i : Nat} {r r' : StringStream}

theorem State.putBuffer_putBuffer : (s.putBuffer i r).putBuffer i r' = s.putBuffer i r' := by
  simp only [putBuffer, Heap.set, Array.setIfInBounds_setIfInBounds]

theorem Heap.set_cell_self {h : Heap} (hi : i < h.cells.size) : h.set i (h.cell i) = h := by
  have hsame : h.cells.setIfInBounds i (h.cell i) = h.cells := by
    rw [Array.setIfInBounds_def, dif_pos hi, Heap.cell, Array.getD_eq_getD_getElem?,
      Array.getElem?_eq_getElem hi, Option.getD_some, Array.set_getElem_self]
  simp only [Heap.set, hsame]

theorem State.putBuffer_self (hc : s.heap.cell i = .stringStream r) : s.putBuffer i r = s := by
  have hset : s.heap.set i (.stringStream r) = s.heap := by
    rw [← hc]
    exact Heap.set_cell_self (Heap.lt_of_isFree_eq_false (by rw [hc]; rfl))
  simp only [putBuffer, hset]

theorem State.stream?_putBuffer (hc : s.heap.stream? v = some (.buffer i r)) :
    (s.putBuffer i r').heap.stream? v = some (.buffer i r') := by
  obtain ⟨rfl, hcell⟩ := Heap.buffer_of_stream? hc
  have huse : (s.heap.cell i).isFree = false := by rw [hcell]; rfl
  have hput : (s.putBuffer i r').heap.cell i = .stringStream r' :=
    (Heap.cell_set_of_inUse huse _ i).trans (if_pos rfl)
  simp only [Heap.stream?, Value.object?, hput]

/-- A byte is read where there is one. -/
theorem readByte_eq (hc : s.heap.stream? v = some (.buffer i r)) (ho : r.isOpen = true) :
    readByte v s = match (s.heap.buffered r)[r.pos]? with
      | none => .ok none s
      | some b => .ok (some b) (s.putBuffer i { r with pos := r.pos + 1 }) := by
  unfold readByte
  rw [act_bind, streamOf_eq hc]
  simp only [ho, Bool.not_true, Bool.false_eq_true, if_false]
  rw [act_bind, act_gets]
  cases (s.heap.buffered r)[r.pos]? <;> rfl

theorem readByte_closed (hc : s.heap.stream? v = some (.buffer i r)) (ho : r.isOpen = false) :
    readByte v s = .error (.error .closedStream) s := by
  unfold readByte
  rw [act_bind, streamOf_eq hc]
  simp only [ho]
  rfl

theorem writeBytes_closed (hc : s.heap.stream? v = some (.buffer i r)) (ho : r.isOpen = false)
    (bytes : Array UInt8) : writeBytes v bytes s = .error (.error .closedStream) s := by
  unfold writeBytes
  rw [act_bind, streamOf_eq hc]
  simp only [ho]
  rfl

theorem closeStream_eq (hc : s.heap.stream? v = some (.buffer i r)) :
    closeStream v s = .ok () (s.putBuffer i { r with isOpen := false }) := by
  unfold closeStream
  rw [act_bind, streamOf_eq hc]
  rfl

/-- The record of a stream becomes another one with the same block. -/
theorem State.InOrder.sparing_putBuffer (hs : s.InOrder) (hc : s.heap.cell i = .stringStream r)
    (hdata : r'.data = r.data) : s.Sparing (.ref .object i) (s.putBuffer i r') := by
  have huse : (s.heap.cell i).isFree = false := by rw [hc]; rfl
  have htag : (Cell.stringStream r').tag = (s.heap.cell i).tag := by rw [hc]; rfl
  have hblock : (Cell.stringStream r').block? = (s.heap.cell i).block? := by
    rw [hc]
    exact congrArg some hdata
  have hsound : s.heap.Sound (.stringStream r') := by
    have hold := hs.heap.wf.sound i huse
    refine ⟨fun u hu => hold.values u ?_, fun b hb => hold.block b (hblock ▸ hb)⟩
    rw [hc]
    simpa only [Heap.references, Cell.block?, Cell.values, hdata] using hu
  refine ⟨⟨?_, fun u hu => (hs.roots u hu).set huse rfl htag, hs.slots⟩, rfl, fun j _ hj => ?_,
    fun _ _ _ _ _ => rfl⟩
  · refine hs.heap.set huse rfl htag hsound (fun b hb => .inl (hblock ▸ hb)) fun b hb => ?_
    exact hs.heap.fits i b (hblock ▸ hb)
  · refine (Heap.cell_set_of_inUse huse _ j).trans (if_neg ?_)
    rintro rfl
    exact hj (Heap.cell?_of_isFree_eq_false hs.isFree_zero huse)

/-- Of the record of a stream, its place and whether it is open have changed. -/
theorem Heap.Buffers.putBuffer (r' : StringStream) (hc : s.heap.cell i = .stringStream r)
    (hdata : r'.data = r.data) (hp : s.heap.payload r.data = .bytes bytes.toArray) :
    (s.putBuffer i r').heap.Buffers (.ref .object i) bytes r'.pos r'.isOpen := by
  have huse : (s.heap.cell i).isFree = false := by rw [hc]; rfl
  refine ⟨i, r'.data, rfl, (Heap.cell_set_of_inUse huse _ i).trans (if_pos rfl), ?_⟩
  rw [hdata]
  exact hp

/-! ## Writing -/

/-- A block that has room for what a stream holds and for more. -/
structure Heap.Grown (h h' : Heap) (r : StringStream) (extra : Nat) (b : Block) : Prop where
  claims : h'.Claims b
  owner : b = r.data ∨ h'.Unowned b
  payload : h'.payload b = h.payload r.data
  room : (h.payload r.data).size + extra ≤ h'.arena.capacity b

theorem gives_growBuffer (hs : s.InOrder) (hv : s.heap.Reachable s.rootValues i)
    (hc : s.heap.cell i = .stringStream r) (hp : s.heap.payload r.data = .bytes bytes.toArray)
    (extra : Nat) :
    Gives E (growBuffer r extra) s fun b s' =>
      s.Grows [] s' ∧ s.heap.Grown s'.heap r extra b := by
  have huse : (s.heap.cell i).isFree = false := by rw [hc]; rfl
  have hblock : (s.heap.cell i).block? = some r.data := by rw [hc]; rfl
  have hsize : (s.heap.payload r.data).size = (s.heap.buffered r).size := by
    unfold Heap.buffered
    rw [hp]
    rfl
  refine Gives.bind (Q := fun length t => length = (s.heap.buffered r).size ∧ s = t) (.gets ⟨rfl, rfl⟩) ?_
  rintro _ _ ⟨rfl, rfl⟩
  refine Gives.bind (Q := fun capacity t => capacity = s.heap.arena.capacity r.data ∧ s = t)
    (.gets ⟨rfl, rfl⟩) ?_
  rintro _ _ ⟨rfl, rfl⟩
  split
  · refine Gives.bind (gives_allocBlock hs _) ?_
    rintro b s₁ ⟨hgrows, hspare⟩
    have hpayload : s₁.heap.payload r.data = s.heap.payload r.data :=
      Heap.payload_eq_of_record? (hgrows.kept.record i _ (hv.mono (List.subset_append_left _ _)) hblock)
    refine Gives.bind (Q := fun _ t =>
      t = { s₁ with heap := s₁.heap.putPayload b (s₁.heap.payload r.data) }) (.modify rfl) ?_
    rintro _ _ rfl
    rw [hpayload]
    have hfits : (s.heap.payload r.data).size ≤ max (s.heap.arena.capacity r.data * 2)
        ((s.heap.buffered r).size + extra) := by omega
    have horderly := hgrows.order.heap.putPayload hspare hfits (by rw [hp]; nofun)
    have hput := hspare.putPayload (s.heap.payload r.data)
    refine .pure ⟨hgrows.trans (State.grows_beside hgrows.order (hspare.beside_putPayload _) horderly),
      hput.claims, .inr hput.unowned, hput.payload, Nat.le_trans ?_ hput.room⟩
    rw [hsize]
    exact Nat.le_max_right _ _
  · refine .pure ⟨.refl hs, (hs.heap.wf.sound i huse).block _ hblock, .inl rfl, rfl, ?_⟩
    omega

theorem payload_appendBytes (new : Array UInt8) :
    (Payload.bytes bytes.toArray).appendBytes new = .bytes (bytes ++ new.toList).toArray := by
  simp [Payload.appendBytes]

/-- A stream whose bytes are in another block, with more bytes appended. -/
def State.appended (s : State) (i : Nat) (r : StringStream) (b : Block) (new : Array UInt8) : State :=
  { s with
    heap := (s.heap.modifyPayload b (.appendBytes new)).set i (.stringStream { r with data := b }) }

/-- Bytes are appended in a block that has room for them, and the stream takes the block over. -/
theorem State.Grows.sparing_appended (hv : s.heap.Reachable s.rootValues i)
    (hc : s.heap.cell i = .stringStream r) (hp : s.heap.payload r.data = .bytes bytes.toArray)
    {new : Array UInt8} {b : Block} (hgrows : s.Grows [] s')
    (hgrown : s.heap.Grown s'.heap r new.size b) :
    s.Sparing (.ref .object i) (s'.appended i r b new) ∧
      (s'.appended i r b new).heap.Buffers (.ref .object i) (bytes ++ new.toList) r.pos r.isOpen := by
  have hkept := hgrows.kept.mono (List.subset_append_left _ _)
  have hcell : s'.heap.cell i = .stringStream r := (hkept.cell i hv).trans hc
  have huse : (s'.heap.cell i).isFree = false := by rw [hcell]; rfl
  have hblock : (s'.heap.cell i).block? = some r.data := by rw [hcell]; rfl
  have happend : (s'.heap.payload b).appendBytes new = .bytes (bytes ++ new.toList).toArray := by
    rw [hgrown.payload, hp, payload_appendBytes]
  have hnone : ∀ u ∈ ((s'.heap.payload b).appendBytes new).references, s'.heap.Holds u := by
    rw [happend]
    nofun
  have hfits : ((s'.heap.payload b).appendBytes new).size ≤ s'.heap.arena.capacity b := by
    refine Nat.le_trans (Nat.le_of_eq ?_) hgrown.room
    rw [happend, hp]
    simp [Payload.size]
  have hfilled := hgrows.order.heap.modifyPayload hgrown.claims hnone hfits
  set h₁ := s'.heap.modifyPayload b (.appendBytes new)
  have huse₁ : (h₁.cell i).isFree = false := huse
  have htag : (Cell.stringStream { r with data := b }).tag = (h₁.cell i).tag := by
    change _ = (s'.heap.cell i).tag
    rw [hcell]
    rfl
  have hpayload : h₁.payload b = .bytes (bytes ++ new.toList).toArray := by
    rw [Heap.payload_modifyPayload hgrown.claims, if_pos rfl, happend]
  have hsound : h₁.Sound (.stringStream { r with data := b }) := by
    refine ⟨fun u hu => ?_, ?_⟩
    · rw [Heap.references] at hu
      simp only [Cell.block?, Cell.values, hpayload] at hu
      cases hu
    · rintro _ ⟨⟩
      exact Heap.claims_modifyPayload hgrown.claims
  have howner : (h₁.cell i).block? = some b ∨ h₁.Unowned b := by
    rcases hgrown.owner with rfl | hun
    · exact .inl hblock
    · exact .inr hun
  have horder : (h₁.set i (.stringStream { r with data := b })).Orderly := by
    refine hfilled.set huse₁ rfl htag hsound ?_ ?_
    · rintro _ ⟨⟩
      exact howner
    · rintro _ ⟨⟩
      rw [hpayload, Heap.capacity_modifyPayload, ← happend]
      exact hfits
  have hcellSet := Heap.cell_set_of_inUse huse₁ (.stringStream { r with data := b })
  refine ⟨⟨⟨horder, fun u hu => ?_, hgrows.order.slots⟩, hgrows.rootValues, fun j hj hne => ?_,
    fun j b' hj hne hb' => ?_⟩, i, b, rfl, (hcellSet i).trans (if_pos rfl), hpayload⟩
  · have hroot : h₁.Holds u := hgrows.order.roots u hu
    exact hroot.set huse₁ rfl htag
  · have hji : j ≠ i := by
      rintro rfl
      exact hne (Heap.cell?_of_isFree_eq_false hgrows.order.isFree_zero huse)
    exact ((hcellSet j).trans (if_neg hji)).trans (hkept.cell j hj)
  · have hj' : (s'.heap.cell j).block? = some b' := by
      rw [hkept.cell j hj]
      exact hb'
    -- no other cell has the block of the stream, old or new
    have hblocks : b' ≠ b := by
      rintro rfl
      rcases hgrown.owner with rfl | hun
      · refine hne ?_
        rw [hgrows.order.heap.owned j i _ hj' hblock]
        exact Heap.cell?_of_isFree_eq_false hgrows.order.isFree_zero huse
      · exact hun j hj'
    have hoffset : b'.offset ≠ b.offset := fun e => hblocks (congrArg Block.mk e)
    refine Eq.trans ?_ (hkept.record j b' hj hb')
    refine (Arena.record?_modify _ _ _ _).trans ?_
    simp only [if_neg hoffset, Option.map_id']

/-- Bytes written to an open stream are appended to what it holds, and all else that the roots lead
to stays as it is. -/
theorem gives_writeBytes (hs : s.InOrder) (hb : s.heap.Buffers v bytes pos true)
    (hv : s.heap.Reaches s.rootValues v) (new : Array UInt8) :
    Gives E (writeBytes v new) s fun _ s' =>
      s.Sparing v s' ∧ s'.heap.Buffers v (bytes ++ new.toList) pos true := by
  obtain ⟨i, ⟨data, p, _⟩, rfl, hc, hstream, rfl, rfl, hp⟩ := hb.stream?
  have hi : (Value.ref .object i).cell? = some i :=
    Heap.cell?_of_isFree_eq_false hs.isFree_zero (by rw [hc]; rfl)
  refine Gives.bind (Q := fun c t => c = .buffer i ⟨data, p, true⟩ ∧ s = t) ?_ ?_
  · unfold Gives
    rw [streamOf_eq hstream]
    exact ⟨rfl, rfl⟩
  rintro _ _ ⟨rfl, rfl⟩
  simp only [Bool.not_true, Bool.false_eq_true, if_false]
  refine Gives.bind (gives_growBuffer hs (hv i hi) hc hp new.size) ?_
  rintro b s₁ ⟨hgrows, hgrown⟩
  obtain ⟨hspare, hbuffers⟩ := State.Grows.sparing_appended (hv i hi) hc hp hgrows hgrown
  exact .modify ⟨hspare, hbuffers⟩

/-- A new string is a cell that nothing led to. -/
theorem not_reachable_of_makeString {text : String} (hs : s.InOrder)
    (h : makeString text s = .ok u s') :
    ∀ i, u.cell? = some i → ¬s.heap.Reachable s.rootValues i := by
  obtain ⟨b, s₁, hpayload, hcell⟩ := exists_of_bind_eq_ok h
  obtain ⟨hgrows, hb⟩ := (gives_allocPayload (E := fun _ => False) hs (p := .text text)
    (Nat.le_refl _) nofun).of_ok hpayload
  have hc : s₁.heap.Placeable (.string b) := hb.placeable rfl (Nat.le_refl _) nofun
  have hsupplied := (hgrows.order.wellFormed hc.sound).supplied hc.inUse hcell
  intro i hi hreach
  obtain ⟨k, rfl, hk, -, hnot, -⟩ := hsupplied.1.fresh
  obtain rfl : k = i := Option.some.inj ((Value.cell?_eq_some_iff.2 ⟨_, rfl, hk⟩).symm.trans hi)
  exact hnot ((hgrows.reachable hreach).mono (List.subset_append_right _ _))

/-- A new string of all that a stream holds. -/
theorem gives_streamString (hs : s.InOrder) (hb : s.heap.Buffers v bytes pos isOpen) :
    Gives E (streamString v) s fun u s' => s.Grows [] s' ∧
      s'.heap.text? u = some (Utf8.lossy bytes) ∧
      ∀ i, u.cell? = some i → ¬s.heap.Reachable s.rootValues i := by
  obtain ⟨i, r, rfl, hc, hstream, rfl, rfl, hp⟩ := hb.stream?
  refine Gives.bind (Q := fun c t => c = .buffer i r ∧ s = t) ?_ ?_
  · unfold Gives
    rw [streamOf_eq hstream]
    exact ⟨rfl, rfl⟩
  rintro _ _ ⟨rfl, rfl⟩
  refine Gives.bind (Q := fun held t => held = bytes.toArray ∧ s = t) ?_ ?_
  · refine .gets ⟨?_, rfl⟩
    unfold Heap.buffered
    rw [hp]
    rfl
  rintro _ _ ⟨rfl, rfl⟩
  refine (gives_makeString hs _).with_ok.mono ?_
  rintro u s' ⟨⟨hgrows, htext⟩, hok⟩
  exact ⟨hgrows, htext, not_reachable_of_makeString hs hok⟩

end Buffers

end CellLisp
