import CellLisp.Code.Buffer
import CellLisp.Proofs.Heap.FirstFit
import CellLisp.Proofs.State.Buffer

/-!
# `CellLisp.Proofs.State.Instructions` — what is done with the instructions of one procedure

`h.Assembled v r is`: the value is compiled code with the name, documentation and arity of `r`, and
`is` are its instructions.  In a state in order in which something leads to the code,

| | does |
| :-- | :-- |
| `gives_makeBytecode` | code without instructions |
| `gives_growCode` | the same instructions in a block with room for one more |
| `gives_emit` | one instruction more, at the place that is answered |
| `exists_patch` | another operand at one place |

`s.Around A v s'` says what they leave alone: all that the roots and the values `A` lead to but the
code itself.  The operand of an instruction that is being emitted is such a value and need not be
led to by anything else.

The words of the block are the images of the instructions (`Heap.straysAt?_of_payload`), so reading
the words gives what was written.
-/

namespace CellLisp

/-- Compiled code under a heading, with these instructions. -/
def Heap.Assembled (h : Heap) (v : Value) (r : Bytecode) (is : List Instr) : Prop :=
  ∃ i block, v = .ref .bytecode i ∧ h.cell i = .bytecode { r with code := block } ∧
    h.payload block = .code is.toArray ∧ Instr.bytes ≤ h.arena.capacity block

/-- All that the roots and the values `A` lead to is as before, but for the cell that a value refers
to; the roots, the machine and the table of symbols are the same. -/
structure State.Around (A : List Value) (v : Value) (s s' : State) : Prop where
  order : s'.InOrder
  cell : ∀ j, s.heap.Reachable (s.rootValues ++ A) j → v.cell? ≠ some j →
    s'.heap.cell j = s.heap.cell j
  record : ∀ j b, s.heap.Reachable (s.rootValues ++ A) j → v.cell? ≠ some j →
    (s.heap.cell j).block? = some b →
    s'.heap.arena.record? b.offset = s.heap.arena.record? b.offset
  symbols : s'.symbols = s.symbols
  machine : s'.machine = s.machine
  roots : s'.roots = s.roots
  known : s'.known = s.known
  config : s'.config = s.config

/-! ## Words -/

section Words

variable {h : Heap} {block : Block} {is : List Instr} {instr : Instr} {place : Nat}

/-- A value that some word of 64 bits stands for. -/
def Value.IsWord (v : Value) : Prop := ∃ word < 0x10000000000000000, Value.ofImage word = v

theorem Value.IsWord.ofImage_image {v : Value} (hv : v.IsWord) : Value.ofImage v.image = v := by
  obtain ⟨word, hword, rfl⟩ := hv
  rw [Value.image_ofImage hword]

theorem Value.isWord_ofInt (n : Nat) : (Value.ofInt n).IsWord := by
  refine ⟨16 * (n % 0x1000000000000000) + 2, by omega, ?_⟩
  have hdiv : (16 * (n % 0x1000000000000000) + 2) / 16 = n % 0x1000000000000000 := by omega
  have hmod : (16 * (n % 0x1000000000000000) + 2) % 16 = 2 := by omega
  simp only [Value.ofImage, hdiv, hmod, Value.ofInt]
  rw [Int.natCast_emod]
  exact congrArg Value.int (Int.emod_bmod _ _)

theorem Opcode.number_lt (op : Opcode) : op.number < 0x100 := by
  cases op <;> decide

/-- An instruction is read back from its words. -/
theorem Instr.ofImage?_image (hm : instr.modifier < 0x10000) (hx : instr.operand.IsWord) :
    Instr.ofImage? instr.image instr.operand.image = some instr := by
  have hop := instr.op.number_lt
  have hlow : instr.image % 0x100 = instr.op.number := by
    unfold Instr.image
    omega
  have hhigh : instr.image / 0x10000 % 0x10000 = instr.modifier := by
    unfold Instr.image
    omega
  rw [Instr.ofImage?, hlow, hhigh, Opcode.ofNumber?_number, Option.map_some, hx.ofImage_image]

theorem Payload.toList_image_code (is : List Instr) :
    (Payload.code is.toArray).image.toList = is.flatMap fun i => [i.image, i.operand.image] := by
  have hfold : ∀ acc : Array Nat,
      (is.foldl (fun acc i => (acc.push i.image).push i.operand.image) acc).toList
        = acc.toList ++ is.flatMap fun i => [i.image, i.operand.image] := by
    induction is with
    | nil => simp
    | cons i is ih => intro acc; simp [ih]
  simpa [Payload.image] using hfold #[]

theorem getElem?_flatMap_pair {α β : Type} (f g : α → β) (xs : List α) (k : Nat) :
    (xs.flatMap fun x => [f x, g x])[2 * k]? = xs[k]?.map f ∧
      (xs.flatMap fun x => [f x, g x])[2 * k + 1]? = xs[k]?.map g := by
  induction xs generalizing k with
  | nil => simp
  | cons x xs ih =>
      cases k with
      | zero => simp
      | succ k => simpa [Nat.mul_succ] using ih k

/-- The two words of an instruction in the image of the code. -/
theorem Payload.getD_image_code (hplace : is[place]? = some instr) :
    (Payload.code is.toArray).image.getD (2 * place) 0 = instr.image ∧
      (Payload.code is.toArray).image.getD (2 * place + 1) 0 = instr.operand.image := by
  obtain ⟨hword, hoperand⟩ :=
    getElem?_flatMap_pair Instr.image (fun i => i.operand.image) is place
  rw [← Payload.toList_image_code, hplace, Array.getElem?_toList, Option.map_some] at hword hoperand
  rw [Array.getD_eq_getD_getElem?, Array.getD_eq_getD_getElem?, hword, hoperand]
  exact ⟨rfl, rfl⟩

/-- Its words in the arena stand for an instruction of a block in use. -/
theorem Heap.straysAt?_of_payload (hw : h.WellFormed) (hclaims : h.Claims block)
    (hp : h.payload block = .code is.toArray)
    (hroom : is.length * Instr.bytes ≤ h.arena.capacity block) (hplace : is[place]? = some instr)
    (hm : instr.modifier < 0x10000) (hx : instr.operand.IsWord) :
    h.straysAt? block place = some instr := by
  obtain ⟨r, hr, hused⟩ := hclaims
  have hpay : r.payload = .code is.toArray := by
    rw [← hp]
    simp only [Heap.payload, Arena.payload, hr]
  have hlt : place < is.length := (List.getElem?_eq_some_iff.1 hplace).1
  have hwords : 2 * place + 2 ≤ r.words := by
    simp only [Arena.capacity, hr, Instr.bytes] at hroom
    omega
  obtain ⟨hfirst, hsecond⟩ := Payload.getD_image_code hplace
  have hread : ∀ k, k ≤ r.words → 0 < k →
      h.arena.word? (block.offset + k) = some ((Payload.code is.toArray).image.getD (k - 1) 0) := by
    intro k hk hpos
    rw [Arena.word?_of_used hw.tiled hw.top_le hr hused hk, if_neg (by omega), hpay]
  unfold Heap.straysAt?
  simp only [Nat.add_assoc]
  rw [hread (1 + 2 * place) (by omega) (by omega), hread (1 + (2 * place + 1)) (by omega) (by omega),
    show 1 + 2 * place - 1 = 2 * place by omega,
    show 1 + (2 * place + 1) - 1 = 2 * place + 1 by omega, hfirst, hsecond]
  exact Instr.ofImage?_image hm hx

end Words

section Instructions

variable {E : Error → Prop} {h h' : Heap} {s s' : State} {A : List Value} {u v x : Value}
  {r : Bytecode} {is : List Instr} {i : Nat} {b : Bytecode} {block : Block}

/-! ## Code that is kept -/

theorem Heap.Assembled.cell?_eq (ha : h.Assembled v r is) (hz : (h.cell 0).isFree = true) :
    ∃ i, v.cell? = some i ∧ v = .ref .bytecode i := by
  obtain ⟨i, block, rfl, hc, -⟩ := ha
  exact ⟨i, cell?_of_isFree_eq_false hz (by rw [hc]; rfl), rfl⟩

/-- Different code is in different cells. -/
theorem Heap.Assembled.cell?_ne {r' : Bytecode} {is' : List Instr} (hu : h.Assembled u r is)
    (hz : (h.cell 0).isFree = true) (hv : h.Assembled v r' is') (hne : u ≠ v) :
    u.cell? ≠ v.cell? := by
  obtain ⟨i, hi, rfl⟩ := hu.cell?_eq hz
  obtain ⟨j, hj, rfl⟩ := hv.cell?_eq hz
  rw [hi, hj]
  rintro ⟨⟩
  exact hne rfl

/-- Code is the same where its cell and its block are. -/
theorem Heap.Assembled.congr (ha : h.Assembled v r is) (hz : (h.cell 0).isFree = true)
    (hcell : ∀ i, v.cell? = some i → h'.cell i = h.cell i)
    (hrecord : ∀ i b, v.cell? = some i → (h.cell i).block? = some b →
      h'.arena.record? b.offset = h.arena.record? b.offset) : h'.Assembled v r is := by
  obtain ⟨i, hi, rfl⟩ := ha.cell?_eq hz
  obtain ⟨_, block, ⟨⟩, hc, hp, hroom⟩ := ha
  have he := hrecord i block hi (by rw [hc]; rfl)
  refine ⟨i, block, rfl, (hcell i hi).trans hc, ?_, ?_⟩
  · rw [payload_eq_of_record? he, hp]
  · simpa only [Arena.capacity, he] using hroom

theorem Heap.Assembled.kept (ha : h.Assembled v r is) (hz : (h.cell 0).isFree = true)
    (hk : Heap.Kept A h h') (hv : h.Reaches A v) : h'.Assembled v r is :=
  ha.congr hz (fun i hi => hk.cell i (hv i hi)) fun i b hi hb => hk.record i b (hv i hi) hb

/-- Code is the same where all but another value's cell is kept. -/
theorem Heap.Assembled.around (ha : s.heap.Assembled v r is) (hs : s.InOrder)
    (h : s.Around A u s') (hv : s.heap.Reaches (s.rootValues ++ A) v) (hne : u.cell? ≠ v.cell?) :
    s'.heap.Assembled v r is :=
  ha.congr hs.isFree_zero (fun i hi => h.cell i (hv i hi) fun hu => hne (hu.trans hi.symm))
    fun i b hi hb => h.record i b (hv i hi) (fun hu => hne (hu.trans hi.symm)) hb

/-- What a cell of code is in a heap in order. -/
structure Heap.Stores (h : Heap) (i : Nat) (b : Bytecode) (is : List Instr) : Prop where
  cell : h.cell i = .bytecode b
  payload : h.payload b.code = .code is.toArray
  claims : h.Claims b.code
  first : Instr.bytes ≤ h.arena.capacity b.code
  room : is.length * Instr.bytes ≤ h.arena.capacity b.code

theorem Heap.Assembled.stores (ha : h.Assembled v r is) (ho : h.Orderly) :
    ∃ i b, v = .ref .bytecode i ∧ i ≠ 0 ∧ { r with code := b.code } = b ∧ h.Stores i b is := by
  obtain ⟨i, block, rfl, hc, hp, hfirst⟩ := ha
  have hblock : (h.cell i).block? = some block := by rw [hc]; rfl
  have huse : (h.cell i).isFree = false := by rw [hc]; rfl
  have hpos : i ≠ 0 := by
    rintro rfl
    rw [ho.wf.pool.zero] at huse
    cases huse
  have hroom := ho.fits i block hblock
  refine ⟨i, { r with code := block }, rfl, hpos, rfl, hc, hp,
    (ho.wf.sound i huse).block block hblock, hfirst, ?_⟩
  rw [hp] at hroom
  simpa [Payload.size, Nat.mul_comm] using hroom

namespace Heap.Stores

theorem assembled (hb : h.Stores i b is) (hr : { r with code := b.code } = b) :
    h.Assembled (.ref .bytecode i) r is :=
  ⟨i, b.code, rfl, by rw [hr]; exact hb.cell, hb.payload, hb.first⟩

theorem inUse (hb : h.Stores i b is) : (h.cell i).isFree = false := by
  rw [hb.cell]
  rfl

theorem block? (hb : h.Stores i b is) : (h.cell i).block? = some b.code := by
  rw [hb.cell]
  rfl

theorem instrs (hb : h.Stores i b is) : h.instrs b = is.toArray := by
  rw [Heap.instrs, hb.payload]
  rfl

/-- The operands are what the code refers to. -/
theorem operand_mem (hb : h.Stores i b is) {instr : Instr} (hmem : instr ∈ is) :
    instr.operand ∈ h.references (h.cell i) := by
  rw [hb.cell]
  simp only [references, Cell.block?, hb.payload, Payload.references, List.mem_append]
  exact .inl (List.mem_map_of_mem hmem)

theorem kept (hb : h.Stores i b is) (hk : Kept A h h') (hi : h.Reachable A i) :
    h'.Stores i b is := by
  have he := hk.record i _ hi hb.block?
  have hcapacity : h'.arena.capacity b.code = h.arena.capacity b.code := by
    simp only [Arena.capacity, he]
  refine ⟨(hk.cell i hi).trans hb.cell, (payload_eq_of_record? he).trans hb.payload, ?_, ?_, ?_⟩
  · obtain ⟨record, hrecord, hused⟩ := hb.claims
    exact ⟨record, he.trans hrecord, hused⟩
  · rw [hcapacity]
    exact hb.first
  · rw [hcapacity]
    exact hb.room

theorem bytecodeOf_eq (hb : s.heap.Stores i b is) (hi : i ≠ 0) :
    bytecodeOf (.ref .bytecode i) s = .ok b s := by
  unfold bytecodeOf
  rw [act_bind, act_gets, bytecode?_of_cell hi hb.cell]
  rfl

end Heap.Stores

/-! ## Around the code -/

theorem State.Around.rootValues (h : s.Around A v s') : s'.rootValues = s.rootValues := by
  simp only [State.rootValues, h.symbols, h.machine, h.roots, h.known]

theorem State.Around.of_grows (h : s.Grows A s') : s.Around A v s' where
  order := h.order
  cell j hj _ := h.kept.cell j hj
  record j b hj _ hb := h.kept.record j b hj hb
  symbols := h.symbols
  machine := h.machine
  roots := h.roots
  known := h.known
  config := h.config

/-- What was led to is led to: no way from the roots need pass the cell that may change before it
reaches it. -/
theorem State.Around.reaches (h : s.Around A v s') (hv : s.heap.Reaches s.rootValues v) :
    s'.heap.Reaches s'.rootValues v := by
  intro i hi
  rw [h.rootValues]
  have hway : ∀ j, s.heap.Reachable s.rootValues j →
      s'.heap.Reachable s.rootValues j ∨ s'.heap.Reachable s.rootValues i := by
    intro j hj
    induction hj with
    | root hu hj => exact .inl (.root hu hj)
    | @step j k u hj hu hk ih =>
        rcases ih with ih | ih
        · by_cases hji : v.cell? = some j
          · obtain rfl : j = i := Option.some.inj (hji.symm.trans hi)
            exact .inr ih
          · have hj' := hj.mono (List.subset_append_left _ A)
            refine .inl (.step ih ?_ hk)
            rw [h.cell j hj' hji, Heap.references_eq_of_record? fun b hb => h.record j b hj' hji hb]
            exact hu
        · exact .inr ih
  exact (hway i (hv i hi)).elim id id

/-- The contents of the block of the code become others. -/
theorem State.Around.modifyPayload {is' : List Instr} {f : Payload → Payload}
    (h : s.Around A (.ref .bytecode i) s') (hi : i ≠ 0) (hs : s'.heap.Stores i b is)
    (hf : f (.code is.toArray) = .code is'.toArray) (hholds : ∀ instr ∈ is', s'.heap.Holds instr.operand)
    (hroom : is'.length * Instr.bytes ≤ s'.heap.arena.capacity b.code) :
    s.Around A (.ref .bytecode i) { s' with heap := s'.heap.modifyPayload b.code f } ∧
      (s'.heap.modifyPayload b.code f).Stores i b is' := by
  have hnew : f (s'.heap.payload b.code) = .code is'.toArray := by rw [hs.payload, hf]
  have hpayload : (s'.heap.modifyPayload b.code f).payload b.code = .code is'.toArray := by
    rw [Heap.payload_modifyPayload hs.claims, if_pos rfl, hnew]
  have horderly : (s'.heap.modifyPayload b.code f).Orderly := by
    refine h.order.heap.modifyPayload hs.claims ?_ ?_
    · rw [hnew]
      intro u hu
      obtain ⟨instr, hmem, rfl⟩ := List.mem_map.1 hu
      exact hholds instr hmem
    · rw [hnew]
      simpa [Payload.size, Nat.mul_comm] using hroom
  refine ⟨⟨⟨horderly, h.order.roots, h.order.slots⟩, h.cell, fun j c hj hne hc => ?_, h.symbols,
    h.machine, h.roots, h.known, h.config⟩, hs.cell, hpayload,
    Heap.claims_modifyPayload hs.claims, ?_, ?_⟩
  · -- the block belongs to no other cell
    have hoffset : c.offset ≠ b.code.offset := by
      intro heq
      obtain rfl : c = b.code := congrArg Block.mk heq
      obtain rfl : j = i := by
        refine h.order.heap.owned j i b.code ?_ hs.block?
        rw [h.cell j hj hne]
        exact hc
      exact hne (Value.cell?_eq_some_iff.2 ⟨_, rfl, hi⟩)
    refine Eq.trans ?_ (h.record j c hj hne hc)
    refine (Arena.record?_modify _ _ _ _).trans ?_
    simp only [if_neg hoffset, Option.map_id']
  · rw [Heap.capacity_modifyPayload]
    exact hs.first
  · rw [Heap.capacity_modifyPayload]
    exact hroom

/-- The code takes over a spare block with its instructions. -/
theorem State.Grows.around_rehoused {bytes : Nat} (h : s.Grows A s') (hi : i ≠ 0)
    (hs : s'.heap.Stores i b is) (hspare : s'.heap.Spare block bytes (.code is.toArray))
    (hroom : (is.length + 1) * Instr.bytes ≤ bytes) :
    s.Around A (.ref .bytecode i)
        { s' with heap := s'.heap.set i (.bytecode { b with code := block }) } ∧
      (s'.heap.set i (.bytecode { b with code := block })).Stores i { b with code := block } is := by
  have huse := hs.inUse
  have hset := Heap.cell_set_of_inUse huse (.bytecode { b with code := block })
  have hcell := (hset i).trans (if_pos rfl)
  have htag : (Cell.bytecode { b with code := block }).tag = (s'.heap.cell i).tag := by
    rw [hs.cell]
    rfl
  have hrefs : s'.heap.references (.bytecode { b with code := block })
      = s'.heap.references (s'.heap.cell i) := by
    rw [hs.cell]
    simp only [Heap.references, Cell.block?, hspare.payload, hs.payload, Cell.values]
  have hsound : s'.heap.Sound (.bytecode { b with code := block }) := by
    refine ⟨fun u hu => ?_, ?_⟩
    · rw [hrefs] at hu
      exact (h.order.heap.wf.sound i huse).values u hu
    · rintro _ ⟨⟩
      exact hspare.claims
  have hcapacity := Nat.le_trans hroom hspare.room
  have horderly : (s'.heap.set i (.bytecode { b with code := block })).Orderly := by
    refine h.order.heap.set huse rfl htag hsound ?_ ?_
    · rintro _ ⟨⟩
      exact .inr hspare.unowned
    · rintro _ ⟨⟩
      rw [hspare.payload]
      simp only [Payload.size, List.size_toArray, Instr.bytes] at hcapacity ⊢
      omega
  refine ⟨⟨⟨horderly, fun u hu => (h.order.roots u hu).set huse rfl htag, h.order.slots⟩,
    fun j hj hne => ?_, fun j c hj _ hc => h.kept.record j c hj hc, h.symbols, h.machine, h.roots,
    h.known, h.config⟩, hcell, hspare.payload, hspare.claims, ?_, ?_⟩
  · have hji : j ≠ i := by
      rintro rfl
      exact hne (Value.cell?_eq_some_iff.2 ⟨_, rfl, hi⟩)
    exact ((hset j).trans (if_neg hji)).trans (h.kept.cell j hj)
  · simp only [Instr.bytes] at hcapacity ⊢
    exact Nat.le_trans (by omega) hcapacity
  · simp only [Instr.bytes] at hcapacity ⊢
    exact Nat.le_trans (by omega) hcapacity

/-! ## New code -/

theorem gives_makeBytecode (hs : s.InOrder)
    (hname : s.heap.Holds r.name ∧ s.heap.Reaches s.rootValues r.name)
    (hdoc : s.heap.Holds r.doc ∧ s.heap.Reaches s.rootValues r.doc) :
    Gives E (makeBytecode r.name r.doc r.arity) s fun v s' =>
      s.Grows [] s' ∧ s'.heap.Assembled v r [] := by
  refine Gives.bind (gives_allocPayload hs (p := .code #[]) (Nat.zero_le _) nofun) ?_
  rintro block s₁ ⟨hgrows, hspare⟩
  have hkept := hgrows.kept.mono (List.subset_append_left s.rootValues [])
  have hc : s₁.heap.Placeable (.bytecode { r with code := block }) := by
    refine hspare.placeable rfl (Nat.zero_le _) fun v hv => ?_
    obtain rfl | rfl : v = r.name ∨ v = r.doc := by
      simpa [Payload.references, Cell.values] using hv
    · exact hkept.holds_of_reaches hname.1 hname.2
    · exact hkept.holds_of_reaches hdoc.1 hdoc.2
  refine (gives_allocCell hgrows.order hc).mono ?_
  rintro v s₂ ⟨hgrows₂, hplaced⟩
  obtain ⟨i, -, rfl, hcell⟩ := hplaced.exists_index
  have hrecord := hplaced.record block rfl
  refine ⟨hgrows.trans (hgrows₂.mono (List.nil_subset _)), i, block, rfl, hcell, ?_, ?_⟩
  · rw [Heap.payload_eq_of_record? hrecord, hspare.payload]
  · have hroom := hspare.room
    simp only [initialRoom, Instr.bytes, Arena.capacity, hrecord] at hroom ⊢
    omega

/-! ## Growing -/

/-- A value that was protected meanwhile is kept, with all that it leads to. -/
theorem State.Grows.unguarded (hs : s.InOrder)
    (h : State.Grows [] { s with roots := s.roots.push x } s') :
    s.Grows [x] { s' with roots := s.roots } := by
  have hsub : s.rootValues ++ [x] ⊆ { s with roots := s.roots.push x }.rootValues ++ [] := by
    intro u hu
    refine List.mem_append_left _ (mem_rootValues_with_roots.2 ?_)
    rcases List.mem_append.1 hu with hu | hu
    · rcases (mem_rootValues_with_roots (s := s) (r := s.roots)).1 hu with hu | hu
      · exact .inl (Array.mem_push_of_mem _ hu)
      · exact .inr hu
    · obtain rfl := List.mem_singleton.1 hu
      exact .inl Array.mem_push_self
  refine .of_kept hs (h.order.with_roots fun u hu => h.order.holds_root ?_) (h.kept.mono hsub)
    h.symbols h.machine rfl h.known h.config
  rw [h.roots]
  exact Array.mem_push_of_mem _ hu

/-- Room is made for one more instruction; neither the others nor the operand that is to come are
lost. -/
theorem gives_growCode (hs : s.InOrder) (hi : i ≠ 0) (hcode : s.heap.Stores i b is)
    (hv : s.heap.Reachable s.rootValues i) (hx : s.heap.Holds x)
    (hfull : s.heap.arena.capacity b.code < (is.length + 1) * Instr.bytes) :
    Gives E (growCode (.ref .bytecode i) b is.length x) s fun block s' =>
      s.Around [x] (.ref .bytecode i) s' ∧ s'.heap.Holds x ∧
        s'.heap.Stores i { b with code := block } is ∧
        (is.length + 1) * Instr.bytes ≤ s'.heap.arena.capacity block := by
  have hguarded : State.InOrder { s with roots := s.roots.push x } := by
    refine hs.with_roots fun u hu => ?_
    rcases Array.mem_push.1 hu with hu | rfl
    · exact hs.holds_root hu
    · exact hx
  have hbytes : (is.length + 1) * Instr.bytes ≤ is.length * 2 * Instr.bytes := by
    have := hcode.first
    simp only [Instr.bytes] at this hfull ⊢
    omega
  refine Gives.bind gives_protect ?_
  rintro _ _ rfl
  refine Gives.bind (gives_allocBlock hguarded _) ?_
  rintro block s₁ ⟨hguard, hspare⟩
  have hgrows := hguard.unguarded hs
  refine Gives.bind (Q := fun _ t => t = { s₁ with roots := s.roots }) (.modify ?_) ?_
  · rw [hguard.roots]
    simp
  rintro _ _ rfl
  -- the block is filled, and then the code takes it over
  have hsub := List.subset_append_left s.rootValues [x]
  have hcode₁ : s₁.heap.Stores i b is := hcode.kept hgrows.kept (hv.mono hsub)
  have hholds : ∀ u ∈ (Payload.code is.toArray).references, s₁.heap.Holds u := by
    intro u hu
    obtain ⟨instr, hmem, rfl⟩ := List.mem_map.1 hu
    exact (hgrows.order.heap.wf.sound i hcode₁.inUse).values _ (hcode₁.operand_mem hmem)
  have hsize : (Payload.code is.toArray).size ≤ is.length * 2 * Instr.bytes := by
    simp only [Payload.size, List.size_toArray, Instr.bytes]
    omega
  have hbeside := hspare.beside_putPayload (.code is.toArray)
  have hfilled := hgrows.trans (State.grows_beside hgrows.order hbeside
    (hgrows.order.heap.putPayload hspare hsize hholds))
  refine Gives.bind (Q := fun _ t => t = { s₁ with
    roots := s.roots, heap := s₁.heap.putPayload block (.code is.toArray) }) (.modify ?_) ?_
  · simp only [hcode₁.payload]
  rintro _ _ rfl
  have hcode₂ := hcode.kept hfilled.kept (hv.mono hsub)
  have htakes := hfilled.around_rehoused hi hcode₂ (hspare.putPayload _) hbytes
  refine Gives.bind (Q := fun _ t => t = { s₁ with
    roots := s.roots
    heap := (s₁.heap.putPayload block (.code is.toArray)).set i
      (.bytecode { b with code := block }) }) (.modify ?_) ?_
  · simp only [Value.cell?, if_neg hi]
  rintro _ _ rfl
  refine .pure ⟨htakes.1, ?_, htakes.2, Nat.le_trans hbytes (hspare.putPayload _).room⟩
  exact (hfilled.holds hx (by simp)).set hcode₂.inUse rfl (by rw [hcode₂.cell]; rfl)

/-! ## Emitting and patching -/

/-- Where there is room for it, an instruction is written behind the others. -/
theorem gives_append (haround : s.Around A (.ref .bytecode i) s') (hi : i ≠ 0)
    (hcode : s'.heap.Stores i b is) (hr : { r with code := b.code } = b) (instr : Instr)
    (hx : s'.heap.Holds instr.operand)
    (hroom : (is.length + 1) * Instr.bytes ≤ s'.heap.arena.capacity b.code) :
    Gives E (do
      modifyHeap (·.modifyPayload b.code (.pushInstr instr))
      return is.length) s' fun n t => n = is.length ∧ s.Around A (.ref .bytecode i) t ∧
        t.heap.Assembled (.ref .bytecode i) r (is ++ [instr]) := by
  have hpush : Payload.pushInstr instr (.code is.toArray) = .code (is ++ [instr]).toArray := by
    simp [Payload.pushInstr]
  have hholds : ∀ j ∈ is ++ [instr], s'.heap.Holds j.operand := by
    intro j hmem
    rcases List.mem_append.1 hmem with hmem | hmem
    · exact (haround.order.heap.wf.sound i hcode.inUse).values _ (hcode.operand_mem hmem)
    · obtain rfl := List.mem_singleton.1 hmem
      exact hx
  obtain ⟨haround', hcode'⟩ := haround.modifyPayload hi hcode hpush hholds (by simpa using hroom)
  refine Gives.bind (Q := fun _ t => t = { s' with
    heap := s'.heap.modifyPayload b.code (.pushInstr instr) }) (.modify rfl) ?_
  rintro _ _ rfl
  exact .pure ⟨rfl, haround', hcode'.assembled hr⟩

/-- An instruction is appended, at the place that is answered. -/
theorem gives_emit (hs : s.InOrder) (ha : s.heap.Assembled v r is)
    (hv : s.heap.Reaches s.rootValues v) (op : Opcode) (modifier : Nat) (hx : s.heap.Holds x) :
    Gives E (emit v op modifier x) s fun n s' => n = is.length ∧ s.Around [x] v s' ∧
      s'.heap.Assembled v r (is ++ [⟨op, modifier, x⟩]) := by
  obtain ⟨i, b, rfl, hi, hr, hcode⟩ := ha.stores hs.heap
  refine Gives.bind (Q := fun c t => c = b ∧ s = t) ?_ ?_
  · exact .of_eq_ok ⟨rfl, rfl⟩ (hcode.bytecodeOf_eq hi)
  rintro b _ ⟨rfl, rfl⟩
  refine Gives.bind (Q := fun n t => n = is.length ∧ s = t) (.gets ⟨?_, rfl⟩) ?_
  · rw [hcode.instrs]
    simp
  rintro _ _ ⟨rfl, rfl⟩
  refine Gives.bind (Q := fun n t => n = s.heap.arena.capacity b.code ∧ s = t)
    (.gets ⟨rfl, rfl⟩) ?_
  rintro _ _ ⟨rfl, rfl⟩
  split
  · rename_i hfull
    refine Gives.bind (gives_growCode hs hi hcode (hv i ?_) hx hfull) ?_
    · exact Value.cell?_eq_some_iff.2 ⟨_, rfl, hi⟩
    rintro block s₁ ⟨haround, hx₁, hcode₁, hroom⟩
    rw [← hr] at hcode₁
    exact gives_append haround hi hcode₁ rfl ⟨op, modifier, x⟩ hx₁ hroom
  · refine Gives.bind (Q := fun block t => block = b.code ∧ s = t) (.pure ⟨rfl, rfl⟩) ?_
    rintro _ _ ⟨rfl, rfl⟩
    exact gives_append (.of_grows (.refl hs)) hi hcode hr ⟨op, modifier, x⟩ hx (by omega)

/-- The operand at a place becomes a target. -/
theorem exists_patch (hs : s.InOrder) (ha : s.heap.Assembled v r is) (place target : Nat) :
    ∃ s', patch v place target s = .ok () s' ∧ s.Around [] v s' ∧
      s'.heap.Assembled v r (is.modify place fun i => { i with operand := .ofInt target }) := by
  obtain ⟨i, b, rfl, hi, hr, hcode⟩ := ha.stores hs.heap
  have hset : Payload.setOperand place (.ofInt target) (.code is.toArray)
      = .code (is.modify place fun i => { i with operand := .ofInt target }).toArray := by
    simp only [Payload.setOperand, List.modify_toArray]
  have hholds : ∀ j ∈ is.modify place fun i => { i with operand := .ofInt target },
      s.heap.Holds j.operand := by
    intro j hmem
    obtain ⟨k, hk⟩ := List.mem_iff_getElem?.1 hmem
    rw [List.getElem?_modify] at hk
    obtain ⟨j', hj', rfl⟩ := Option.map_eq_some_iff.1 hk
    split
    · exact Heap.holds_of_cell?_eq_none rfl
    · exact (hs.heap.wf.sound i hcode.inUse).values _
        (hcode.operand_mem (List.mem_of_getElem? hj'))
  obtain ⟨haround, hcode'⟩ := (State.Around.of_grows (.refl hs)).modifyPayload hi hcode hset hholds
    (by simpa using hcode.room)
  refine ⟨_, ?_, haround, hcode'.assembled hr⟩
  unfold patch
  rw [act_bind, hcode.bytecodeOf_eq hi]
  rfl

end Instructions

end CellLisp
