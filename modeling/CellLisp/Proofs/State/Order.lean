import CellLisp.Proofs.Heap.Spare
import CellLisp.Proofs.State.Placing
import CellLisp.Proofs.State.Chain

/-!
# `CellLisp.Proofs.State.Order` — states in order, and allocation in them

A state is *in order* when its heap is, its roots refer to what is there and its table of symbols
has a bucket.  `s.Onward A s'` says that nothing but allocation lies between the two states: the
machine and the protected values are the same, what the roots and the values `A` lead to is as
before, and every name has the symbol it had.

| | gives |
| :-- | :-- |
| `gives_allocCell` | a cell with the contents |
| `gives_makeString` | a string with the text |
| `gives_cons` | a pair |
| `gives_intern` | the symbol that the name leads to from then on |
-/

namespace CellLisp

/-- A state in order. -/
structure State.InOrder (s : State) : Prop where
  heap : s.heap.Orderly
  roots : ∀ v ∈ s.rootValues, s.heap.Holds v
  slots : 0 < s.symbols.buckets.size

/-- Nothing but allocation lies between two states. -/
structure State.Onward (A : List Value) (s s' : State) : Prop where
  order : s'.InOrder
  kept : Heap.Kept (s.rootValues ++ A) s.heap s'.heap
  heads : ∀ v ∈ s.symbols.buckets.toList, s'.heap.Reaches s'.symbols.buckets.toList v
  interned : ∀ name v, s.findSymbol? name = some v → s'.findSymbol? name = some v
  machine : s'.machine = s.machine
  roots : s'.roots = s.roots
  known : s'.known = s.known
  config : s'.config = s.config

/-- The same, and no symbol was made either. -/
structure State.Grows (A : List Value) (s s' : State) : Prop extends State.Onward A s s' where
  symbols : s'.symbols = s.symbols

namespace State

variable {s s' s'' : State} {A B : List Value} {v : Value}

theorem InOrder.isFree_zero (hs : s.InOrder) : (s.heap.cell 0).isFree = true :=
  hs.heap.wf.pool.zero

theorem InOrder.wellFormed (hs : s.InOrder) {c : Cell} (hc : s.heap.Sound c) :
    s.WellFormed (some c) where
  heap := hs.heap.wf
  roots := hs.roots
  pending := by
    rintro _ ⟨⟩
    exact hc

theorem bucket_subset_rootValues (s : State) : s.symbols.buckets.toList ⊆ s.rootValues := by
  intro v hv
  simp only [rootValues, List.append_assoc]
  exact List.mem_append_left _ hv

theorem mem_rootValues_iff_bucket : v ∈ s.rootValues ↔ v ∈ s.symbols.buckets.toList ∨
    v ∈ { s with symbols := ⟨#[], 0⟩ }.rootValues := by
  simp [rootValues]

theorem head_mem_of_slots (hs : s.InOrder) (hash : UInt32) :
    s.symbols.head (s.symbols.slot hash) ∈ s.symbols.buckets.toList := by
  have hlt : s.symbols.slot hash < s.symbols.buckets.size := Nat.mod_lt _ hs.slots
  rw [SymbolTable.head, Array.getD_eq_getD_getElem?, Array.getElem?_eq_getElem hlt]
  exact Array.mem_toList_iff.2 (Array.getElem_mem hlt)

/-- The roots of the first state are led to from those of the second. -/
theorem Onward.reaches_root (h : s.Onward A s') (hv : v ∈ s.rootValues) :
    s'.heap.Reaches s'.rootValues v := by
  rcases mem_rootValues_iff_bucket.1 hv with hv | hv
  · exact (h.heads v hv).mono s'.bucket_subset_rootValues
  · refine Heap.reaches_of_mem (mem_rootValues_iff_bucket.2 (.inr ?_))
    simpa [rootValues, h.machine, h.roots, h.known] using hv

theorem Onward.reaches (h : s.Onward A s') (hv : s.heap.Reaches (s.rootValues ++ A) v) :
    s'.heap.Reaches (s'.rootValues ++ A) v := by
  intro i hi
  refine (h.kept.reachable (hv i hi)).of_roots fun u hu j hj => ?_
  rcases List.mem_append.1 hu with hu | hu
  · exact ((h.reaches_root hu).mono (List.subset_append_left _ _)) j hj
  · exact .root (List.mem_append_right _ hu) hj

theorem Onward.trans (h : s.Onward A s') (h' : s'.Onward A s'') : s.Onward A s'' where
  order := h'.order
  kept := by
    have hreach : ∀ {i}, s.heap.Reachable (s.rootValues ++ A) i →
        s'.heap.Reachable (s'.rootValues ++ A) i := by
      intro i hi
      refine (h.kept.reachable hi).of_roots fun u hu j hj => ?_
      rcases List.mem_append.1 hu with hu | hu
      · exact ((h.reaches_root hu).mono (List.subset_append_left _ _)) j hj
      · exact .root (List.mem_append_right _ hu) hj
    refine ⟨fun i hi => (h'.kept.cell i (hreach hi)).trans (h.kept.cell i hi), fun i b hi hb => ?_⟩
    refine (h'.kept.record i b (hreach hi) ?_).trans (h.kept.record i b hi hb)
    rw [h.kept.cell i hi]
    exact hb
  heads v hv i hi := by
    have hk : Heap.Kept s'.symbols.buckets.toList s'.heap s''.heap :=
      h'.kept.mono fun u hu => List.mem_append_left _ (s'.bucket_subset_rootValues hu)
    exact (hk.reachable (h.heads v hv i hi)).of_roots fun u hu j hj => h'.heads u hu j hj
  interned name v hv := h'.interned name v (h.interned name v hv)
  machine := h'.machine.trans h.machine
  roots := h'.roots.trans h.roots
  known := h'.known.trans h.known
  config := h'.config.trans h.config

theorem Onward.mono (h : s.Onward B s') (H : A ⊆ B) : s.Onward A s' :=
  { h with
    kept := h.kept.mono (List.append_subset.2
      ⟨List.subset_append_left _ _, List.Subset.trans H (List.subset_append_right _ _)⟩) }

/-- Only the heap and the world have changed, and what the roots lead to is kept. -/
theorem Grows.of_kept (hs : s.InOrder) (hs' : s'.InOrder)
    (hk : Heap.Kept (s.rootValues ++ A) s.heap s'.heap) (hsymbols : s'.symbols = s.symbols)
    (hmachine : s'.machine = s.machine) (hroots : s'.roots = s.roots)
    (hknown : s'.known = s.known) (hconfig : s'.config = s.config) : s.Grows A s' where
  order := hs'
  kept := hk
  heads v hv := by
    rw [hsymbols]
    exact Heap.reaches_of_mem hv
  interned name v hv := by
    obtain ⟨k, hf⟩ := findSymbol?_eq_some_iff.1 hv
    refine findSymbol?_eq_some_iff.2 ⟨k, ?_⟩
    have hchain : s'.chainOf name = s.chainOf name := by simp only [chainOf, hsymbols]
    rw [hchain]
    refine hf.kept hs.isFree_zero hs'.isFree_zero hk (Heap.reaches_of_mem ?_)
    exact List.mem_append_left _ (s.bucket_subset_rootValues (head_mem_of_slots hs _))
  machine := hmachine
  roots := hroots
  known := hknown
  config := hconfig
  symbols := hsymbols

theorem Grows.refl (hs : s.InOrder) : s.Grows A s := .of_kept hs hs .refl rfl rfl rfl rfl rfl

theorem Onward.refl (hs : s.InOrder) : s.Onward A s := (Grows.refl hs).toOnward

theorem Grows.trans (h : s.Grows A s') (h' : s'.Grows A s'') : s.Grows A s'' :=
  ⟨h.toOnward.trans h'.toOnward, h'.symbols.trans h.symbols⟩

theorem Grows.mono (h : s.Grows B s') (H : A ⊆ B) : s.Grows A s' :=
  ⟨h.toOnward.mono H, h.symbols⟩

theorem Onward.holds (h : s.Onward A s') (hv : s.heap.Holds v) (hm : v ∈ s.rootValues ++ A) :
    s'.heap.Holds v :=
  h.kept.holds hv hm

/-! ## Protected values -/

theorem mem_rootValues_with_roots {r : Array Value} {u : Value} :
    u ∈ { s with roots := r }.rootValues ↔ u ∈ r ∨ u ∈ { s with roots := #[] }.rootValues := by
  simp only [rootValues, List.mem_append, Array.mem_toList_iff]
  tauto

theorem Grows.rootValues (h : s.Grows A s') : s'.rootValues = s.rootValues := by
  simp only [State.rootValues, h.symbols, h.machine, h.roots, h.known]

/-- What the roots lead to they still lead to. -/
theorem Grows.reachable (h : s.Grows A s') {i : Nat} (hi : s.heap.Reachable s.rootValues i) :
    s'.heap.Reachable s'.rootValues i := by
  rw [h.rootValues]
  exact (h.kept.mono (List.subset_append_left _ _)).reachable hi

/-- Other protected values that refer to what is there. -/
theorem InOrder.with_roots (hs : s.InOrder) {r : Array Value} (hr : ∀ v ∈ r, s.heap.Holds v) :
    InOrder { s with roots := r } := by
  refine ⟨hs.heap, fun v hv => ?_, hs.slots⟩
  rcases mem_rootValues_with_roots.1 hv with hv | hv
  · exact hr v hv
  · exact hs.roots v ((mem_rootValues_with_roots (s := s) (r := s.roots)).2 (.inr hv))

theorem mem_rootValues_of_roots (hv : v ∈ s.roots) : v ∈ s.rootValues :=
  (mem_rootValues_with_roots (s := s) (r := s.roots)).2 (.inl hv)

theorem InOrder.holds_root (hs : s.InOrder) (hv : v ∈ s.roots) : s.heap.Holds v :=
  hs.roots v (mem_rootValues_of_roots hv)

theorem mem_of_mem_shrink {xs : Array Value} {n : Nat} (hv : v ∈ xs.shrink n) : v ∈ xs := by
  rw [← Array.mem_toList_iff, Array.toList_shrink] at hv
  exact Array.mem_toList_iff.1 (List.mem_of_mem_take hv)

theorem InOrder.shrink (hs : s.InOrder) (n : Nat) :
    InOrder { s with roots := s.roots.shrink n } :=
  hs.with_roots fun _ hv => hs.holds_root (mem_of_mem_shrink hv)

/-- The same with fewer protected values. -/
theorem Onward.with_roots (h : s.Onward A s') {r : Array Value} (hr : ∀ v ∈ r, v ∈ s.roots) :
    Onward A { s with roots := r } { s' with roots := r } where
  order := h.order.with_roots fun v hv => h.order.holds_root (by rw [h.roots]; exact hr v hv)
  kept := by
    refine h.kept.mono (List.append_subset.2 ⟨fun u hu => List.mem_append_left _ ?_,
      List.subset_append_right _ _⟩)
    rcases mem_rootValues_with_roots.1 hu with hu | hu
    · exact mem_rootValues_of_roots (hr u hu)
    · exact (mem_rootValues_with_roots (s := s) (r := s.roots)).2 (.inr hu)
  heads := h.heads
  interned := h.interned
  machine := h.machine
  roots := rfl
  known := h.known
  config := h.config

theorem Onward.shrink (h : s.Onward A s') (n : Nat) :
    Onward A { s with roots := s.roots.shrink n } { s' with roots := s'.roots.shrink n } := by
  rw [h.roots]
  exact h.with_roots fun _ hv => mem_of_mem_shrink hv

end State

section Actions

variable {E : Error → Prop} {s : State} {A : List Value} {c : Cell}

/-- One more protected value, unless there is no room. -/
theorem gives_protect {v : Value} :
    Gives E (protect v) s fun _ s' => s' = { s with roots := s.roots.push v } := by
  refine Gives.bind (Q := fun t s' => t = s ∧ s' = s) ⟨rfl, rfl⟩ ?_
  rintro _ _ ⟨rfl, rfl⟩
  split
  · exact trivial
  · exact rfl

/-! ## Collecting -/

theorem State.grows_collect (hs : s.InOrder) {pending : Option Cell}
    (hp : ∀ c, pending = some c → s.heap.Sound c)
    (hA : ∀ v ∈ A, v ∈ s.heap.startValues s.rootValues pending) :
    s.Grows A (s.collect pending) := by
  have hkept := Heap.kept_collect hs.heap.wf hs.roots hp
  have hroots : ∀ v ∈ s.rootValues, v ∈ s.heap.startValues s.rootValues pending := by
    intro v hv
    cases pending with
    | none => exact hv
    | some c => exact List.mem_append_right _ hv
  have hsub : s.rootValues ++ A ⊆ s.heap.startValues s.rootValues pending :=
    List.append_subset.2 ⟨hroots, hA⟩
  refine .of_kept hs ⟨hs.heap.collect hs.roots hp, fun v hv => ?_, hs.slots⟩ (hkept.mono hsub)
    rfl rfl rfl rfl rfl
  exact hkept.holds (hs.roots v hv) (hroots v hv)

theorem gives_collect (hs : s.InOrder) : Gives E collect s fun _ s' => s.Grows [] s' :=
  .modify (State.grows_collect hs (fun _ hc => by cases hc) fun _ hv => by cases hv)

/-! ## Cells -/

theorem gives_exhausted {α : Type} {what : String} {cause : Fatal} (h : cause.IsExhaustion)
    {Q : α → State → Prop} : Gives E (exhausted what cause) s Q :=
  h

/-- The contents were placed in a cell, and their block is as it was. -/
structure State.Placed (s : State) (c : Cell) (v : Value) (s' : State) : Prop where
  exists_index : ∃ i, i ≠ 0 ∧ v = .ref c.tag i ∧ s'.heap.cell i = c
  record : ∀ b, c.block? = some b → s'.heap.arena.record? b.offset = s.heap.arena.record? b.offset

theorem gives_take (hs : s.InOrder) (hc : s.heap.Placeable c) :
    Gives E (do
        match ← modifyGet fun s =>
            let (place, heap) := s.heap.take c
            (place, { s with heap }) with
        | some index => return .ref c.tag index
        | none => exhausted "cell pool" .cellsExhausted : Act Value)
      s fun v s' => s.Grows (s.heap.references c) s' ∧ s.Placed c v s' := by
  unfold Gives
  rw [act_bind, act_modifyGet]
  cases htake : s.heap.take c with
  | mk place h' =>
      cases place with
      | none => trivial
      | some i =>
          have ht := Heap.taken_of_take hs.heap.wf.pool htake
          have hext := ht.extends
          refine ⟨.of_kept hs ⟨ht.orderly hs.heap hc, fun v hv => hext.holds (hs.roots v hv),
            hs.slots⟩ ?_ rfl rfl rfl rfl rfl, ⟨i, ht.pos, rfl, ht.cell_self⟩, fun b _ => ?_⟩
          · refine hext.kept hs.heap.wf fun v hv => ?_
            rcases List.mem_append.1 hv with hv | hv
            · exact hs.roots v hv
            · exact hc.sound.values v hv
          · show h'.arena.record? b.offset = _
            rw [ht.arena]

/-- A new cell with the contents. -/
theorem gives_allocCell (hs : s.InOrder) (hc : s.heap.Placeable c) :
    Gives E (allocCell c) s fun v s' => s.Grows (s.heap.references c) s' ∧ s.Placed c v s' := by
  refine Gives.bind (Q := fun _ s' => s = s') (.gets rfl) ?_
  rintro low _ rfl
  cases low with
  | false => exact gives_take hs hc
  | true =>
      have hp : ∀ c', some c = some c' → s.heap.Sound c' := by
        rintro _ ⟨⟩
        exact hc.sound
      have hon : s.Grows (s.heap.references c) (s.collect (some c)) :=
        State.grows_collect hs hp fun v hv => List.mem_append_left _ hv
      have hrec : ∀ b, c.block? = some b →
          (s.collect (some c)).heap.arena.record? b.offset = s.heap.arena.record? b.offset :=
        fun b hb => (Heap.collected_collect hs.heap.wf hs.roots hp).block b (.inr ⟨c, rfl, hb⟩)
      refine Gives.bind (Q := fun _ s' => s' = s.collect (some c)) (.modify rfl) ?_
      rintro _ _ rfl
      refine (gives_take hon.order (hc.collect hs.heap.wf hs.roots)).mono ?_
      rintro v s' ⟨hon', hplaced⟩
      have hrefs : (s.collect (some c)).heap.references c = s.heap.references c :=
        Heap.references_eq_of_record? hrec
      rw [hrefs] at hon'
      exact ⟨hon.trans hon', hplaced.exists_index, fun b hb => (hplaced.record b hb).trans (hrec b hb)⟩

/-- A new pair. -/
theorem gives_cons (hs : s.InOrder) {head tail : Value} (hhead : s.heap.Holds head)
    (htail : s.heap.Holds tail) :
    Gives E (cons head tail) s fun v s' =>
      s.Grows [head, tail] s' ∧ s'.heap.pair? v = some (head, tail) := by
  have hc : s.heap.Placeable (.pair head tail) := by
    refine Heap.placeable_of_values rfl rfl ?_
    simp [Cell.values, hhead, htail]
  refine (gives_allocCell hs hc).mono ?_
  rintro v s' ⟨hon, hplaced⟩
  obtain ⟨i, -, rfl, hcell⟩ := hplaced.exists_index
  exact ⟨hon, by simp [Heap.pair?, Cell.tag, hcell]⟩

/-! ## Blocks -/

theorem State.grows_beside (hs : s.InOrder) {h' : Heap} (hb : Heap.Beside s.heap h')
    (ho : h'.Orderly) : s.Grows A { s with heap := h' } :=
  .of_kept hs ⟨ho, fun v hv => hb.holds (hs.roots v hv), hs.slots⟩ (hb.kept _) rfl rfl rfl rfl rfl

theorem gives_claimBlock (hs : s.InOrder) (bytes : Nat) :
    Gives E (claimBlock bytes) s fun b? s' =>
      s.Grows [] s' ∧ ∀ b, b? = some b → s'.heap.Spare b bytes .blank := by
  unfold Gives claimBlock
  rw [act_modifyGet]
  cases hclaim : s.heap.arena.claim bytes with
  | mk b? a =>
      have heq : s.heap.claim bytes = (b?, { s.heap with arena := a }) := by
        simp only [Heap.claim, hclaim]
      simp only [heq]
      cases b? with
      | none =>
          obtain rfl := Arena.eq_of_claim_none hclaim
          exact ⟨.refl hs, fun b hb => by cases hb⟩
      | some b =>
          have hc := Arena.claimed_of_claim hs.heap.wf.tiled hs.heap.wf.top_le hclaim
          refine ⟨State.grows_beside hs (Heap.beside_claim hs.heap.wf hc) (hs.heap.claim hc), ?_⟩
          rintro _ ⟨⟩
          exact hs.heap.spare_claim hc

/-- A blank block that no cell holds. -/
theorem gives_allocBlock (hs : s.InOrder) (bytes : Nat) :
    Gives E (allocBlock bytes) s fun b s' => s.Grows [] s' ∧ s'.heap.Spare b bytes .blank := by
  refine Gives.bind (gives_claimBlock hs bytes) ?_
  rintro b? s₁ ⟨hon₁, hb⟩
  cases b? with
  | some b => exact .pure ⟨hon₁, hb b rfl⟩
  | none =>
      refine Gives.bind (gives_collect hon₁.order) ?_
      intro _ s₂ hon₂
      refine Gives.bind (gives_claimBlock hon₂.order bytes) ?_
      rintro b? s₃ ⟨hon₃, hb⟩
      cases b? with
      | some b => exact .pure ⟨(hon₁.trans hon₂).trans hon₃, hb b rfl⟩
      | none => exact gives_exhausted (show Fatal.IsExhaustion .payloadExhausted from trivial)

/-- A block with contents that no cell holds. -/
theorem gives_allocPayload (hs : s.InOrder) {bytes : Nat} {p : Payload} (hsize : p.size ≤ bytes)
    (hrefs : ∀ v ∈ p.references, v ∈ s.rootValues) :
    Gives E (allocPayload bytes p) s fun b s' => s.Grows [] s' ∧ s'.heap.Spare b bytes p := by
  refine Gives.bind (gives_allocBlock hs bytes) ?_
  rintro b s₁ ⟨hon, hb⟩
  have hholds : ∀ v ∈ p.references, s₁.heap.Holds v := fun v hv =>
    hon.holds (hs.roots v (hrefs v hv)) (List.mem_append_left _ (hrefs v hv))
  refine Gives.bind (Q := fun _ s' => s' = { s₁ with heap := s₁.heap.putPayload b p })
    (.modify rfl) ?_
  rintro _ _ rfl
  exact .pure ⟨hon.trans (State.grows_beside hon.order (hb.beside_putPayload p)
    (hon.order.heap.putPayload hb hsize hholds)), hb.putPayload p⟩

/-- A new string. -/
theorem gives_makeString (hs : s.InOrder) (text : String) :
    Gives E (makeString text) s fun v s' => s.Grows [] s' ∧ s'.heap.text? v = some text := by
  refine Gives.bind (gives_allocPayload hs (p := .text text) (Nat.le_refl _)
    (by simp [Payload.references])) ?_
  rintro b s₁ ⟨hon₁, hb⟩
  have hc : s₁.heap.Placeable (.string b) :=
    hb.placeable rfl (Nat.le_refl _) (by simp [Payload.references, Cell.values])
  refine (gives_allocCell hon₁.order hc).mono ?_
  rintro v s₂ ⟨hon₂, hplaced⟩
  obtain ⟨i, -, rfl, hcell⟩ := hplaced.exists_index
  refine ⟨hon₁.trans (hon₂.mono (List.nil_subset _)), ?_⟩
  have hpayload := Heap.payload_eq_of_record? (hplaced.record b rfl)
  simp [Heap.text?, Value.object?, Cell.tag, hcell, hpayload, hb.payload, Payload.string]

/-! ## Symbols -/

/-- The record of a new symbol. -/
def Symbol.fresh (name : Value) (hash : UInt32) (next : Value) : Symbol :=
  { name, hash, role := .plain, arity := none, declared := false, value := none, next }

/-- The state with a symbol in front of the chain that a name belongs to. -/
def State.linked (s : State) (name : String) (v : Value) : State :=
  { s with symbols := s.symbols.link (s.symbols.slot (hashName (Utf8.encode name))) v }

section Linked

variable {s₁ : State} {name : String} {v nameValue : Value}

theorem State.getElem?_linked (hs : s.InOrder) (k : Nat) :
    (s.linked name v).symbols.buckets[k]? =
      if k = s.symbols.slot (hashName (Utf8.encode name)) then some v
      else s.symbols.buckets[k]? := by
  have hlt : s.symbols.slot (hashName (Utf8.encode name)) < s.symbols.buckets.size :=
    Nat.mod_lt _ hs.slots
  show (s.symbols.buckets.setIfInBounds _ v)[k]? = _
  rw [Array.getElem?_setIfInBounds]
  by_cases hk : k = s.symbols.slot (hashName (Utf8.encode name))
  · subst hk
    simp [hlt]
  · simp [hk, Ne.symm hk]

theorem State.slot_linked (hash : UInt32) :
    (s.linked name v).symbols.slot hash = s.symbols.slot hash := by
  show hash.toNat % (s.symbols.buckets.setIfInBounds _ v).size = _
  rw [Array.size_setIfInBounds]
  rfl

theorem State.chainOf_linked (hs : s.InOrder) (name' : String) :
    (s.linked name v).chainOf name' =
      if s.symbols.slot (hashName (Utf8.encode name'))
        = s.symbols.slot (hashName (Utf8.encode name)) then v else s.chainOf name' := by
  simp only [chainOf, SymbolTable.head, slot_linked, Array.getD_eq_getD_getElem?,
    getElem?_linked hs]
  split <;> rfl

theorem State.mem_buckets_linked (hs : s.InOrder) {u : Value}
    (hu : u ∈ s.symbols.buckets.toList) :
    u ∈ (s.linked name v).symbols.buckets.toList ∨ u = s.chainOf name := by
  obtain ⟨k, hk⟩ := List.mem_iff_getElem?.1 hu
  rw [Array.getElem?_toList] at hk
  by_cases e : k = s.symbols.slot (hashName (Utf8.encode name))
  · subst e
    right
    simp [chainOf, SymbolTable.head, Array.getD_eq_getD_getElem?, hk]
  · left
    refine List.mem_iff_getElem?.2 ⟨k, ?_⟩
    rw [Array.getElem?_toList, getElem?_linked hs, if_neg e, hk]

theorem State.mem_linked (hs : s.InOrder) : v ∈ (s.linked name v).symbols.buckets.toList := by
  refine List.mem_iff_getElem?.2 ⟨s.symbols.slot (hashName (Utf8.encode name)), ?_⟩
  rw [Array.getElem?_toList, getElem?_linked hs, if_pos rfl]

theorem State.InOrder.linked (hs : s.InOrder) (hv : s.heap.Holds v) :
    (s.linked name v).InOrder := by
  refine ⟨hs.heap, fun u hu => ?_, ?_⟩
  · rcases mem_rootValues_iff_bucket.1 hu with hu | hu
    · rcases Array.mem_or_eq_of_mem_setIfInBounds (Array.mem_toList_iff.1 hu) with hu | rfl
      · exact hs.roots u (s.bucket_subset_rootValues (Array.mem_toList_iff.2 hu))
      · exact hv
    · exact hs.roots u (mem_rootValues_iff_bucket.2 (.inr hu))
  · show 0 < (s.symbols.buckets.setIfInBounds _ v).size
    rw [Array.size_setIfInBounds]
    exact hs.slots

/-- The name leads to the symbol in front. -/
theorem State.findSymbol?_linked (hs : s.InOrder) (hv : v.isSymbol = true)
    (hrec : s.heap.symbol? v = some (.fresh nameValue (hashName (Utf8.encode name))
      (s.chainOf name)))
    (hname : s.heap.text? nameValue = some name) :
    (s.linked name v).findSymbol? name = some v := by
  refine findSymbol?_eq_some_iff.2 ⟨0, ?_⟩
  rw [chainOf_linked hs, if_pos rfl]
  exact .here hv hrec ⟨rfl, hname⟩

/-- Other names lead where they led. -/
theorem State.findSymbol?_linked_of_ne (hs : s.InOrder) (hv : v.isSymbol = true)
    (hrec : s.heap.symbol? v = some (.fresh nameValue (hashName (Utf8.encode name))
      (s.chainOf name)))
    (hname : s.heap.text? nameValue = some name) {name' : String} {u : Value} (hne : name' ≠ name)
    (hu : s.findSymbol? name' = some u) : (s.linked name v).findSymbol? name' = some u := by
  obtain ⟨k, hf⟩ := findSymbol?_eq_some_iff.1 hu
  refine findSymbol?_eq_some_iff.2 ?_
  rw [chainOf_linked hs]
  split
  · rename_i hslot
    refine ⟨k + 1, .next hv hrec (fun ha => hne ?_) ?_⟩
    · exact Option.some.inj (ha.2.symm.trans hname)
    · have hchain : s.chainOf name = s.chainOf name' := by simp only [chainOf, hslot]
      show s.heap.Finds _ name' k (s.chainOf name) u
      rw [hchain]
      exact hf
  · exact ⟨k, hf⟩

/-- A symbol is put in front of its chain, under a name that had none. -/
theorem State.Grows.linked (h : s.Grows [] s₁) (hnone : s.findSymbol? name = none)
    (hv : v.isSymbol = true)
    (hrec : s₁.heap.symbol? v = some (.fresh nameValue (hashName (Utf8.encode name))
      (s₁.chainOf name)))
    (hname : s₁.heap.text? nameValue = some name) : s.Onward [] (s₁.linked name v) where
  order := h.order.linked <| by
    obtain ⟨i, rfl, -, hc⟩ := Heap.symbol_of_symbol? hv hrec
    rintro _ _ ⟨⟩ -
    rw [hc]
    exact ⟨rfl, rfl⟩
  kept := h.kept
  heads u hu := by
    rw [← h.symbols] at hu
    have hlinked : u ∈ (s₁.linked name v).symbols.buckets.toList ∨ u = s₁.chainOf name :=
      mem_buckets_linked h.order hu
    rcases hlinked with hu | hu
    · exact Heap.reaches_of_mem hu
    · obtain ⟨i, rfl, hi, hc⟩ := Heap.symbol_of_symbol? hv hrec
      refine Heap.reaches_of_references (u := .ref .symbol i) (i := i)
        (Heap.reaches_of_mem (mem_linked h.order)) (Value.cell?_eq_some_iff.2 ⟨_, rfl, hi⟩) ?_
      show _ ∈ s₁.heap.references (s₁.heap.cell i)
      simp [Heap.references, hc, Cell.block?, Cell.values, Symbol.fresh, hu]
  interned name' u hu := by
    have hne : name' ≠ name := by
      rintro rfl
      rw [hnone] at hu
      cases hu
    exact findSymbol?_linked_of_ne h.order hv hrec hname hne (h.interned name' u hu)
  machine := h.machine
  roots := h.roots
  known := h.known
  config := h.config

end Linked

/-- A new symbol, in no chain yet, and a cell that the roots did not lead to. -/
theorem gives_newSymbol (hs : s.InOrder) (name : String) (hash : UInt32) {next : Value}
    (hnext : next.cell? = none ∨ next ∈ s.rootValues) :
    Gives E (newSymbol name hash next) s fun v s' => s.Grows [] s' ∧ v.isSymbol = true ∧
      (∃ nameValue, s'.heap.symbol? v = some (.fresh nameValue hash next) ∧
        s'.heap.text? nameValue = some name) ∧
      ∀ i, v.cell? = some i → ¬s.heap.Reachable s.rootValues i := by
  refine Gives.bind (gives_makeString hs name) ?_
  rintro nameValue s₁ ⟨hon₁, htext⟩
  have hheld : s₁.heap.Holds nameValue := by
    obtain ⟨i, b, rfl, hc, -⟩ := Heap.string_of_text? htext
    rintro _ _ ⟨⟩ -
    rw [hc]
    exact ⟨rfl, rfl⟩
  have hnext₁ : s₁.heap.Holds next := by
    rcases hnext with hnext | hnext
    · exact Heap.holds_of_cell?_eq_none hnext
    · exact hon₁.holds (hs.roots next hnext) (List.mem_append_left _ hnext)
  have hc : s₁.heap.Placeable (.symbol (.fresh nameValue hash next)) := by
    refine Heap.placeable_of_values rfl rfl ?_
    simp [Cell.values, Symbol.fresh, hheld, hnext₁]
  refine (gives_allocCell hon₁.order hc).with_ok.mono ?_
  rintro v s₂ ⟨⟨hon₂, hplaced⟩, hok⟩
  have hsupplied := (hon₁.order.wellFormed hc.sound).supplied hc.inUse hok
  obtain ⟨i, hi, rfl, hcell⟩ := hplaced.exists_index
  refine ⟨hon₁.trans (hon₂.mono (List.nil_subset _)), rfl, ⟨nameValue, ?_, ?_⟩, ?_⟩
  · simp [Heap.symbol?, Value.cell?, hi, hcell]
  · rw [hon₂.kept.text? hon₁.order.isFree_zero hon₂.order.isFree_zero, htext]
    refine Heap.reaches_of_mem (List.mem_append_right _ ?_)
    simp [Heap.references, Cell.block?, Cell.values, Symbol.fresh]
  · intro j hj hreach
    obtain ⟨k, hk, -, -, hnot, -⟩ := hsupplied.1.fresh
    obtain rfl : j = k := by
      rw [hk] at hj
      obtain ⟨tag, htag, -⟩ := Value.cell?_eq_some_iff.1 hj
      cases htag
      rfl
    exact hnot ((hon₁.reachable hreach).mono (List.subset_append_right _ _))

/-- What interning a name does: the symbol is there, or a new one is put in front of its chain,
in a cell that the roots did not lead to. -/
inductive State.Interned (s : State) (name : String) (v : Value) : State → Prop
  | found : s.findSymbol? name = some v → Interned s name v s
  | linked {s₁ : State} {nameValue : Value} : s.findSymbol? name = none → s.Grows [] s₁ →
      v.isSymbol = true →
      s₁.heap.symbol? v = some (.fresh nameValue (hashName (Utf8.encode name))
        (s₁.chainOf name)) →
      s₁.heap.text? nameValue = some name →
      (∀ i, v.cell? = some i → ¬s.heap.Reachable s.rootValues i) →
      Interned s name v (s₁.linked name v)

theorem gives_interned (hs : s.InOrder) (name : String) :
    Gives E (intern name) s fun v s' => s.Interned name v s' := by
  refine Gives.bind (Q := fun v? s' => v? = s.findSymbol? name ∧ s = s') (.gets ⟨rfl, rfl⟩) ?_
  rintro v? _ ⟨hfind, rfl⟩
  cases v? with
  | some v => exact .pure (.found hfind.symm)
  | none =>
      refine Gives.bind (Q := fun slot s' =>
        slot = s.symbols.slot (hashName (Utf8.encode name)) ∧ s = s') (.gets ⟨rfl, rfl⟩) ?_
      rintro _ _ ⟨rfl, rfl⟩
      refine Gives.bind (Q := fun next s' => next = s.chainOf name ∧ s = s') (.gets ⟨rfl, rfl⟩) ?_
      rintro _ _ ⟨rfl, rfl⟩
      have hhead : s.chainOf name ∈ s.rootValues :=
        State.bucket_subset_rootValues _ (State.head_mem_of_slots hs _)
      refine Gives.bind (gives_newSymbol hs name _ (.inr hhead)) ?_
      rintro v s₁ ⟨hon, hv, ⟨nameValue, hrec, hname⟩, hfresh⟩
      have hchain : s₁.chainOf name = s.chainOf name := by simp only [State.chainOf, hon.symbols]
      rw [← hchain] at hrec
      refine Gives.bind (Q := fun _ s' => s₁.linked name v = s') (.modify ?_) ?_
      · simp only [State.linked, hon.symbols]
      · rintro _ _ rfl
        exact .pure (.linked hfind.symm hon hv hrec hname hfresh)

theorem State.Interned.onward {name : String} {v : Value} {s' : State} (hs : s.InOrder)
    (h : s.Interned name v s') : s.Onward [] s' ∧ s'.findSymbol? name = some v := by
  cases h with
  | found hfind => exact ⟨.refl hs, hfind⟩
  | linked hnone hon hv hrec hname _ =>
      exact ⟨hon.linked hnone hv hrec hname, findSymbol?_linked hon.order hv hrec hname⟩

/-- The symbol that a name leads to from then on. -/
theorem gives_intern (hs : s.InOrder) (name : String) :
    Gives E (intern name) s fun v s' => s.Onward [] s' ∧ s'.findSymbol? name = some v :=
  (gives_interned hs name).mono fun _ _ h => h.onward hs

end Actions

end CellLisp
