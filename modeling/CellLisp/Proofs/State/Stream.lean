import CellLisp.Primitive.Apply
import CellLisp.Proofs.State.Buffer
import CellLisp.Proofs.State.Held

/-!
# `CellLisp.Proofs.State.Stream` — arrays, streams and pairs in place

Changes in place on typed states: an element of an array, the head or tail of a pair, the
buffer and the position of a stream.

| | asks for |
| :-- | :-- |
| `leads_setItem` | an array, a good element |
| `leads_setPair` | a pair, good contents, and that pairs may change |
| `leads_writeBytes`, `leads_readByte`, `leads_closeStream` | a stream that lasts |
-/

namespace CellLisp

section Arrays

variable {m : Mode} {d : Nat} {w : System} {i : Nat} {b : Block}

/-- A value is an array. -/
theorem Heap.exists_of_array? {h : Heap} {v : Value} {b : Block} (ha : h.array? v = some b) :
    ∃ i, v = .ref .object i ∧ h.cell i = .array b := by
  unfold Heap.array? at ha
  split at ha
  · rename_i i hi
    split at ha
    · rename_i data hc
      obtain rfl := Option.some.inj ha
      refine ⟨i, ?_, hc⟩
      unfold Value.object? at hi
      split at hi
      · rw [Option.some.inj hi]
      · cases hi
    · cases ha
  · cases ha

/-- An element of an array is replaced. -/
theorem leads_setItem {v : Value} {k : Nat} (hi : w.heap.cell i = .array b) (hv : w.Good v) :
    Leads (Stable m d) (modifyHeap (·.modifyPayload b (Builtin.setItem k v))) w fun _ w' =>
      w'.plans = w.plans ∧
        w'.state = { w.state with heap := w.heap.modifyPayload b (Builtin.setItem k v) } := by
  have hblock : (w.heap.cell i).block? = some b := by rw [hi]; rfl
  have hclaims := w.claims_of_block? hblock
  have hold : ∀ u ∈ (w.heap.payload b).references, w.Good u := by
    intro u hu
    refine w.good_of_reference (i := i) (by rw [hi]; rfl) (by rw [hi]; simp) ?_
    rw [hi]
    simpa [Heap.references, Cell.block?, Cell.values] using hu
  have hrefs : ∀ u ∈ (Builtin.setItem k v (w.heap.payload b)).references, w.Good u := by
    intro u hu
    unfold Builtin.setItem at hu
    split at hu
    · rename_i vs hvs
      rw [hvs] at hold
      simp only [Payload.references, Array.toList_setIfInBounds] at hu hold
      rcases List.mem_or_eq_of_mem_set hu with hu | rfl
      · exact hold u hu
      · exact hv
    · exact hold u hu
  have hsize : (Builtin.setItem k v (w.heap.payload b)).size = (w.heap.payload b).size := by
    unfold Builtin.setItem
    split
    · simp [Payload.size, *]
    · rfl
  have hitems : (Builtin.setItem k v (w.heap.payload b)).items.size
      = (w.heap.payload b).items.size := by
    unfold Builtin.setItem
    split
    · simp [Payload.items, *]
    · rfl
  have hr : w.Rewrites b (Builtin.setItem k v) w.plans := by
    refine ⟨w.typed.heap.modifyPayload hclaims (fun u hu => (hrefs u hu).holds) ?_, hclaims,
      fun j hj => ?_, fun j _ => hitems, fun _ _ => rfl, fun _ _ h => h, fun _ => .rfl,
      fun _ _ => rfl⟩
    · rw [hsize]
      exact w.typed.heap.fits i b hblock
    · obtain rfl := w.typed.heap.owned i j b hblock hj
      rw [hi]
      refine contentsOk_of_isPlain rfl fun u hu => ?_
      rw [Heap.references_modifyPayload hclaims, if_pos (by rfl)] at hu
      exact (hrefs u (by simpa [Cell.values] using hu)).proper
  refine (leads_modifyPayload hr fun j _ hne => absurd rfl hne).mono ?_
  rintro _ _ - rfl
  exact ⟨rfl, rfl⟩

/-- A pair that is not hidden gets other contents. -/
theorem leads_setPair {a d' head tail : Value} (hm : m.pairs = false)
    (hi : w.heap.cell i = .pair a d') (hshown : w.plans i ≠ some .hidden) (hhead : w.Good head) (htail : w.Good tail) :
    Leads (Stable m d) (modifyHeap (·.set i (.pair head tail))) w fun _ w' =>
      w'.plans = w.plans ∧ w'.state = { w.state with heap := w.heap.set i (.pair head tail) } := by
  have hrefs : ∀ u ∈ w.heap.references (.pair head tail), w.Good u := by
    intro u hu
    simp only [Heap.references, Cell.block?, Cell.values, List.mem_cons, List.not_mem_nil,
      or_false] at hu
    rcases hu with rfl | rfl
    · exact hhead
    · exact htail
  have hr : w.Replaces i (.pair head tail) := by
    refine ⟨by rw [hi]; rfl, rfl, by rw [hi]; rfl,
      ⟨fun u hu => (hrefs u hu).holds, by rintro b ⟨⟩⟩,
      contentsOk_of_isPlain rfl fun u hu => (hrefs u hu).proper, by rintro b ⟨⟩, by rintro b ⟨⟩,
      ?_, .inl rfl⟩
    rw [hi]
    simp [Cell.lasting]
  refine (leads_set hr ?_ ?_).mono ?_
  · have hcell : (w.replaced hr).heap.cell i = .pair head tail := (hr.cell i).trans (if_pos rfl)
    unfold SameCell
    rw [hi]
    refine ⟨head, tail, hcell, .rfl, ?_⟩
    rintro (h | h)
    · rw [hm] at h
      cases h
    · exact absurd h hshown
  · rw [hi, hm]
    simp [Cell.lasting]
  · rintro _ _ - rfl
    exact ⟨rfl, rfl⟩

end Arrays

/-! ## Streams -/

section Streams

variable {m : Mode} {d : Nat} {w : System} {v : Value} {i : Nat}

/-- The stream that a value is, or an error. -/
theorem leads_streamOf (w : System) (v : Value) :
    Leads (Stable m d) (streamOf v) w fun c w' => w = w' ∧ w.heap.stream? v = some c := by
  refine Looks.leads (Q := fun c => w.heap.stream? v = some c) ?_
  unfold streamOf
  refine Looks.bind (Looks.gets (Q := fun c => c = w.heap.stream? v) rfl) ?_
  rintro _ rfl
  cases hs : w.heap.stream? v with
  | some c => exact Looks.pure rfl
  | none =>
      unfold typeError
      exact Looks.bind (Looks.gets (Q := fun _ => True) trivial) fun _ _ => Looks.fail _

/-- The record of a stream without a block changes. -/
theorem leads_setFile {e e' : Endpoint} (hi : w.heap.cell i = .fileStream e) :
    Leads (Stable m d) (modifyHeap (·.set i (.fileStream e'))) w fun _ _ => True := by
  have hr : w.Replaces i (.fileStream e') := by
    refine ⟨by rw [hi]; rfl, rfl, by rw [hi]; rfl, ⟨?_, nofun⟩, ?_, nofun, nofun, ?_, .inl rfl⟩
    · intro u hu
      simp [Heap.references, Cell.block?, Cell.values] at hu
    · intro u hu
      simp [Heap.references, Cell.block?, Cell.values] at hu
    · rw [hi]
      exact fun _ h => h
  refine (leads_set hr ?_ ?_).mono fun _ _ _ _ => trivial
  · have hcell : (w.replaced hr).heap.cell i = .fileStream e' := (hr.cell i).trans (if_pos rfl)
    unfold SameCell
    rw [hi]
    simp only [hcell]
    exact ⟨rfl, rfl⟩
  · rw [hi]
    exact fun _ h => h

/-- The record of a stream over a buffer changes; its block was its own before, or is spare. -/
theorem leads_setBuffer {r r' : StringStream} (hi : w.heap.cell i = .stringStream r)
    (hblock : r'.data = r.data ∨ w.heap.Unowned r'.data) (hclaims : w.heap.Claims r'.data)
    (hrefs : ∀ u ∈ (w.heap.payload r'.data).references, w.Good u)
    (hfits : (w.heap.payload r'.data).size ≤ w.heap.arena.capacity r'.data) :
    Leads (Stable m d) (modifyHeap (·.set i (.stringStream r'))) w fun _ _ => True := by
  have hgood : ∀ u ∈ w.heap.references (.stringStream r'), w.Good u := by
    intro u hu
    exact hrefs u (by simpa [Heap.references, Cell.block?, Cell.values] using hu)
  have hr : w.Replaces i (.stringStream r') := by
    refine ⟨by rw [hi]; rfl, rfl, by rw [hi]; rfl, ⟨?_, ?_⟩, ?_, ?_, ?_, ?_, .inl rfl⟩
    · exact fun u hu => (hgood u hu).holds
    · rintro _ ⟨⟩
      exact hclaims
    · exact fun u hu => (hgood u hu).proper
    · rintro _ ⟨⟩
      rcases hblock with e | hu
      · rw [hi, e]
        exact .inl rfl
      · exact .inr hu
    · rintro _ ⟨⟩
      exact hfits
    · rw [hi]
      exact fun _ h => h
  refine (leads_set hr ?_ ?_).mono fun _ _ _ _ => trivial
  · have hcell : (w.replaced hr).heap.cell i = .stringStream r' := (hr.cell i).trans (if_pos rfl)
    unfold SameCell
    rw [hi]
    simp only [hcell]
    exact ⟨rfl, rfl⟩
  · rw [hi]
    exact fun _ h => h

theorem System.good_of_buffer {r : StringStream} (hi : w.heap.cell i = .stringStream r) :
    ∀ u ∈ (w.heap.payload r.data).references, w.Good u := by
  intro u hu
  refine w.good_of_reference (i := i) (by rw [hi]; rfl) (by rw [hi]; simp) ?_
  rw [hi]
  simpa [Heap.references, Cell.block?, Cell.values] using hu

/-- The position and the state of a buffer change. -/
theorem leads_setBufferPlace {r r' : StringStream} (hi : w.heap.cell i = .stringStream r)
    (hdata : r'.data = r.data) :
    Leads (Stable m d) (modifyHeap (·.set i (.stringStream r'))) w fun _ _ => True := by
  have hblock : (w.heap.cell i).block? = some r.data := by rw [hi]; rfl
  refine leads_setBuffer hi (.inl hdata) ?_ ?_ ?_
  · rw [hdata]
    exact w.claims_of_block? hblock
  · rw [hdata]
    exact w.good_of_buffer hi
  · rw [hdata]
    exact w.typed.heap.fits i _ hblock

/-- A byte of a stream is read. -/
theorem leads_readByte (w : System) (v : Value) :
    Leads (Stable m d) (readByte v) w fun _ _ => True := by
  unfold readByte
  refine Leads.bind (leads_streamOf w v) ?_
  rintro c _ - ⟨rfl, hs⟩
  obtain ⟨-, hcell⟩ := Heap.cell_of_stream? hs
  cases c with
  | buffer i r =>
      simp only
      split
      · exact Leads.fail _
      · refine Leads.bind (Leads.gets (Q := fun _ w' => w = w') rfl) ?_
        rintro b? _ - rfl
        cases b? with
        | none => exact Leads.pure trivial
        | some b =>
            refine Leads.bind (leads_setBufferPlace hcell rfl) ?_
            intro _ _ _ _
            exact Leads.pure trivial
  | file i e =>
      simp only
      refine Leads.bind (leads_onWorld w _).stable ?_
      rintro x w' - ⟨-, -, hheap⟩
      cases x with
      | error cause => exact Leads.fail _
      | ok p =>
          have hcell' : w'.heap.cell i = .fileStream e := by rw [hheap]; exact hcell
          refine Leads.bind (leads_setFile hcell') ?_
          intro _ _ _ _
          exact Leads.pure trivial

theorem leads_readTails (w : System) (v : Value) (n : Nat) :
    Leads (Stable m d) (readTails v n) w fun _ _ => True := by
  induction n generalizing w with
  | zero => exact Leads.pure trivial
  | succ n ih =>
      refine Leads.bind (leads_readByte w v) ?_
      intro b? w₁ _ _
      cases b? with
      | none => exact Leads.fail _
      | some b =>
          refine Leads.bind (ih w₁) ?_
          intro _ _ _ _
          exact Leads.pure trivial

/-- A character of a stream is read. -/
theorem leads_readChar (w : System) (v : Value) :
    Leads (Stable m d) (readChar v) w fun _ _ => True := by
  unfold readChar
  refine Leads.bind (leads_readByte w v) ?_
  intro b? w₁ _ _
  cases b? with
  | none => exact Leads.pure trivial
  | some lead =>
      simp only
      cases charWidth? lead with
      | none => exact Leads.fail _
      | some width =>
          refine Leads.bind (leads_readTails w₁ v _) ?_
          intro tails w₂ _ _
          split
          · exact Leads.pure trivial
          · exact Leads.fail _

/-- A stream is closed. -/
theorem leads_closeStream (w : System) (v : Value) :
    Leads (Stable m d) (closeStream v) w fun _ _ => True := by
  unfold closeStream
  refine Leads.bind (leads_streamOf w v) ?_
  rintro c _ - ⟨rfl, hs⟩
  obtain ⟨-, hcell⟩ := Heap.cell_of_stream? hs
  cases c with
  | buffer i r => exact leads_setBufferPlace hcell rfl
  | file i e => exact leads_setFile hcell

/-- All that was written to a buffer. -/
theorem yields_streamString (w : System) (v : Value) : Yields m d (streamString v) w := by
  unfold streamString
  refine Leads.bind (leads_streamOf w v) ?_
  rintro c _ - ⟨rfl, -⟩
  cases c with
  | buffer i r =>
      refine Leads.bind (Leads.gets (Q := fun _ w' => w = w') rfl) ?_
      rintro bytes _ - rfl
      exact (leads_makeString w _).stable.mono fun _ _ _ h => h.2
  | file i e =>
      unfold typeError
      exact Leads.bind (Leads.gets (Q := fun _ _ => True) trivial) fun _ _ _ _ => Leads.fail _

/-- A new stream over an empty buffer. -/
theorem leads_makeStringStream (w : System) :
    Leads (Grown []) makeStringStream w fun v w' => w'.Good v := by
  unfold makeStringStream
  have hsize : (Payload.bytes #[]).size ≤ streamRoom := by simp [Payload.size, streamRoom]
  refine Leads.bind (leads_allocPayload hsize (by simp [Payload.references])) ?_
  intro b w₁ _ hb
  have hs : w₁.Storable none (.stringStream { data := b, pos := 0, isOpen := true }) :=
    System.storable_of_spare rfl rfl hb hsize (by simp [Payload.references, Cell.values])
  refine ((leads_allocPlain hs rfl).weaken fun w' hg => hg.mono (List.nil_subset _)).mono ?_
  exact fun v w' _ hv => hv.1

/-- A new stream at an endpoint. -/
theorem leads_makeFileStream (w : System) (e : Endpoint) :
    Leads (Grown []) (makeFileStream e) w fun v w' => w'.Good v := by
  have hs : w.Storable none (.fileStream e) :=
    System.storable_of_values rfl rfl (by simp [Cell.values])
  refine ((leads_allocPlain hs rfl).weaken fun w' hg => hg.mono (List.nil_subset _)).mono ?_
  exact fun v w' _ hv => hv.1

/-- A file is opened. -/
theorem yields_openFile (w : System) (path mode : String) : Yields m d (openFile path mode) w := by
  unfold openFile
  cases FileMode.ofString? mode with
  | none => exact Leads.fail _
  | some fm =>
      refine Leads.bind (leads_onWorld w _).stable ?_
      rintro x w₁ - -
      cases x with
      | error cause => exact Leads.fail _
      | ok endpoint =>
          refine Leads.bind (leads_logLine w₁ _ _).stable ?_
          rintro _ w₂ - -
          exact (leads_makeFileStream w₂ endpoint).stable.mono fun _ _ _ h => h.2

/-- Where a buffer is kept once there is room for more bytes. -/
structure System.Roomy (w : System) (i : Nat) (r : StringStream) (extra : Nat) (b : Block) :
    Prop where
  cell : w.heap.cell i = .stringStream r
  block : b = r.data ∨ w.heap.Unowned b
  claims : w.heap.Claims b
  good : ∀ u ∈ (w.heap.payload b).references, w.Good u
  size : (w.heap.payload b).octets.size + extra ≤ w.heap.arena.capacity b
  fits : (w.heap.payload b).size ≤ w.heap.arena.capacity b

/-- Growing leaves a buffer that the roots lead to as it is. -/
theorem Grown.buffer {w' : System} {r : StringStream} (hg : Grown [] w w')
    (hi : w.heap.cell i = .stringStream r) (hreach : w.heap.Reachable w.state.rootValues i) :
    w'.heap.Reachable w'.state.rootValues i ∧ w'.heap.cell i = .stringStream r ∧
      w'.heap.payload r.data = w.heap.payload r.data := by
  have hkept := hg.kept
  rw [List.append_nil] at hkept
  refine ⟨?_, (hkept.cell i hreach).trans hi, ?_⟩
  · rw [hg.rootValues]
    exact hkept.reachable hreach
  · exact Heap.payload_eq_of_record? (hkept.record i _ hreach (by rw [hi]; rfl))

/-- Room is made in the buffer of a stream that the roots lead to. -/
theorem leads_growBuffer {r : StringStream} (hi : w.heap.cell i = .stringStream r)
    (hreach : w.heap.Reachable w.state.rootValues i) (extra : Nat) :
    Leads (Grown []) (growBuffer r extra) w fun b w' => w'.Roomy i r extra b := by
  have hblock : (w.heap.cell i).block? = some r.data := by rw [hi]; rfl
  have hfits : (w.heap.payload r.data).size ≤ w.heap.arena.capacity r.data :=
    w.typed.heap.fits i _ hblock
  have hclaims := w.claims_of_block? hblock
  unfold growBuffer
  refine Leads.bind (Leads.gets (Q := fun n w' => w = w' ∧ n = (w.heap.payload r.data).octets.size)
    ⟨rfl, rfl⟩) ?_
  rintro _ _ - ⟨rfl, rfl⟩
  refine Leads.bind (Leads.gets (Q := fun n w' => w = w' ∧ n = w.heap.arena.capacity r.data)
    ⟨rfl, rfl⟩) ?_
  rintro _ _ - ⟨rfl, rfl⟩
  split
  · refine Leads.bind (leads_allocBlock w _) ?_
    intro b w₁ hg hb
    obtain ⟨hreach₁, hcell₁, hpay₁⟩ := hg.buffer hi hreach
    have hput := leads_putPayload (q := w₁.heap.payload r.data) hb ?_ ?_
    · refine Leads.bind (hput.congr rfl) ?_
      rintro _ w₂ hg₂ ⟨hb₂, -, -⟩
      obtain ⟨-, hcell₂, hpay₂⟩ := hg₂.buffer hcell₁ hreach₁
      have hroom := hb₂.room
      refine Leads.pure ⟨hcell₂, .inr hb₂.unowned, hb₂.claims, ?_, ?_, ?_⟩
      · rw [hb₂.payload, ← hpay₂]
        exact w₂.good_of_buffer hcell₂
      · rw [hb₂.payload, hpay₁]
        omega
      · rw [hb₂.payload, hpay₁]
        omega
    · rw [hpay₁]
      omega
    · exact fun u hu => (w₁.good_of_buffer hcell₁ u hu).holds
  · exact Leads.pure ⟨hi, .inl rfl, hclaims, w.good_of_buffer hi, by omega, hfits⟩

/-- Bytes are appended to what a buffer holds. -/
theorem leads_appendBuffer {r : StringStream} {b : Block} {bytes : Array UInt8}
    (hb : w.Roomy i r bytes.size b) :
    Leads (Stable m d) (modifyHeap fun h => (h.modifyPayload b (.appendBytes bytes)).set i
      (.stringStream { r with data := b })) w fun _ _ => True := by
  have hnorefs : ((w.heap.payload b).appendBytes bytes).references = [] := by
    unfold Payload.appendBytes
    split <;> rfl
  have hsize : ((w.heap.payload b).appendBytes bytes).size ≤ w.heap.arena.capacity b := by
    have hroom := hb.size
    unfold Payload.appendBytes
    split
    · rename_i old hold
      simp only [hold, Payload.octets] at hroom
      simpa [Payload.size] using hroom
    · simp only [Payload.size]
      omega
  have howner : ∀ j, (w.heap.cell j).block? = some b → w.heap.cell j = .stringStream r := by
    intro j hj
    rcases hb.block with rfl | hun
    · have hblock : (w.heap.cell i).block? = some r.data := by rw [hb.cell]; rfl
      obtain rfl := w.typed.heap.owned i j _ hblock hj
      exact hb.cell
    · exact absurd hj (hun j)
  have hr : w.Rewrites b (.appendBytes bytes) w.plans := by
    refine ⟨w.typed.heap.modifyPayload hb.claims (by simp [hnorefs]) hsize, hb.claims,
      fun j hj => ?_, fun j hj => ?_, fun _ _ => rfl, fun _ _ h => h, fun _ => .rfl,
      fun _ _ => rfl⟩
    · rw [howner j hj]
      refine contentsOk_of_isPlain rfl fun u hu => ?_
      rw [Heap.references_modifyPayload hb.claims] at hu
      split at hu
      · simp [hnorefs, Cell.values] at hu
      · refine (w.good_of_reference (i := j) (by rw [howner j hj]; rfl)
          (by rw [howner j hj]; simp) ?_).proper
        rw [howner j hj]
        exact hu
    · have := howner j (by rw [hj]; rfl)
      rw [hj] at this
      cases this
  have hfirst := leads_modifyPayload (m := m) (d := d) hr fun j _ hne => absurd rfl hne
  refine Leads.congr (Leads.bind
    (f := fun _ => modifyHeap (·.set i (.stringStream { r with data := b }))) hfirst ?_) rfl
  rintro _ _ - rfl
  have hpay : (w.rewritten hr).heap.payload b = (w.heap.payload b).appendBytes bytes := by
    show (w.heap.modifyPayload b _).payload b = _
    rw [Heap.payload_modifyPayload hb.claims, if_pos rfl]
  refine leads_setBuffer (r := r) hb.cell ?_ (Heap.claims_modifyPayload hb.claims) ?_ ?_
  · rcases hb.block with rfl | hun
    · exact .inl rfl
    · exact .inr hun
  · simp [hpay, hnorefs]
  · rw [hpay]
    show _ ≤ (w.heap.modifyPayload b _).arena.capacity b
    rw [Heap.capacity_modifyPayload]
    exact hsize

/-- Bytes are written to a stream that the roots lead to. -/
theorem leads_writeBytes {bytes : Array UInt8}
    (hv : ∀ i, v.cell? = some i → w.heap.Reachable w.state.rootValues i) :
    Leads (Stable m d) (writeBytes v bytes) w fun _ _ => True := by
  unfold writeBytes
  refine Leads.bind (leads_streamOf w v) ?_
  rintro c _ - ⟨rfl, hs⟩
  obtain ⟨hvalue, hcell⟩ := Heap.cell_of_stream? hs
  cases c with
  | buffer i r =>
      have hi : i ≠ 0 := by
        rintro rfl
        have hzero := w.typed.heap.wf.pool.zero
        rw [show w.heap.cell 0 = _ from hcell] at hzero
        cases hzero
      simp only
      split
      · exact Leads.fail _
      · refine Leads.bind (leads_growBuffer hcell (hv i ?_) bytes.size).stable ?_
        · exact Value.cell?_eq_some_iff.2 ⟨_, hvalue, hi⟩
        · rintro b w₁ - ⟨-, hb⟩
          exact leads_appendBuffer hb
  | file i e =>
      simp only
      refine Leads.bind (leads_onWorld w _).stable ?_
      rintro x w' - ⟨-, -, hheap⟩
      cases x with
      | error cause => exact Leads.fail _
      | ok e' =>
          have hcell' : w'.heap.cell i = .fileStream e := by rw [hheap]; exact hcell
          exact leads_setFile hcell'

end Streams

end CellLisp
