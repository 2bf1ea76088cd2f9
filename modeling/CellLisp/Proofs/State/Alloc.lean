import CellLisp.Proofs.Heap.Spare
import CellLisp.Proofs.State.Leads

/-!
# `CellLisp.Proofs.State.Alloc` — allocation on typed states

An allocation may collect, and then finds a place or stops for good.  On a typed state it
leads to a typed state in which what the roots lead to is as before:

| | yields |
| :-- | :-- |
| `leads_collect` | nothing |
| `leads_allocCell` | a reference to a cell that was free, now with the contents given |
| `leads_allocBlock` | a blank block that no cell holds |
| `leads_allocPayload` | the same with contents |
-/

namespace CellLisp

/-! ## Typed again -/

section Typed

variable {plans plans' : Plans} {s s' : State}

theorem State.mem_rootValues_of_bucket {v : Value} (hv : v ∈ s.symbols.buckets.toList) :
    v ∈ s.rootValues := by
  simp only [rootValues, List.append_assoc]
  exact List.mem_append_left _ hv

theorem State.mem_rootValues_of_old {b : DynBinding} {v : Value} (hb : b ∈ s.machine.dyns.toList)
    (hv : b.old = some v) : v ∈ s.rootValues := by
  simp only [rootValues]
  refine List.mem_append_left _ (List.mem_append_right _ (List.mem_flatMap.2 ⟨b, hb, ?_⟩))
  simp [hv]

/-- What the system refers to is there as long as the cells and the chains that the roots lead
to are as before. -/
theorem KnownOk.of_kept (hk : KnownOk plans s) (hkept : Heap.Kept s.rootValues s.heap s'.heap)
    (hsymbols : s'.symbols = s.symbols) (hknown : s'.known = s.known)
    (hplan : ∀ i, s.known.halt.cell? = some i → plans' i = plans i) : KnownOk plans' s' := by
  refine ⟨?_, ?_, ?_⟩
  · rw [hknown]
    refine hk.halt.imp_right ?_
    rintro ⟨i, sites, hhalt, hi, hplans, hop⟩
    have hcell : s.known.halt.cell? = some i := by
      rw [hhalt]
      exact Value.cell?_eq_some_iff.2 ⟨_, rfl, hi⟩
    exact ⟨i, sites, hhalt, hi, (hplan i hcell).trans hplans, hop⟩
  · rw [hknown]
    refine hk.maker.imp_right ?_
    rintro ⟨i, n, hmaker, hi, hcell, hn⟩
    have hmem : s.known.makeClosure ∈ s.rootValues := by simp [State.rootValues]
    have hreach : s.heap.Reachable s.rootValues i :=
      .root hmem (by rw [hmaker]; exact Value.cell?_eq_some_iff.2 ⟨_, rfl, hi⟩)
    exact ⟨i, n, hmaker, hi, (hkept.cell i hreach).trans hcell, hn⟩
  · rw [hknown]
    intro v hv
    rcases hk.symbols v hv with hnil | ⟨hshape, u, hu, hl⟩
    · exact .inl hnil
    · exact .inr ⟨hshape, u, by rw [hsymbols]; exact hu,
        hl.of_kept hkept (State.mem_rootValues_of_bucket hu)⟩

/-- A state is typed whose heap keeps what the roots lead to, and whose cells are typed. -/
theorem State.TypedCells.of_kept (ht : s.TypedCells plans) (hkept : Heap.Kept s.rootValues s.heap s'.heap)
    (ho : s'.heap.Orderly) (hcells : ∀ i, CellTyped plans' s.known.makeClosure s'.heap i)
    (hproper : ∀ v ∈ s.rootValues, Proper plans v → Proper plans' v)
    (hplan : ∀ i, s.known.halt.cell? = some i → plans' i = plans i)
    (hsymbols : s'.symbols = s.symbols) (hmachine : s'.machine = s.machine)
    (hroots : s'.roots = s.roots) (hknown : s'.known = s.known) : s'.TypedCells plans' := by
  have hvalues : s'.rootValues = s.rootValues := by
    simp only [State.rootValues, hsymbols, hmachine, hroots, hknown]
  refine ⟨ho, ?_, ?_, ?_, ?_, ht.known.of_kept hkept hsymbols hknown hplan⟩
  · intro v hv
    rw [hvalues] at hv
    exact hkept.holds (ht.roots v hv) hv
  · intro i
    rw [hknown]
    exact hcells i
  · rw [hsymbols]
    intro v hv
    exact hproper v (State.mem_rootValues_of_bucket hv) (ht.buckets v hv)
  · rw [hmachine]
    intro b hb v hv
    exact hproper v (State.mem_rootValues_of_old hb hv) (ht.dyns b hb v hv)

/-- The same for a typed state, when no continuation came to be. -/
theorem State.Typed.of_cells (ht : s.Typed plans) (hcells : s'.TypedCells plans')
    (hmachine : s'.machine = s.machine)
    (hconts : ∀ i k, s'.heap.cell i = .cont k → k.exited = false → s.heap.cell i = .cont k) :
    s'.Typed plans' where
  toTypedCells := hcells
  conts i k hi hk := by
    rw [hmachine]
    exact ht.conts i k (hconts i k hi hk) hk

theorem Heap.Extends.isArray {h h' : Heap} {v : Value} {n : Nat} (he : Heap.Extends h h')
    (hw : h.WellFormed) (hv : h.Holds v) (ha : h.IsArray v n) : h'.IsArray v n :=
  ha.congr (fun _ hj => he.cell _ (hv.inUse hj))
    fun j b hj hb => he.record_eq ((hw.sound j (hv.inUse hj)).block b hb)

theorem Heap.Kept.isArray {h h' : Heap} {A : List Value} {v : Value} {n : Nat}
    (hk : Heap.Kept A h h') (hr : ∀ i, v.cell? = some i → h.Reachable A i) (ha : h.IsArray v n) :
    h'.IsArray v n :=
  ha.congr (fun j hj => hk.cell j (hr j hj)) fun j b hj hb => hk.record j b (hr j hj) hb

/-- Cells that were in use stay typed when all that was in use is as before. -/
theorem CellTyped.of_extends {h h' : Heap} {maker : Value} {i : Nat}
    (ht : CellTyped plans maker h i) (hw : h.WellFormed) (hi : (h.cell i).isFree = false)
    (he : Heap.Extends h h') : CellTyped plans maker h' i := by
  have hs := hw.sound i hi
  unfold CellTyped at *
  rw [he.cell i hi]
  refine ht.congr (fun b hb => he.record_eq (hs.block b hb)) ?_
  intro v hv n
  exact he.isArray hw (hs.values v hv)

end Typed

/-! ## Collecting -/

section Collect

variable {w : System} {pending : Option Cell}

theorem System.typed_collect (w : System) (hp : ∀ c, pending = some c → w.heap.Sound c) :
    (w.state.collect pending).Typed w.plans := by
  have hw := w.typed.heap.wf
  have hcol := Heap.collected_collect hw w.typed.roots hp
  have hkept := Heap.kept_collect hw w.typed.roots hp
  have hsub : w.state.rootValues ⊆ w.heap.startValues w.state.rootValues pending := by
    cases pending with
    | none => exact fun v hv => hv
    | some c => exact List.subset_append_right _ _
  have hconts : ∀ i k, (w.state.collect pending).heap.cell i = .cont k → k.exited = false →
      w.heap.cell i = .cont k := by
    intro i k hi _
    have hfree : ((w.state.collect pending).heap.cell i).isFree = false := by rw [hi]; rfl
    exact (hcol.cell i ((hcol.inUse i).1 hfree)).symm.trans hi
  refine w.typed.of_cells (w.typed.toTypedCells.of_kept (hkept.mono hsub)
    (w.typed.heap.collect w.typed.roots hp) ?_ (fun _ _ h => h) (fun _ _ => rfl) rfl rfl rfl rfl)
    rfl hconts
  intro i
  cases hf : ((w.state.collect pending).heap.cell i).isFree with
  | true => exact contentsOk_of_isFree hf
  | false =>
      have hr := (hcol.inUse i).1 hf
      have ht := w.typed.cells i
      unfold CellTyped at ht ⊢
      rw [show (w.state.collect pending).heap.cell i = w.heap.cell i from hcol.cell i hr]
      refine ht.congr (fun b hb => hkept.record i b hr hb) ?_
      intro v hv n
      exact hkept.isArray fun j hj => hr.step hv hj

/-- The system after a collection. -/
def System.collected (w : System) (hp : ∀ c, pending = some c → w.heap.Sound c) : System :=
  ⟨w.plans, w.state.collect pending, w.typed_collect hp⟩

/-- Values that are kept alive for a cell about to be placed. -/
def Heap.pendingValues (h : Heap) : Option Cell → List Value
  | some c => h.references c
  | none => []

theorem System.grown_collected (w : System) (hp : ∀ c, pending = some c → w.heap.Sound c) :
    Grown (w.heap.pendingValues pending) w (w.collected hp) := by
  have hw := w.typed.heap.wf
  have hcol := Heap.collected_collect hw w.typed.roots hp
  have hkept := Heap.kept_collect hw w.typed.roots hp
  have hsub : w.state.rootValues ++ w.heap.pendingValues pending ⊆
      w.heap.startValues w.state.rootValues pending := by
    intro v hv
    cases pending with
    | none => simpa [Heap.pendingValues, Heap.startValues] using hv
    | some c =>
        simp only [Heap.pendingValues, Heap.startValues, List.mem_append] at hv ⊢
        exact hv.symm
  exact ⟨fun _ _ => rfl, rfl, rfl, rfl, rfl, rfl, hkept.mono hsub, hcol.size, hcol.limit⟩

theorem leads_collect (w : System) : Leads (Grown []) collect w fun _ _ => True := by
  have hp : ∀ c, (none : Option Cell) = some c → w.heap.Sound c := by
    intro c hc
    cases hc
  exact Leads.change rfl (w.grown_collected hp) trivial

end Collect

/-! ## Cells -/

section Cell

variable {w : System} {c : Cell}

/-- Contents that may be placed in a typed state, in a cell with such a plan. -/
structure System.Storable (w : System) (plan? : Option Plan) (c : Cell) : Prop where
  placeable : w.heap.Placeable c
  typed : ContentsOk w.plans w.state.known.makeClosure w.heap plan? c

/-- No continuation that has yet to be left. -/
def Cell.isLeft : Cell → Bool
  | .cont k => k.exited
  | _ => true

variable {plan? : Option Plan}

theorem System.Storable.pending (hs : w.Storable plan? c) :
    ∀ c', some c = some c' → w.heap.Sound c' := by
  rintro _ ⟨⟩
  exact hs.placeable.sound

/-- They may still be placed after a collection that knew of them. -/
theorem System.Storable.collected (hs : w.Storable plan? c) :
    (w.collected hs.pending).Storable plan? c := by
  have hw := w.typed.heap.wf
  have hkept := Heap.kept_collect hw w.typed.roots hs.pending
  have hcol := Heap.collected_collect hw w.typed.roots hs.pending
  refine ⟨hs.placeable.collect hw w.typed.roots, ?_⟩
  refine hs.typed.congr (fun b hb => hcol.block b (.inr ⟨c, rfl, hb⟩)) ?_
  intro v hv n
  exact hkept.isArray fun j hj => .root (List.mem_append_left _ hv) hj

/-- Plans with one changed. -/
def Plans.with (plans : Plans) (i : Nat) (plan? : Option Plan) : Plans :=
  fun j => if j = i then plan? else plans j

theorem Plans.finished_with {plans : Plans} {i : Nat} {vs : List Value}
    (h : ∀ v ∈ vs, v.cell? ≠ some i) : Finished plans (plans.with i plan?) vs := by
  refine fun v hv => .of_eq fun j hj => if_neg ?_
  rintro rfl
  exact h v hv hj

/-- Cells are typed again when one is taken for contents that may be placed. -/
theorem System.typedCells_take {i : Nat} {h' : Heap} (hs : w.Storable plan? c)
    (ht : Heap.Taken w.heap c i h') :
    State.TypedCells (w.plans.with i plan?) { w.state with heap := h' } := by
  have hw := w.typed.heap.wf
  have he := ht.extends
  have hnot : ∀ v, w.heap.Holds v → v.cell? ≠ some i := by
    intro v hv hi
    have := hv.inUse hi
    rw [ht.wasFree] at this
    cases this
  have hfinished : ∀ vs, (∀ v ∈ vs, w.heap.Holds v) →
      Finished w.plans (w.plans.with i plan?) vs :=
    fun vs hvs => Plans.finished_with fun v hv => hnot v (hvs v hv)
  refine w.typed.toTypedCells.of_kept (he.kept hw w.typed.roots) (ht.orderly w.typed.heap hs.placeable) ?_ ?_ ?_
    rfl rfl rfl rfl
  · intro j
    by_cases hj : j = i
    · subst hj
      have hcontents := hs.typed.congr_plans (hfinished _ hs.placeable.sound.values)
      unfold CellTyped
      rw [ht.cell_self, Plans.with, if_pos rfl]
      refine hcontents.congr (fun b hb => he.record_eq (hs.placeable.sound.block b hb)) ?_
      intro v hv n
      exact he.isArray hw (hs.placeable.sound.values v hv)
    · cases hf : (w.heap.cell j).isFree with
      | true =>
          refine contentsOk_of_isFree ?_
          rw [ht.cell j, if_neg hj]
          exact hf
      | false =>
          have htyped := (w.typed.cells j).of_extends hw hf he
          have hsound := he.sound (hw.sound j hf)
          unfold CellTyped at htyped ⊢
          rw [Plans.with, if_neg hj]
          rw [he.cell j hf] at htyped ⊢
          refine htyped.congr_plans (hfinished _ ?_)
          intro v hv
          rw [he.references (hw.sound j hf)] at hv
          exact (hw.sound j hf).values v hv
  · intro v hv hp
    exact hp.congr (hfinished [v] (by simpa using w.typed.roots v hv) v (by simp))
  · intro k hk
    have hne : k ≠ i := by
      rintro rfl
      have hmem : w.state.known.halt ∈ w.state.rootValues := by simp [State.rootValues]
      exact hnot _ (w.typed.roots _ hmem) hk
    rw [Plans.with, if_neg hne]

/-- A state is typed again when a cell is taken for contents that may be placed. -/
theorem System.typed_take {i : Nat} {h' : Heap} (hs : w.Storable plan? c)
    (ht : Heap.Taken w.heap c i h') (hc : c.isLeft = true) :
    State.Typed (w.plans.with i plan?) { w.state with heap := h' } := by
  refine w.typed.of_cells (w.typedCells_take hs ht) rfl fun j k hj hk => ?_
  by_cases hji : j = i
  · subst hji
    obtain rfl : c = .cont k := ht.cell_self.symm.trans hj
    rw [Cell.isLeft, hk] at hc
    cases hc
  · rw [← hj]
    exact (ht.cell j ▸ if_neg hji : h'.cell j = w.heap.cell j).symm

/-- The system after a cell was taken. -/
def System.taken {i : Nat} {h' : Heap} (hs : w.Storable plan? c)
    (ht : Heap.Taken w.heap c i h') (hc : c.isLeft = true) : System :=
  ⟨w.plans.with i plan?, { w.state with heap := h' }, w.typed_take hs ht hc⟩

theorem System.grown_taken {i : Nat} {h' : Heap} (hs : w.Storable plan? c)
    (ht : Heap.Taken w.heap c i h') (hc : c.isLeft = true) :
    Grown (w.heap.references c) w (w.taken hs ht hc) := by
  have hw := w.typed.heap.wf
  have hroots : ∀ v ∈ w.state.rootValues ++ w.heap.references c, w.heap.Holds v := by
    intro v hv
    rcases List.mem_append.1 hv with hv | hv
    · exact w.typed.roots v hv
    · exact hs.placeable.sound.values v hv
  refine ⟨fun j hj => ?_, rfl, rfl, rfl, rfl, rfl, ht.extends.kept hw hroots, ht.size, ?_⟩
  · have hne : j ≠ i := by
      rintro rfl
      have := hj.inUse hw hroots
      rw [ht.wasFree] at this
      cases this
    exact if_neg hne
  · exact congrArg Arena.limit ht.arena

theorem leads_exhausted {α : Type} {R : System → System → Prop} {Q : α → System → Prop}
    (w : System) (what : String) (cause : Fatal) :
    Leads R (exhausted what cause : Act α) w Q := trivial

/-- A free cell is taken. -/
theorem leads_take (hs : w.Storable plan? c) (hc : c.isLeft = true) :
    Leads (Grown (w.heap.references c))
      (do
        match ← modifyGet fun s =>
            let (place, heap) := s.heap.take c
            (place, { s with heap }) with
        | some index => return .ref c.tag index
        | none => exhausted "cell pool" .cellsExhausted : Act Value)
      w fun v w' =>
        ∃ i, i ≠ 0 ∧ v = .ref c.tag i ∧ w'.heap.cell i = c ∧ w'.plans i = plan? ∧
          w'.heap.arena = w.heap.arena ∧ (w.heap.cell i).isFree = true := by
  unfold Leads
  rw [act_bind, act_modifyGet]
  cases htake : w.state.heap.take c with
  | mk place h' =>
      cases place with
      | none => trivial
      | some i =>
          have ht := Heap.taken_of_take w.typed.heap.wf.pool htake
          refine ⟨w.taken hs ht hc, rfl, w.grown_taken hs ht hc, i, ht.pos, rfl, ht.cell_self, ?_, ht.arena,
            ht.wasFree⟩
          exact if_pos rfl

/-- The contents of a cell were placed where nothing led to. -/
structure System.Placed (w : System) (plan? : Option Plan) (c : Cell) (v : Value) (w' : System) :
    Prop where
  exists_index : ∃ i, i ≠ 0 ∧ v = .ref c.tag i ∧ w'.heap.cell i = c ∧ w'.plans i = plan? ∧
    ¬w.heap.Reachable (w.state.rootValues ++ w.heap.references c) i
  record : ∀ b, c.block? = some b → w'.heap.arena.record? b.offset = w.heap.arena.record? b.offset

/-- A cell that nothing led to now has the contents. -/
theorem leads_allocCell (hs : w.Storable plan? c) (hc : c.isLeft = true) :
    Leads (Grown (w.heap.references c)) (allocCell c) w (w.Placed plan? c) := by
  have hroots : ∀ v ∈ w.state.rootValues ++ w.heap.references c, w.heap.Holds v := by
    intro v hv
    rcases List.mem_append.1 hv with hv | hv
    · exact w.typed.roots v hv
    · exact hs.placeable.sound.values v hv
  unfold allocCell
  refine Leads.bind (Leads.gets (Q := fun _ w' => w = w') rfl) ?_
  rintro b _ - rfl
  split
  · have hcol := w.grown_collected hs.pending
    have hrec : ∀ b, c.block? = some b →
        (w.collected hs.pending).heap.arena.record? b.offset = w.heap.arena.record? b.offset :=
      fun b hb =>
        (Heap.collected_collect w.typed.heap.wf w.typed.roots hs.pending).block b (.inr ⟨c, rfl, hb⟩)
    have hsame : (w.collected hs.pending).heap.references c = w.heap.references c :=
      Heap.references_eq_of_record? hrec
    refine Leads.bind (Leads.change rfl hcol (Q := fun _ w' => w.collected hs.pending = w') rfl) ?_
    rintro ⟨⟩ _ - rfl
    have htake := leads_take hs.collected hc
    rw [hsame] at htake
    refine htake.mono ?_
    rintro v w' - ⟨i, hi, hv, hcell, hplan, harena, hfree⟩
    refine ⟨⟨i, hi, hv, hcell, hplan, fun hr => ?_⟩, fun b hb => by rw [harena, hrec b hb]⟩
    have hin := (hcol.kept.reachable hr).inUse (w.collected hs.pending).typed.heap.wf fun v hv =>
      hcol.kept.holds (hroots v hv) hv
    rw [hfree] at hin
    cases hin
  · refine (leads_take hs hc).mono ?_
    rintro v w' - ⟨i, hi, hv, hcell, hplan, harena, hfree⟩
    refine ⟨⟨i, hi, hv, hcell, hplan, fun hr => ?_⟩, fun b hb => by rw [harena]⟩
    have hin := hr.inUse w.typed.heap.wf hroots
    rw [hfree] at hin
    cases hin

end Cell

/-! ## Blocks -/

section Block

variable {w : System} {h' : Heap} {b : Block} {bytes : Nat}

theorem System.typed_beside (hb : Heap.Beside w.heap h') (ho : h'.Orderly) :
    State.Typed w.plans { w.state with heap := h' } := by
  refine w.typed.of_cells (w.typed.toTypedCells.of_kept (hb.kept _) ho (fun i => ?_)
    (fun _ _ h => h) (fun _ _ => rfl) rfl rfl rfl rfl) rfl fun i k hi _ => (hb.cell i).symm.trans hi
  have ht := w.typed.cells i
  unfold CellTyped at ht ⊢
  rw [show State.heap { w.state with heap := h' } = h' from rfl, hb.cell i]
  refine ht.congr (fun b hi => hb.record i b hi) ?_
  intro v _ n ha
  exact ha.congr (fun j _ => hb.cell j) fun j b _ hj => hb.record j b hj

/-- The system with another heap beside it. -/
def System.beside (hb : Heap.Beside w.heap h') (ho : h'.Orderly) : System :=
  ⟨w.plans, { w.state with heap := h' }, w.typed_beside hb ho⟩

theorem System.grown_beside (hb : Heap.Beside w.heap h') (ho : h'.Orderly) (A : List Value) :
    Grown A w (w.beside hb ho) :=
  ⟨fun _ _ => rfl, rfl, rfl, rfl, rfl, rfl, hb.kept _, hb.size, hb.limit⟩

/-- A block is claimed if one fits. -/
theorem leads_claimBlock (w : System) (bytes : Nat) :
    Leads (Grown []) (claimBlock bytes) w fun b? w' =>
      ∀ b, b? = some b → w'.heap.Spare b bytes .blank := by
  have ho := w.typed.heap
  unfold Leads claimBlock
  rw [act_modifyGet]
  cases hclaim : w.state.heap.arena.claim bytes with
  | mk b? a =>
      have heq : w.state.heap.claim bytes = (b?, { w.state.heap with arena := a }) := by
        simp only [Heap.claim, hclaim]
      cases b? with
      | none =>
          have ha : a = w.state.heap.arena := Arena.eq_of_claim_none hclaim
          subst ha
          simp only [heq]
          refine ⟨w, rfl, Follows.refl w, ?_⟩
          intro b hb
          cases hb
      | some b =>
          have hc := Arena.claimed_of_claim ho.wf.tiled ho.wf.top_le hclaim
          have hb := Heap.beside_claim ho.wf hc
          simp only [heq]
          refine ⟨w.beside hb (ho.claim hc), rfl, w.grown_beside hb _ [], ?_⟩
          intro b' hb'
          cases hb'
          exact ho.spare_claim hc

/-- A blank block that no cell holds. -/
theorem leads_allocBlock (w : System) (bytes : Nat) :
    Leads (Grown []) (allocBlock bytes) w fun b w' => w'.heap.Spare b bytes .blank := by
  unfold allocBlock
  refine Leads.bind (leads_claimBlock w bytes) ?_
  intro b? w₁ _ hb
  cases b? with
  | some b => exact Leads.pure (hb b rfl)
  | none =>
      refine Leads.bind (leads_collect w₁) ?_
      intro _ w₂ _ _
      refine Leads.bind (leads_claimBlock w₂ bytes) ?_
      intro b? w₃ _ hb
      cases b? with
      | some b => exact Leads.pure (hb b rfl)
      | none => exact leads_exhausted w₃ _ _

/-- A block that no cell holds gets other contents. -/
theorem leads_putPayload {p q : Payload} (hb : w.heap.Spare b bytes p) (hsize : q.size ≤ bytes)
    (hrefs : ∀ v ∈ q.references, w.heap.Holds v) :
    Leads (Grown []) (modifyHeap (·.putPayload b q)) w fun _ w' =>
      w'.heap.Spare b bytes q ∧ Heap.Beside w.heap w'.heap ∧ w'.plans = w.plans := by
  have hbeside := hb.beside_putPayload q
  exact Leads.change rfl (w.grown_beside hbeside (w.typed.heap.putPayload hb hsize hrefs) [])
    ⟨hb.putPayload q, hbeside, rfl⟩

/-- A block with contents that no cell holds. -/
theorem leads_allocPayload {p : Payload} (hsize : p.size ≤ bytes)
    (hrefs : ∀ v ∈ p.references, v.cell? = none ∨ v ∈ w.state.rootValues) :
    Leads (Grown []) (allocPayload bytes p) w fun b w' => w'.heap.Spare b bytes p := by
  unfold allocPayload
  refine Leads.bind (leads_allocBlock w bytes) ?_
  intro b w₁ hg hb
  have hholds : ∀ v ∈ p.references, w₁.heap.Holds v := by
    intro v hv
    rcases hrefs v hv with hnone | hmem
    · exact Heap.holds_of_cell?_eq_none hnone
    · exact hg.kept.holds (w.typed.roots v hmem) (List.mem_append_left _ hmem)
  refine Leads.bind (leads_putPayload hb hsize hholds) ?_
  rintro _ w₂ - ⟨hb, -, -⟩
  exact Leads.pure hb

end Block

/-! ## Values -/

section Values

variable {w : System} {c : Cell} {b : Block} {bytes : Nat}

/-- Contents of which no more is asked than that they refer to good values. -/
def Cell.isPlain : Cell → Bool
  | .free _ | .closure _ _ | .bytecode _ | .cont _ => false
  | _ => true

theorem contentsOk_of_isPlain {plans : Plans} {maker : Value} {h : Heap} {plan? : Option Plan}
    (hc : c.isPlain = true) (hrefs : ∀ v ∈ h.references c, Proper plans v) :
    ContentsOk plans maker h plan? c := by
  cases c with
  | free | closure | bytecode | cont => cases hc
  | pair head tail =>
      exact ⟨hrefs _ (by simp [Heap.references, Cell.block?, Cell.values]),
        .inl (hrefs _ (by simp [Heap.references, Cell.block?, Cell.values]))⟩
  | symbol | native | array | string | stringStream | fileStream => exact hrefs

theorem Cell.isLeft_of_isPlain (hc : c.isPlain = true) : c.isLeft = true := by
  cases c <;> simp_all [Cell.isPlain, Cell.isLeft]

theorem Cell.isFree_of_isPlain (hc : c.isPlain = true) : c.isFree = false := by
  cases c <;> simp_all [Cell.isPlain, Cell.isFree]

/-- Plain contents without a block may be placed if what they refer to is good. -/
theorem System.storable_of_values (hc : c.isPlain = true) (hblock : c.block? = none)
    (hvalues : ∀ v ∈ c.values, w.Good v) : w.Storable none c := by
  have hrefs : w.heap.references c = c.values := by rw [Heap.references, hblock]
  refine ⟨Heap.placeable_of_values (c.isFree_of_isPlain hc) hblock fun v hv => (hvalues v hv).holds,
    contentsOk_of_isPlain hc ?_⟩
  rw [hrefs]
  exact fun v hv => (hvalues v hv).proper

/-- Plain contents with a spare block may be placed if what they and the block refer to is
good. -/
theorem System.storable_of_spare {p : Payload} (hc : c.isPlain = true)
    (hblock : c.block? = some b) (hspare : w.heap.Spare b bytes p) (hsize : p.size ≤ bytes)
    (hvalues : ∀ v ∈ p.references ++ c.values, w.Good v) : w.Storable none c := by
  refine ⟨hspare.placeable hblock hsize fun v hv => (hvalues v hv).holds,
    contentsOk_of_isPlain hc ?_⟩
  rw [hspare.references hblock]
  exact fun v hv => (hvalues v hv).proper

/-- A reference to a cell in use without a plan, under its tag, is good unless it is to
compiled code. -/
theorem System.good_ref {i : Nat} (hcell : w.heap.cell i = c) (hfree : c.isFree = false)
    (htag : c.tag ≠ .bytecode) (hplan : w.plans i = none) : w.Good (.ref c.tag i) := by
  refine ⟨?_, ?_, ?_⟩
  · rintro _ _ ⟨⟩ -
    rw [hcell]
    exact ⟨hfree, rfl⟩
  · rintro j hj
    injection hj with hj
    exact absurd hj htag
  · rintro j hj
    obtain rfl := (Value.ref.inj hj).2
    simp [hplan]

theorem Cell.tag_of_isPlain (hc : c.isPlain = true) : c.tag ≠ .bytecode := by
  cases c <;> simp_all [Cell.isPlain, Cell.tag]

/-- Plain contents are placed in a cell that nothing led to. -/
theorem leads_allocPlain (hs : w.Storable none c) (hc : c.isPlain = true) :
    Leads (Grown (w.heap.references c)) (allocCell c) w fun v w' =>
      w'.Good v ∧ w.Placed none c v w' := by
  refine (leads_allocCell hs (c.isLeft_of_isPlain hc)).mono ?_
  intro v w' _ hplaced
  obtain ⟨i, -, rfl, hcell, hplan, -⟩ := hplaced.exists_index
  exact ⟨System.good_ref hcell (c.isFree_of_isPlain hc) (c.tag_of_isPlain hc) hplan, hplaced⟩

/-- A new pair. -/
theorem leads_cons {head tail : Value} (hhead : w.Good head) (htail : w.Good tail) :
    Leads (Grown [head, tail]) (cons head tail) w fun v w' =>
      w'.Good v ∧ w'.heap.pair? v = some (head, tail) := by
  have hs : w.Storable none (.pair head tail) := by
    refine System.storable_of_values rfl rfl ?_
    intro v hv
    simp only [Cell.values, List.mem_cons, List.not_mem_nil, or_false] at hv
    rcases hv with rfl | rfl
    · exact hhead
    · exact htail
  refine (leads_allocPlain hs rfl).mono ?_
  rintro v w' - ⟨hgood, hplaced⟩
  obtain ⟨i, -, rfl, hcell, -⟩ := hplaced.exists_index
  exact ⟨hgood, by simp [Heap.pair?, Cell.tag, hcell]⟩

/-- A new string. -/
theorem leads_makeString (w : System) (text : String) :
    Leads (Grown []) (makeString text) w fun v w' => w'.Good v := by
  unfold makeString
  refine Leads.bind (leads_allocPayload (p := .text text) (Nat.le_refl _) (by simp [Payload.references])) ?_
  intro b w₁ _ hb
  have hs : w₁.Storable none (.string b) :=
    System.storable_of_spare rfl rfl hb (Nat.le_refl _) (by simp [Payload.references, Cell.values])
  refine ((leads_allocPlain hs rfl).weaken fun w' hg => hg.mono (List.nil_subset _)).mono ?_
  intro v w' _ hv
  exact hv.1

/-- A new array of values that are kept. -/
theorem leads_makeArray {items : Array Value} (hitems : ∀ v ∈ items, w.Good v)
    (hkept : ∀ v ∈ items, v ∈ w.state.rootValues) :
    Leads (Grown []) (makeArray items) w fun v w' =>
      w'.Good v ∧ w'.heap.IsArray v items.size := by
  unfold makeArray
  refine Leads.bind (leads_allocPayload (p := .values items) (Nat.le_refl _) ?_) ?_
  · intro v hv
    exact .inr (hkept v (by simpa [Payload.references] using hv))
  · intro b w₁ hg hb
    have hs : w₁.Storable none (.array b) := by
      refine System.storable_of_spare rfl rfl hb (Nat.le_refl _) ?_
      intro v hv
      have hmem : v ∈ items := by simpa [Payload.references, Cell.values] using hv
      exact hg.good (hitems v hmem) (List.mem_append_left _ (hkept v hmem))
    refine ((leads_allocPlain hs rfl).weaken fun w' hg => hg.mono (List.nil_subset _)).mono ?_
    rintro v w' - ⟨hgood, hplaced⟩
    obtain ⟨i, hi, rfl, hcell, -⟩ := hplaced.exists_index
    refine ⟨hgood, i, b, rfl, hi, hcell, ?_⟩
    rw [Heap.payload_eq_of_record? (hplaced.record b rfl), hb.payload]
    rfl

end Values

end CellLisp
