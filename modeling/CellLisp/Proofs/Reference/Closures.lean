import CellLisp.Proofs.Reference.Calls

/-!
# `CellLisp.Proofs.Reference.Closures` — making closures

The code of a procedure with copies fetches the values of the names that it copies, puts them in an
array, and calls the procedure that joins an array to compiled code.

| | |
| :-- | :-- |
| `Stage.Goes.fetches` | each copy is fetched and pushed, wherever it is |
| `Stage.Goes.makeArray` | the newest operands are in an array, somewhere new |
| `Stage.Goes.join` | an array and code are joined to a closure, somewhere new |
-/

namespace CellLisp

/-! ## Arrays -/

/-- Only the heap and the log are others. -/
def State.OnlyHeap (s s' : State) : Prop :=
  ∃ heap log, s' = { s with heap, world := { s.world with log } }

/-- An array of some values has been made. -/
structure State.Arrays (t : State) (A : List Value) (a : Value) (vs : List Value) (t' : State) :
    Prop where
  drifts : t.Drifts A t'
  new : t.Unseen A a
  array : (t'.heap.array? a).isSome
  items : ∀ i, t'.heap.item? a i = vs[i]?

/-- A closure has been made of code and an array. -/
structure State.Joins (t : State) (A : List Value) (code array f : Value) (t' : State) : Prop where
  drifts : t.Drifts A t'
  new : t.Unseen A f
  entry : t'.heap.entry? f = some (code, some array)

section Arrays

variable {s s' s'' : State} {w : System} {A B : List Value} {a v : Value} {vs : List Value}

theorem State.OnlyHeap.trans (h : s.OnlyHeap s') (h' : s'.OnlyHeap s'') : s.OnlyHeap s'' := by
  obtain ⟨heap, log, rfl⟩ := h
  obtain ⟨heap', log', rfl⟩ := h'
  exact ⟨heap', log', rfl⟩

theorem State.OnlyHeap.machine (h : s.OnlyHeap s') : s'.machine = s.machine := by
  obtain ⟨heap, log, rfl⟩ := h
  rfl

theorem gives_claimBlock_rest (bytes : Nat) (s : State) :
    Gives (fun _ => False) (claimBlock bytes) s fun _ s' => s.OnlyHeap s' := by
  unfold Gives claimBlock
  rw [act_modifyGet]
  exact ⟨_, s.world.log, rfl⟩

theorem gives_allocPayload_rest (bytes : Nat) (p : Payload) (s : State) :
    Gives (fun _ => False) (allocPayload bytes p) s fun _ s' => s.OnlyHeap s' := by
  have hput (b : Block) (s : State) : Gives (fun _ => False) (do
      modifyHeap (·.putPayload b p)
      return b : Act Block) s fun _ s' => s.OnlyHeap s' :=
    .bind (Q := fun _ s' => s.OnlyHeap s') (.modify ⟨_, s.world.log, rfl⟩) fun _ _ h => .pure h
  have hblock : Gives (fun _ => False) (allocBlock bytes) s fun _ s' => s.OnlyHeap s' := by
    refine .bind (gives_claimBlock_rest bytes s) fun block s₁ h₁ => ?_
    cases block with
    | some b => exact .pure h₁
    | none =>
        refine .bind (Q := fun _ s' => s.OnlyHeap s') (.modify (h₁.trans ⟨_, _, rfl⟩))
          fun _ s₂ h₂ => .bind (gives_claimBlock_rest bytes s₂) fun block s₃ h₃ => ?_
        cases block with
        | some b => exact .pure (h₂.trans h₃)
        | none => exact gives_exhausted (show Fatal.IsExhaustion .payloadExhausted from trivial)
  exact .bind hblock fun b s₁ h₁ => (hput b s₁).mono fun _ _ h => h₁.trans h

/-- The array is somewhere new; what the state leads to is kept. -/
structure State.Arrayed (s : State) (items : Array Value) (v : Value) (s' : State) : Prop where
  new : ∃ i b, v = .ref .object i ∧ i ≠ 0 ∧ ¬s.heap.Reachable s.rootValues i ∧
    s'.heap.cell i = .array b ∧ s'.heap.payload b = .values items
  kept : Heap.Kept s.rootValues s.heap s'.heap
  size : s'.heap.cells.size = s.heap.cells.size
  wf : s'.WellFormed none
  rest : s.OnlyHeap s'

theorem System.gives_makeArray {items : Array Value} (hitems : ∀ v ∈ items, v ∈ w.state.rootValues) :
    Gives (fun _ => False) (makeArray items) w.state fun v s' => w.state.Arrayed items v s' := by
  have hleads : Leads (Grown []) (allocPayload (8 * items.size) (.values items)) w fun b w' =>
      w'.heap.Spare b (8 * items.size) (.values items) :=
    leads_allocPayload (Nat.le_refl _) fun v hv => .inr (hitems v (by
      simpa [Payload.references] using hv))
  refine .bind (gives_allocPayload_rest _ _ _).with_ok ?_
  rintro b s₁ ⟨hrest, halloc⟩
  obtain ⟨w₁, rfl, hgrown, hspare⟩ := hleads.of_ok halloc
  have hkept : Heap.Kept w.state.rootValues w.heap w₁.heap :=
    hgrown.kept.mono (List.subset_append_left _ _)
  have hplaceable : w₁.heap.Placeable (.array b) := by
    refine hspare.placeable rfl (Nat.le_refl _) fun v hv => ?_
    have hmem : v ∈ items := by simpa [Payload.references, Cell.values] using hv
    exact hkept.holds (w.typed.roots v (hitems v hmem)) (hitems v hmem)
  refine (w₁.wellFormed.gives_allocCell hplaceable.sound rfl).mono ?_
  rintro v s' ⟨hsupplied, hw, hlast⟩
  obtain ⟨i, rfl, hi, -, hfresh, hcell⟩ := hsupplied.fresh
  have hroots : w₁.state.rootValues = w.state.rootValues := hgrown.rootValues
  refine ⟨⟨i, b, rfl, hi, fun hreach => hfresh ?_, hcell, ?_⟩, ?_, hsupplied.size.trans hgrown.size,
    hw, hrest.trans hlast⟩
  · exact (hkept.reachable hreach).mono fun v hv => List.mem_append_right _ (hroots ▸ hv)
  · exact (Heap.payload_eq_of_record? (hsupplied.record b rfl)).trans hspare.payload
  · exact hkept.trans (hroots ▸ hsupplied.kept_roots)

theorem Heap.item?_eq {h : Heap} {b : Block} {i : Nat} (hc : h.cell i = .array b) (k : Nat) :
    h.item? (.ref .object i) k = (h.payload b).items[k]? := by
  simp only [item?, array?, Value.object?, hc, Option.bind_some]

/-- What leads to an array leads to its elements. -/
theorem Heap.reaches_item {h : Heap} {i : Nat} (hz : (h.cell 0).isFree = true) (ha : h.Reaches A a)
    (hv : h.item? a i = some v) : h.Reaches A v := by
  obtain ⟨b, hb, hi⟩ := Option.bind_eq_some_iff.1 hv
  obtain ⟨j, rfl, hc⟩ := Heap.exists_of_array? hb
  have hj : j ≠ 0 := by
    rintro rfl
    rw [hc] at hz
    cases hz
  refine Heap.reaches_of_references ha (Value.cell?_eq_some_iff.2 ⟨_, rfl, hj⟩) ?_
  rw [Heap.references, hc]
  refine List.mem_append_left _ ?_
  cases hp : h.payload b with
  | values vs =>
      rw [hp] at hi
      exact Array.mem_toList_iff.2 (Array.mem_of_getElem? hi)
  | _ => rw [hp] at hi; simp [Payload.items] at hi

/-- What is kept of an array is kept of its elements. -/
theorem State.Drifts.item? (h : s.Drifts A s') (ha : s.heap.Reaches (s.anchors ++ A) a)
    (harray : (s.heap.array? a).isSome) (i : Nat) : s'.heap.item? a i = s.heap.item? a i := by
  obtain ⟨b, hb⟩ := Option.isSome_iff_exists.1 harray
  obtain ⟨j, rfl, hc⟩ := Heap.exists_of_array? hb
  have hj : j ≠ 0 := by
    rintro rfl
    have hzero := h.aside.zero
    rw [hc] at hzero
    cases hzero
  have hcell : (Value.ref .object j).cell? = some j := Value.cell?_eq_some_iff.2 ⟨_, rfl, hj⟩
  have hc' : s'.heap.cell j = .array b := by
    rcases h.aside.retains.cell_cases ha hcell with he | ⟨k, k', hk, -⟩
    · rw [he, hc]
    · rw [hc] at hk
      cases hk
  rw [Heap.item?_eq hc, Heap.item?_eq hc',
    Heap.payload_eq_of_record? (h.aside.retains.record j b (ha j hcell) (by rw [hc]; rfl))]

theorem State.Drifts.of_reaches (h : s.Drifts B s')
    (hA : ∀ v ∈ A, s.heap.Reaches (s.anchors ++ B) v) : s.Drifts A s' :=
  ⟨h.aside.of_reaches hA, h.store⟩

theorem State.Drifts.mono (h : s.Drifts B s') (hA : A ⊆ B) : s.Drifts A s' := ⟨h.aside.mono hA, h.store⟩

theorem State.Drifts.trans (h : s.Drifts A s') (h' : s'.Drifts A s'') : s.Drifts A s'' :=
  ⟨h.aside.trans h'.aside, h'.store⟩

/-- What nothing leads to later nothing has led to before. -/
theorem State.Drifts.unseen (h : s.Drifts A s') (hv : s'.Unseen A v) : s.Unseen A v := by
  obtain ⟨i, hi, hfresh⟩ := hv
  refine ⟨i, hi, fun hreach => hfresh ?_⟩
  rw [h.aside.anchors]
  exact h.aside.retains.reachable hreach

theorem State.Unseen.of_reaches (h : s.Unseen B v) (hA : ∀ v ∈ A, s.heap.Reaches (s.anchors ++ B) v) :
    s.Unseen A v := by
  obtain ⟨i, hi, hfresh⟩ := h
  refine ⟨i, hi, fun hreach => hfresh (hreach.of_roots fun u hu j hj => ?_)⟩
  rcases List.mem_append.1 hu with hu | hu
  · exact Heap.reaches_of_mem (List.mem_append_left _ hu) j hj
  · exact hA u hu j hj

theorem State.Unseen.mono (h : s.Unseen B v) (hA : A ⊆ B) : s.Unseen A v :=
  h.of_reaches fun _ hu => Heap.reaches_of_mem (List.mem_append_right _ (hA hu))

end Arrays

namespace Reference

/-! ## Operands of its own -/

namespace Env

/-- Operands have been pushed, the last first. -/
def pushes (E : Env) (vs : List Value) : Env := { E with own := vs.map Item.temp ++ E.own }

theorem pushes_cons (E : Env) (v : Value) (vs : List Value) :
    E.pushes (v :: vs) = (E.pushes vs).push (.temp v) := rfl

theorem drop_append (E : Env) (us vs : List Value) :
    (E.pushes (us ++ vs)).drop us.length = E.pushes vs := by
  simp [drop, pushes]

theorem drop_pushes (E : Env) (vs : List Value) : (E.pushes vs).drop vs.length = E := by
  simp [drop, pushes]

theorem operands_append (E : Env) (us vs : List Value) :
    (E.pushes (us ++ vs)).operands us.length = us := by
  have htemps : (us.map Item.temp).filterMap Item.value? = us := by
    induction us with
    | nil => rfl
    | cons u us ih => rw [List.map_cons, Item.filterMap_temp, ih]
  rw [operands, pushes, List.map_append, List.append_assoc, List.take_left' (List.length_map _), htemps]

theorem operands_pushes (E : Env) (vs : List Value) : (E.pushes vs).operands vs.length = vs := by
  have hall := E.operands_append vs []
  rwa [List.append_nil] at hall

theorem words_pushes (E : Env) (vs : List Value) : (E.pushes vs).words = vs ++ E.words := by
  rw [words_eq _ vs.length, operands_pushes, drop_pushes]

end Env

namespace Self

variable {σ : Self} {E : Env} {t : State} {x : Value} {vs : List Value}

theorem meant_pushes : σ.meant (E.pushes vs) x = σ.meant E x := by
  have hfind : Item.find? x (vs.map Item.temp ++ E.own) = Item.find? x E.own := by
    induction vs with
    | nil => rfl
    | cons v vs ih => exact ih
  unfold meant Env.find?
  simp only [Env.pushes, hfind]

theorem local?_pushes : σ.local? (E.pushes vs) t x = σ.local? E t x := by
  unfold local?
  rw [meant_pushes]

theorem cont?_pushes : σ.cont? (E.pushes vs) t x = σ.cont? E t x := rfl

theorem keeps_pushes (h : x ∈ vs ++ σ.keeps E) : x ∈ σ.keeps (E.pushes vs) := by
  simp only [keeps, Env.values, Env.words_pushes]
  simp only [keeps, Env.values, List.mem_append] at h
  simp only [Env.pushes, List.mem_append]
  tauto

end Self

namespace Stage

variable {C : Course} {S : Stage C} {book : Book} {E E' : Env} {s : Scope} {k : Kind}
  {pc n : Nat} {f v a c : Value} {t u : State} {w : System} {g : Frame} {ps A : List Value}

/-! ## Copies are fetched -/

theorem length_codeFetches (s : Scope) (fs : List (Scope → Instr)) :
    (codeFetches s fs).length = 2 * fs.length := by
  induction fs generalizing s with
  | nil => rfl
  | cons f fs ih =>
      simp only [codeFetches, List.length_cons, ih]
      omega

/-- An instruction fetches a value, whatever operands there are on top. -/
def Fetches (S : Stage C) (ps : List Value) (E : Env) (t : State) (f : Scope → Instr) (x : Value) :
    Prop :=
  ∀ {book vs s k pc v}, Scoped S.self ps s (E.pushes vs) → S.sites[pc]? = some (s.site (f s) k) →
    S.Goes book (E.pushes vs) (pc + 1) x t → S.Goes book (E.pushes vs) pc v t

theorem fetches_cont (h : S.self.cont? E t c = some v) :
    S.Fetches ps E t (fun s => contInstr s c) v :=
  fun hscope hs next => .refCont hs hscope (Self.cont?_pushes.trans h) next

theorem fetches_var (h : S.self.local? E t c = some v) :
    S.Fetches ps E t (fun s => refInstr s c none) v :=
  fun hscope hs next => .refLocal hs hscope (Self.local?_pushes.trans h) next

theorem forall₂_of_mapM {α β γ : Type} {R : γ → β → Prop} {g : α → Option β} {f : α → γ}
    {xs : List α} {ys : List β} (h : xs.mapM g = some ys)
    (hR : ∀ x y, g x = some y → R (f x) y) :
    List.Forall₂ R (xs.map f) ys := by
  induction xs generalizing ys with
  | nil =>
      obtain rfl := Option.some.inj h
      exact .nil
  | cons x xs ih =>
      rw [List.mapM_cons] at h
      obtain ⟨y, hy, h⟩ := Option.bind_eq_some_iff.1 h
      obtain ⟨ys', hys, h⟩ := Option.bind_eq_some_iff.1 h
      obtain rfl := Option.some.inj h
      exact .cons (hR x y hy) (ih hys)

/-- Each of the values that are to be copied is fetched by an instruction of its own. -/
theorem fetches_copies {copies : Captures} {vs : List Value} (h : S.self.copied? E t copies = some vs) :
    List.Forall₂ (S.Fetches ps E t) copies.fetches vs := by
  unfold Self.copied? at h
  obtain ⟨cs, hcs, h⟩ := Option.bind_eq_some_iff.1 h
  obtain ⟨us, hus, h⟩ := Option.bind_eq_some_iff.1 h
  obtain rfl := Option.some.inj h
  exact List.rel_append (forall₂_of_mapM hcs fun _ _ => fetches_cont)
    (forall₂_of_mapM hus fun _ _ => fetches_var)

theorem Goes.fetches {fs : List (Scope → Instr)} {us vs : List Value}
    (h : List.Forall₂ (S.Fetches ps E t) fs us) (hcode : Segment S.sites pc (codeFetches s fs))
    (hscope : Scoped S.self ps s (E.pushes vs))
    (next : ∀ v, Scoped S.self ps (s.posts (fs.map fun _ => .push)) (E.pushes (us.reverse ++ vs)) →
      S.Goes book (E.pushes (us.reverse ++ vs)) (pc + 2 * fs.length) v t) :
    S.Goes book (E.pushes vs) pc v t := by
  induction h generalizing pc s vs v with
  | nil => exact next v hscope
  | @cons f u fs us hf _ ih =>
      refine hf hscope hcode.head (.push hcode.tail.head ?_)
      rw [← Env.pushes_cons]
      refine ih hcode.tail.tail (hscope.push u) fun v hend => ?_
      rw [show pc + 1 + 1 + 2 * fs.length = pc + 2 * (f :: fs).length by
        rw [List.length_cons]; omega]
      rw [show us.reverse ++ u :: vs = (u :: us).reverse ++ vs by simp] at hend ⊢
      exact next v hend

/-! ## Arrays of operands -/

/-- An array is made of the newest operands, which are then dropped. -/
theorem Works.step_makeArray (h : S.Works book E w g)
    (hs : S.sites[w.state.machine.pc]? = some (s.site ⟨.makeArray, n, .nil⟩ k))
    (hn : (E.operands n).length = n) :
    ∃ (w₁ : System) (items : Array Value), w₁.state = w.state.atPc (w.state.machine.pc + 1) ∧
      items.toList = (E.operands n).reverse ∧ (∀ v ∈ items, v ∈ w₁.state.rootValues) ∧
      step w.state = (do
        let a ← makeArray items
        modifyMachine fun m => { m.truncate
          ((E.drop n).frame S.self.array g.saved ++ C.words S.frames).length with val := a }
        return false) w₁.state := by
  have hins := h.instr? hs
  have hslots : w.state.machine.slots = E.operands n
      ++ ((E.drop n).frame S.self.array g.saved ++ C.words S.frames) := by
    rw [h.slots, E.frame_eq n, List.append_assoc]
  have hsize := congrArg List.length hslots
  rw [Machine.length_slots, List.length_append, hn] at hsize
  set lower := (E.drop n).frame S.self.array g.saved ++ C.words S.frames
  obtain ⟨val?, hat⟩ := h.comes.stands.exists_top hins (ne_of_beq_false rfl)
  obtain ⟨w₁, -, hm⟩ := exists_moved_on (m := C.mode) (d := C.depth) hat.shows.above
  have hw₁ : w₁.state = w.state.atPc (w.state.machine.pc + 1) := hm.state
  have hslots₁ : w₁.state.machine.slots = E.operands n ++ lower := by
    rw [hw₁]
    exact hslots
  have hdepth : w₁.state.machine.stack.size - n = lower.length := by
    rw [hw₁]
    change w.state.machine.stack.size - n = _
    omega
  set items := w₁.state.machine.stack.extract (w₁.state.machine.stack.size - n)
    w₁.state.machine.stack.size with hitems
  have hlist : items.toList = (E.operands n).reverse := by
    rw [hitems, hdepth]
    exact Machine.extract_of_reverse hslots₁
  have hexec : step w.state = (do
      let a ← makeArray items
      modifyMachine fun m => { m.truncate lower.length with val := a }
      return false) w₁.state := by
    have hle : ¬ w₁.state.machine.stack.size < n := by
      rw [hw₁]
      change ¬ w.state.machine.stack.size < n
      omega
    rw [h.step_eq hs, ← hw₁]
    simp only [execute, arrayFromStack, act_bind, act_gets, hle, if_false, pure, EStateM.pure, hdepth]
    rw [← hdepth]
    cases makeArray items w₁.state <;> rfl
  have hroots : ∀ v ∈ items, v ∈ w₁.state.rootValues := by
    intro v hv
    rw [← Array.mem_toList_iff, hlist, List.mem_reverse] at hv
    exact State.mem_rootValues_of_machine (Machine.mem_values_of_slots
      (hslots₁ ▸ List.mem_append_left _ hv))
  exact ⟨w₁, items, hw₁, hlist, hroots, hexec⟩

/-- The newest operands are put in an array, unless there is no room for it. -/
theorem Works.gives_makeArray (h : S.Works book E w g)
    (hs : S.sites[w.state.machine.pc]? = some (s.site ⟨.makeArray, n, .nil⟩ k))
    (hn : (E.operands n).length = n) :
    Gives (fun _ => False) step w.state fun stop s' => stop = false ∧ ∃ a,
      s'.machine = { w.state.machine.truncate
        ((E.drop n).frame S.self.array g.saved ++ C.words S.frames).length with
          pc := w.state.machine.pc + 1, val := a } ∧
      w.state.store.Arrays (S.self.keeps E) a (E.operands n).reverse s'.store := by
  have hkeeps := h.keeps_subset
  obtain ⟨w₁, items, hw₁, hlist, hroots, hexec⟩ := h.step_makeArray hs hn
  set lower := (E.drop n).frame S.self.array g.saved ++ C.words S.frames
  refine .of_eq (.bind (w₁.gives_makeArray hroots) ?_) hexec
  rintro a s' harrayed
  obtain ⟨i, b, rfl, hi, hfresh, hcell, hpayload⟩ := harrayed.new
  obtain ⟨heap, log, hrest⟩ := harrayed.rest
  have hci : (Value.ref .object i).cell? = some i := Value.cell?_eq_some_iff.2 ⟨_, rfl, hi⟩
  have hkeeps₁ : S.self.keeps E ⊆ w₁.state.rootValues := by
    rw [hw₁]
    exact fun v hv => hkeeps hv
  have haside := State.aside_of_roots (harrayed.kept.retains harrayed.size) w₁.wellFormed harrayed.wf
    ⟨heap, log, by rw [hrest]; rfl⟩ hkeeps₁
  have hstore : w₁.state.store = w.state.store := by rw [hw₁]; rfl
  have hdone : Gives (fun _ => False) (do
      modifyMachine fun m => { m.truncate lower.length with val := .ref .object i }
      return false : Act Bool) s' fun stop s'' => stop = false ∧ s'' = { s' with
        machine := { s'.machine.truncate lower.length with val := .ref .object i } } := ⟨rfl, rfl⟩
  refine hdone.mono ?_
  rintro _ _ ⟨rfl, rfl⟩
  refine ⟨rfl, .ref .object i, ?_, ⟨⟨?_, rfl⟩, ?_, ?_, fun j => ?_⟩⟩
  · rw [hrest, hw₁]
    rfl
  · rw [← hstore]
    exact ⟨haside.retains, haside.rest, haside.zero, haside.zero'⟩
  · obtain ⟨j, hj, hseen⟩ : w₁.state.Unseen (S.self.keeps E) (.ref .object i) := by
      refine ⟨i, hci, fun hreach => hfresh (hreach.mono (List.append_subset.2
        ⟨w₁.state.anchors_subset_rootValues, hkeeps₁⟩))⟩
    rw [hw₁] at hseen
    exact ⟨j, hj, hseen⟩
  · change (s'.heap.array? (.ref .object i)).isSome = true
    simp only [Heap.array?, Value.object?, hcell, Option.isSome_some]
  · refine (Heap.item?_eq hcell j).trans ?_
    rw [hpayload, ← hlist, Array.getElem?_toList]
    rfl

/-- The newest operands are in an array. -/
theorem Goes.makeArray (hs : S.sites[pc]? = some (s.site ⟨.makeArray, n, .nil⟩ k))
    (hn : (E.operands n).length = n)
    (next : ∀ a t', t.Arrays (S.self.keeps E) a (E.operands n).reverse t' →
      S.Goes book (E.drop n) (pc + 1) a t') : S.Goes book E pc v t := by
  rintro w g h rfl rfl rfl
  refine .of_gives nofun (h.gives_makeArray hs hn) ?_
  rintro _ s' hstep ⟨rfl, a, hmachine, harrays⟩
  have hlower : w.state.machine.slots = E.operands n
      ++ ((E.drop n).frame S.self.array g.saved ++ C.words S.frames) := by
    rw [h.slots, E.frame_eq n, List.append_assoc]
  refine h.goesOn hs rfl hstep (next a _ harrays) ?_ rfl rfl ?_ ?_ ?_ ?_ ?_ rfl
  · rw [hmachine]
    exact Machine.slots_truncate hlower
  all_goals rw [hmachine, Machine.truncate]

/-! ## Arrays are joined to code -/

/-- Closures are made by the procedure for that all the time. -/
theorem Works.maker (h : S.Works book E w g) :
    w.heap.Serves w.state.known.makeClosure ⟨2⟩ .makeClosure := by
  obtain ⟨i, name, hmaker, hcell⟩ := C.maker
  have hstable := h.comes.ran.stable
  have hi : (Value.ref .native i).cell? = some i := by
    refine Value.cell?_eq_some_iff.2 ⟨_, rfl, ?_⟩
    rintro rfl
    have hzero := C.start.wellFormed.heap.pool.zero
    rw [hcell] at hzero
    cases hzero
  have hanchored : Anchored C.mode.loose C.depth C.start.state (.ref .native i) := by
    refine ⟨_, ?_, .refl⟩
    rw [← hmaker]
    simp [State.base]
  have hsame := hstable.same _ i hanchored hi
  unfold SameCell at hsame
  rw [hcell] at hsame
  exact ⟨i, name, (congrArg (·.makeClosure) hstable.known).trans hmaker, hsame⟩

/-- Where an array and code are joined, it is that procedure that is called. -/
theorem Works.joins {site : Site} (h : S.Works book E w g) (hpc : w.state.machine.pc = pc + 3)
    (hs : S.sites[pc + 3]? = some (s.site ⟨.call, 2, .nil⟩ k)) (hmade : S.sites[pc]? = some site)
    (hsite : site.instr.op = .makeArray) (hops : E.operands 2 = [a, c]) :
    w.state.machine.val = w.state.known.makeClosure ∧ w.state.permits false = true ∧
      c.isBytecode = true := by
  have hins := h.instr? (hpc ▸ hs)
  have hmake : (w.heap.instr? w.state.machine.code (w.state.machine.pc - 3)).any
      (·.op == .makeArray) = true := by
    have hinstr : g.proc.instrs[pc]? = some site.instr := by
      rw [h.has.instrs, List.getElem?_map, hmade, Option.map_some]
    rw [Proc.instrs, List.getElem?_map, Option.map_eq_some_iff] at hinstr
    obtain ⟨site', hsite', he⟩ := hinstr
    have hat : w.heap.instr? w.state.machine.code pc = some site'.instr :=
      h.comes.stands.exists_place.1.instr? hsite'
    rw [hpc, Nat.add_sub_cancel, hat, he, Option.any_some, hsite]
    rfl
  have hpermits : w.state.permits false = true := by
    unfold State.permits
    rw [hins]
    change (_ || _ && Option.any _ _) = true
    rw [show Option.any _ _ = true from hmake, hpc]
    simp
  obtain ⟨val?, hat⟩ := h.comes.stands.exists_top hins (ne_of_beq_false rfl)
  obtain ⟨site', hins', hpoised⟩ := hat.poised
  obtain ⟨w₁, -, hm⟩ := exists_moved_on (m := C.mode) (d := C.depth) hat.shows.above
  have hp := hpoised w₁ hm
  have hval : site'.shape.val = some .maker := by
    refine hp.maker_of_joins (by omega) ?_
    rw [hm.heap, hm.machine]
    exact hmake
  refine ⟨?_, hpermits, ?_⟩
  · have hmaker : w₁.state.machine.val = w₁.state.known.makeClosure := hp.value _ hval
    rwa [hm.machine, hm.known] at hmaker
  -- the words below it are an array and code
  have hsafe := hp.safe
  unfold Site.Safe at hsafe
  have hop : site'.instr.op = .call := by
    rw [← Option.some.inj (hins.symm.trans hins')]
    rfl
  simp only [hop] at hsafe
  rcases hsafe with ⟨hany, -⟩ | ⟨-, -, m, ops, hshape, -⟩
  · rw [hval] at hany
    cases hany
  have hkinds : w₁.AreKinds g.ops site'.shape.ops := hp.frame.ops
  have hslots : g.ops ++ g.below = E.operands 2 ++ (E.drop 2).frame S.self.array g.saved := by
    rw [← E.frame_eq 2]
    exact h.has.slots
  rw [hshape] at hkinds
  rw [hops] at hslots
  generalize g.ops = us at hkinds hslots
  cases hkinds with
  | cons _ hrest =>
      cases hrest with
      | cons hcode _ =>
          obtain ⟨-, hslots⟩ := List.cons.inj hslots
          obtain ⟨rfl, -⟩ := List.cons.inj hslots
          obtain ⟨i, p, rfl, -⟩ := hcode.2.2
          rfl

/-- A closure has been made. -/
def joined (t : State) (A : List Value) (code array : Value) : Goal
  | .value f, _, t' => t.Joins A code array f t'
  | _, _, _ => False

/-- The procedure that makes closures does its work. -/
theorem nativeGoal_makeClosure (hstore : u.store = t) (hw : u.WellFormed none)
    (ha : a ∈ u.rootValues) (hc : c ∈ u.rootValues) (hA : A ⊆ u.rootValues) (hcode : c.isBytecode = true)
    (harray : (t.heap.array? a).isSome) :
    nativeGoal (joined t A c a) E (Builtin.apply .makeClosure [c, a] u) := by
  subst hstore
  obtain ⟨b, hb⟩ := Option.isSome_iff_exists.1 harray
  have hsound : u.heap.Sound (.closure c a) := by
    refine ⟨fun v hv => hw.roots v ?_, nofun⟩
    rcases List.mem_cons.1 (show v ∈ [a, c] from hv) with rfl | hv
    · exact ha
    · exact List.mem_singleton.1 hv ▸ hc
  have happly : Builtin.apply .makeClosure [c, a] u = allocCell (.closure c a) u := by
    have harrayOf : Builtin.arrayOf a u = .ok b u := by
      rw [Builtin.arrayOf, act_bind, act_gets, show u.heap.array? a = some b from hb]
      rfl
    change Builtin.makeClosure c a u = _
    rw [Builtin.makeClosure, hcode]
    change (Builtin.arrayOf a >>= fun _ => allocCell (.closure c a)) u = _
    rw [act_bind, harrayOf]
  have hgives := hw.gives_allocCell hsound rfl
  rw [happly]
  unfold Gives at hgives
  split at hgives
  · rename_i f u' he
    obtain ⟨hsupplied, hw', heap, log, hrest⟩ := hgives
    obtain ⟨i, rfl, hi, -, hfresh, hcell⟩ := hsupplied.fresh
    rw [he]
    have haside := State.aside_of_roots (hsupplied.kept_roots.retains hsupplied.size) hw hw'
      ⟨heap, log, by rw [hrest]; rfl⟩ hA
    refine ⟨⟨State.aside_store_iff.2 haside, rfl⟩, ?_, ?_⟩
    · exact unseen_of_fresh (Value.cell?_eq_some_iff.2 ⟨_, rfl, hi⟩) hfresh rfl hA
    · change u'.heap.entry? (.ref .closure i) = _
      rw [Heap.entry?, hcell]
  · exact hgives.elim
  · rename_i he
    rw [he]
    exact hgives

/-- An array and code are joined, as a closure somewhere new. -/
theorem Goes.join {site : Site} (hs : S.sites[pc + 3]? = some (s.site ⟨.call, 2, .nil⟩ k))
    (hmade : S.sites[pc]? = some site) (hsite : site.instr.op = .makeArray)
    (hops : E.operands 2 = [a, c]) (harray : (t.heap.array? a).isSome)
    (next : ∀ f t', t.Joins (a :: c :: S.self.keeps (E.drop 2)) c a f t' →
      S.Goes book (E.drop 2) (pc + 3 + 1) f t') : S.Goes book E (pc + 3) v t := by
  intro w g h hpc hval hstore
  obtain ⟨hmaker, -, hcode⟩ := h.joins hpc hs hmade hsite hops
  obtain ⟨i, name, hnative, hcell⟩ := h.maker
  have hlen : (E.operands 2).length = 2 := by rw [hops]; rfl
  have hv : v = .ref .native i := hval.symm.trans (hmaker.trans hnative)
  subst hv
  subst hstore
  have hcall : S.sites[pc + 3]?
      = some (s.site ⟨if false then .tailCall else .call, 2, .nil⟩ k) := hs
  refine Goes.call hcall hlen (fun ht => absurd ht Bool.false_ne_true)
    (fun w g h hpc _ _ => (h.joins hpc hs hmade hsite hops).2.1) (fun w' u fs r hcalls => ?_)
      w g h hpc hval rfl
  have hgoal (s : State) (hs : s.store = w.state.store) (hw : s.WellFormed none)
      (hsub : E.operands 2 ++ S.self.below false (E.drop 2) ++ S.self.liveBelow false (E.drop 2)
        ⊆ s.rootValues) :
      nativeGoal (joined w.state.store (a :: c :: S.self.keeps (E.drop 2)) c a) E
        (Builtin.apply .makeClosure (E.operands 2).reverse s) := by
    rw [hops] at hsub ⊢
    have hsub' : a :: c :: S.self.keeps (E.drop 2) ⊆ s.rootValues :=
      fun x hx => hsub (List.mem_append_left _ hx)
    exact nativeGoal_makeClosure hs hw (hsub' (by simp)) (hsub' (by simp)) hsub' hcode harray
  refine hcalls.served hcell ?_ hgoal ?_ ?_ ?_
  · rw [hlen]
    rfl
  · exact fun f t' hjoins _ => next f t' hjoins
  · exact fun f t' _ htail => by cases htail
  · exact fun cause t' hfails => hfails.elim

/-! ## Closures -/

/-- The values of the names that are copied are put in an array, which is joined to the code. -/
theorem Goes.closure {start : Nat} {tail : Bool} {code maker : Value} {copies : Captures} {vs : List Value}
    (hcode : Segment S.sites start ((Core.lambda code copies maker).code s start tail))
    (hcount : copies.count ≠ 0) (hscope : Scoped S.self ps s E)
    (hvs : S.self.copied? E t copies = some vs)
    (next : ∀ f t', t.Encloses (code :: (vs ++ S.self.keeps E)) code vs f t' →
      S.Goes book E (start + (Core.lambda code copies maker).length) f t') :
    S.Goes book E start v t := by
  rw [Core.code_lambda, if_neg hcount] at hcode
  have hfetches : List.Forall₂ (S.Fetches ps E t) copies.fetches vs := fetches_copies hvs
  have hlen : copies.fetches.length = vs.length := hfetches.length_eq
  have hn : copies.count = vs.length := by
    rw [← hlen, Captures.fetches, Captures.count]
    simp [Nat.add_comm]
  have hrest := hcode.tail.tail.right rfl
  rw [length_codeFetches] at hrest
  refine .const hcode.head (.push hcode.tail.head ?_)
  have hpushed : Scoped S.self ps (s.push .temp) (E.pushes [code]) := hscope.push code
  refine Goes.fetches hfetches hcode.tail.tail.left hpushed fun v _ => ?_
  rw [hlen] at hrest ⊢
  let E₂ := E.pushes (vs.reverse ++ [code])
  have hops : E₂.operands copies.count = vs.reverse := by
    rw [hn, ← List.length_reverse]
    exact Env.operands_append E vs.reverse [code]
  have hdrop : E₂.drop copies.count = E.pushes [code] := by
    rw [hn, ← List.length_reverse]
    exact Env.drop_append E vs.reverse [code]
  refine .makeArray hrest.head (by rw [hops, List.length_reverse, hn]) fun a t₁ harrays => ?_
  rw [hdrop]
  rw [hops, List.reverse_reverse] at harrays
  refine .push hrest.tail.head (.const hrest.tail.tail.head ?_)
  refine .join hrest.tail.tail.tail.head hrest.head rfl (Env.operands_pushes E [a, code]) harrays.array
    fun f t₂ hjoins => ?_
  have hE : ((E.pushes [code]).push (.temp a)).drop 2 = E := Env.drop_pushes E [a, code]
  rw [hE] at hjoins ⊢
  have hend : start + (Core.lambda code copies maker).length
      = start + 1 + 1 + 2 * vs.length + 3 + 1 := by
    rw [Core.length, closureLength, if_neg hcount, hn]
    omega
  have ha : t₁.heap.Reaches (t₁.anchors ++ a :: code :: S.self.keeps E) a :=
    Heap.reaches_of_mem (by simp)
  -- the array leads to what has been copied
  have hreaches : ∀ v ∈ code :: (vs ++ S.self.keeps E),
      t₁.heap.Reaches (t₁.anchors ++ a :: code :: S.self.keeps E) v := by
    intro v hv
    by_cases hmem : v ∈ vs
    · obtain ⟨i, hi⟩ := List.mem_iff_getElem?.1 hmem
      exact Heap.reaches_item harrays.drifts.aside.zero' ha ((harrays.items i).trans hi)
    · refine Heap.reaches_of_mem (List.mem_append_right _ (List.mem_cons_of_mem _ ?_))
      simpa [hmem] using hv
  have hkeeps : code :: (vs ++ S.self.keeps E) ⊆ S.self.keeps E₂ := fun v hv =>
    Self.keeps_pushes (by simpa [or_left_comm] using hv)
  have hdrifts := harrays.drifts.mono hkeeps
  rw [← hend]
  refine next f t₂ ⟨hdrifts.trans (hjoins.drifts.of_reaches hreaches),
    hdrifts.unseen (hjoins.new.of_reaches hreaches), a, hjoins.entry, harrays.new.mono hkeeps, fun i => ?_⟩
  exact (hjoins.drifts.item? ha harrays.array i).trans (harrays.items i)

end Stage

end Reference
end CellLisp
