import CellLisp.Proofs.Reference.Working

/-!
# `CellLisp.Proofs.Reference.Continuations` — continuations that are established and left

A continuation is established by the procedure at work, with a record of where its frame stands
(`Stage.Goes.withCont`); so an exit to it, from however many frames above, brings that frame back to
what it was then, but for the values that its variables have got since (`Stage.Marks.escapes`).

`Stage.Escapes` is said of an exit before it is known where it leads to.  It needs no more than that
the frame of the procedure is still in the pile, or, if the procedure has been left by a tail call,
the frames below it.
-/

namespace CellLisp

/-! ## What an exit leaves -/

section Exits

variable {s t : State} {A : List Value} {k : Cont} {v : Value}

theorem Heap.left_restoreAll {h h' : Heap} {i : Nat} (bs : List DynBinding)
    (hi : (h'.cell i).left = (h.cell i).left) :
    ((h'.restoreAll bs).cell i).left = ((h.restoreAll bs).cell i).left := by
  rw [Heap.cell_restoreAll, Heap.cell_restoreAll]
  rcases Cell.eq_or_cont_of_left hi with he | ⟨k, k', hk, hk'⟩
  · rw [he]
  · rw [hk, hk'] at hi ⊢
    exact hi

theorem Heap.arena_markAll (h : Heap) (vs : List Value) :
    (vs.foldl markExited h).arena = h.arena := by
  induction vs generalizing h with
  | nil => rfl
  | cons v vs ih => exact (ih _).trans (arena_markExited h v)

theorem Heap.arena_restoreAll (h : Heap) (bs : List DynBinding) :
    (h.restoreAll bs).arena = h.arena := by
  induction bs generalizing h with
  | nil => rfl
  | cons b bs ih =>
      refine (ih _).trans ?_
      unfold restore modifySymbol
      split
      · split <;> rfl
      · rfl

theorem Heap.size_restoreAll (h : Heap) (bs : List DynBinding) :
    (h.restoreAll bs).cells.size = h.cells.size := by
  induction bs generalizing h with
  | nil => rfl
  | cons b bs ih =>
      refine (ih _).trans ?_
      unfold restore modifySymbol
      split
      · split
        · simp [Heap.set]
        · rfl
      · rfl

theorem Heap.isFree_restoreAll (h : Heap) (bs : List DynBinding) (i : Nat) :
    ((h.restoreAll bs).cell i).isFree = (h.cell i).isFree := by
  rw [cell_restoreAll]
  cases h.cell i <;> rfl

/-- An exit undoes dynamic bindings, and marks continuations that are left. -/
theorem State.drifts_exited (hzero : (s.heap.cell 0).isFree = true) :
    (s.store.unwound k.dynDepth.toNat).Drifts A (s.exited k v).store where
  store := rfl
  aside := by
    have hr : Heap.Retains ((s.store.unwound k.dynDepth.toNat).anchors ++ A) s.heap
      (s.dropped k.depth.toNat).heap := retains_dropped _ s _
    let bs := s.machine.bindingsFrom k.dynDepth.toNat
    have hleft (i : Nat) : ((s.dropped k.depth.toNat).heap.cell i).left = (s.heap.cell i).left := by
      rw [State.cell_dropped]
      split
      · exact Cell.left_left _
      · rfl
    refine ⟨⟨fun i _ => ?_, fun i b _ _ => ?_, ?_⟩, ⟨_, s.world.log, rfl⟩, ?_, ?_⟩
    · exact Heap.left_restoreAll bs (hleft i)
    · change ((s.dropped k.depth.toNat).heap.restoreAll bs).arena.record? b.offset
        = (s.heap.restoreAll bs).arena.record? b.offset
      rw [Heap.arena_restoreAll, Heap.arena_restoreAll, State.dropped, ← Array.foldl_toList,
        Heap.arena_markAll]
    · change ((s.dropped k.depth.toNat).heap.restoreAll bs).cells.size
        = (s.heap.restoreAll bs).cells.size
      rw [Heap.size_restoreAll, Heap.size_restoreAll]
      exact hr.size
    · exact (Heap.isFree_restoreAll s.heap bs 0).trans hzero
    · refine (Heap.isFree_restoreAll _ bs 0).trans ?_
      rw [← Cell.isFree_left, hleft, Cell.isFree_left]
      exact hzero

end Exits

namespace Reference

theorem Course.Finishes.of_gives {C : Course} {s : State} {E : Error → Prop} {Q : Bool → State → Prop}
    (hE : ∀ cause, E cause → cause = .stackExhausted) (h : Gives E step s Q)
    (next : ∀ b s', step s = .ok b s' → Q b s' → C.Finishes s) : C.Finishes s := by
  unfold Gives at h
  split at h
  · rename_i he
    exact next _ _ he h
  · rename_i he
    exact .fails he (.inl (hE _ h))
  · rename_i he
    exact .full he h

/-- What nothing leads to that a state keeps. -/
theorem unseen_of_fresh {s t : State} {A : List Value} {c : Cell} {v : Value} {i : Nat}
    (hv : v.cell? = some i) (hfresh : ¬s.heap.Reachable (s.startValues c) i)
    (hstore : s.store = t) (hA : A ⊆ s.rootValues) : t.Unseen A v := by
  subst hstore
  refine ⟨i, hv, fun hreach => hfresh (hreach.mono fun u hu => ?_)⟩
  refine List.mem_append_right _ ?_
  rcases List.mem_append.1 hu with hu | hu
  · exact s.anchors_subset_rootValues hu
  · exact hA hu

namespace Stage

variable {C : Course} {S S' : Stage C} {book : Book} {E E' : Env} {s : Scope} {k : Kind}
  {pc n : Nat} {v u x c : Value} {t t' : State} {w : System} {f : Frame}

/-! ## Values that are held -/

/-- What a procedure and those that wait for it hold is held. -/
theorem Works.keeps_subset (h : S.Works book E w f) : S.self.keeps E ⊆ w.state.rootValues := by
  have hslots : ∀ u ∈ E.frame S.self.array f.saved ++ C.words S.frames, u ∈ w.state.rootValues :=
    fun u hu => State.mem_rootValues_of_machine (Machine.mem_values_of_slots (h.slots ▸ hu))
  have hescapes : ∀ u ∈ E.conts.map (·.2) ++ C.escapes S.frames, u ∈ w.state.rootValues :=
    fun u hu => State.mem_rootValues_of_machine (Machine.mem_values_of_escapes (h.escapes ▸ hu))
  intro u hu
  simp only [Self.keeps, Env.values, List.mem_append, List.mem_cons] at hu
  rcases hu with ((hu | hu) | hu) | rfl | hu | hu | hu
  · exact hslots u (by simp [Env.frame, hu])
  · exact hslots u (by simp [Env.frame, hu])
  · exact hescapes u (by simp [hu])
  · rw [← h.code]
    exact State.mem_rootValues_of_machine (by simp [Machine.values])
  · exact hslots u (by simp [Env.frame, hu])
  · rw [S.live] at hu
    exact hescapes u (by simp [hu])
  · rcases List.mem_cons.1 (S.held hu) with rfl | hu
    · refine hslots _ ?_
      rw [← h.has.back]
      simp [Env.frame, Frame.saved]
    · rcases List.mem_append.1 hu with hu | hu
      · exact hslots u (List.mem_append_right _ hu)
      · exact hescapes u (List.mem_append_right _ hu)

/-! ## Continuations that are established -/

/-- How many words a frame has. -/
def size (S : Stage C) (E : Env) : Nat := (E.frame S.self.array [.nil, .nil, .nil]).length

theorem length_frame (S : Stage C) (E : Env) (f : Frame) :
    (E.frame S.self.array f.saved).length = S.size E := by
  simp [size, Env.frame, Frame.saved]

/-- The record of a continuation says where the frame of the procedure stands. -/
structure Marks (S : Stage C) (E : Env) (dyns depth pc : Nat) (r : Cont) : Prop where
  code : r.code = S.self.code
  pc : r.pc.toNat = pc
  fp : r.fp.toNat = E.params.length + (C.words S.frames).length + 3
  sp : r.sp.toNat = S.size E + (C.words S.frames).length
  dynDepth : r.dynDepth.toNat = dyns
  depth : r.depth.toNat = depth

theorem Works.fp_eq (h : S.Works book E w f) :
    w.state.machine.fp = E.params.length + (C.words S.frames).length + 3 := by
  rw [h.comes.stands.fp_eq, Frame.base, h.has.args]

theorem Works.size_eq (h : S.Works book E w f) :
    w.state.machine.stack.size = S.size E + (C.words S.frames).length := by
  rw [← Machine.length_slots, h.slots, List.length_append, length_frame]

/-- A continuation is put somewhere, unless there is no cell for it. -/
theorem Works.gives_withCont (h : S.Works book E w f)
    (hs : S.sites[w.state.machine.pc]? = some (s.site ⟨.withCont, 0, .ofInt n⟩ k))
    (hn : n ≤ S.sites.length) :
    Gives (fun _ => False) step w.state fun stop s' => stop = false ∧ ∃ i,
      s'.machine = { w.state.machine with
        pc := w.state.machine.pc + 1, conts := w.state.machine.conts.push (.ref .object i) } ∧
      s'.heap.cell i = .cont (w.state.machine.toCont n) ∧ i ≠ 0 ∧
      w.state.store.Establishes (S.self.keeps E) (.ref .object i) s'.store := by
  have hword : (Value.ofInt n).word = n := by
    have hlen := h.length_sites
    exact Value.word_ofInt (by omega)
  have hkeeps := h.keeps_subset
  have hw : (w.state.atPc (w.state.machine.pc + 1)).WellFormed none :=
    ⟨w.wellFormed.heap, w.wellFormed.roots, w.wellFormed.pending⟩
  have hsound : w.heap.Sound (.cont (w.state.machine.toCont n)) := by
    refine ⟨fun v hv => ?_, nofun⟩
    obtain rfl := List.mem_singleton.1 hv
    exact w.wellFormed.holds_code
  have hexec : step w.state = (do
      let c ← allocCell (.cont (w.state.machine.toCont n))
      modifyMachine fun m => { m with conts := m.conts.push c }
      return false) (w.state.atPc (w.state.machine.pc + 1)) := by
    rw [h.step_eq hs]
    have hto : (w.state.atPc (w.state.machine.pc + 1)).machine.toCont n
      = w.state.machine.toCont n := rfl
    simp only [execute, establish, act_bind, act_gets, hword, hto]
    cases allocCell (.cont (w.state.machine.toCont n)) (w.state.atPc (w.state.machine.pc + 1)) <;> rfl
  refine .of_eq (Gives.bind (hw.gives_allocCell hsound rfl) ?_) hexec
  rintro c s₁ ⟨hsup, hw₁, heap, log, rfl⟩
  obtain ⟨i, rfl, hi, -, hfresh, hcell⟩ := hsup.fresh
  have hci : (Value.ref .object i).cell? = some i := Value.cell?_eq_some_iff.2 ⟨_, rfl, hi⟩
  have haside := State.aside_of_roots (hsup.kept_roots.retains hsup.size) hw hw₁
    ⟨heap, log, rfl⟩ hkeeps
  refine ⟨rfl, i, rfl, hcell, hi, ⟨⟨haside.retains, haside.rest, haside.zero, haside.zero'⟩, rfl⟩,
    unseen_of_fresh hci hfresh rfl hkeeps, ?_⟩
  · change (heap.cont? (.ref .object i)).isSome
    rw [Heap.cont?, hci, Option.map_some, hcell]
    rfl

theorem Goes.withCont (hs : S.sites[pc]? = some (s.site ⟨.withCont, 0, .ofInt n⟩ k))
    (hn : n ≤ S.sites.length)
    (next : ∀ c t' r, t.Establishes (S.self.keeps E) c t' →
      S.Marks E t.machine.dyns.size book.length n r →
      book.map (·.1) = E.conts.map (·.2) ++ C.escapes S.frames →
      S.Goes ((c, r) :: book) (E.establish x c) (pc + 1) v t') : S.Goes book E pc v t := by
  rintro w f h rfl rfl rfl
  refine .of_gives nofun (h.gives_withCont hs hn) ?_
  rintro _ s' hstep ⟨rfl, i, hmachine, hcell, hi, hestablishes⟩
  have hci : (Value.ref .object i).cell? = some i := Value.cell?_eq_some_iff.2 ⟨_, rfl, hi⟩
  have hnames : book.map (·.1) = E.conts.map (·.2) ++ C.escapes S.frames :=
    h.booked.escapes.symm.trans h.escapes
  have hescapes : s'.machine.escapes = .ref .object i :: w.state.machine.escapes := by
    rw [hmachine]
    simp [Machine.escapes]
  have hstack : s'.machine.slots = w.state.machine.slots := by rw [hmachine]; rfl
  let r := w.state.machine.toCont n
  obtain ⟨w', f', rfl, hworks, htraced⟩ : ∃ w' f', w'.state = s' ∧
      S.Works ((.ref .object i, r) :: book) (E.establish x (.ref .object i)) w' f' ∧
        Traced ⟨.withCont, 0, .ofInt n⟩ w.state s' := by
    refine h.next hs rfl hstep (by rw [hmachine]) (by rw [hmachine]) (hstack.trans h.slots) rfl
      ?_ ?_ fun p hp => ?_
    · rw [hescapes, h.escapes]
      rfl
    · rw [hescapes, h.booked.escapes]
      rfl
    · rcases List.mem_cons.1 hp with rfl | hp
      · refine .inr ⟨?_, rfl⟩
        rw [Heap.cont?, hci, Option.map_some, hcell]
      · exact .inl hp
  -- the record fits its words
  have hrecords : r.Records w.state.machine n := by
    rcases htraced.conts with ⟨depth, hshrunk⟩ | ⟨c, hpush, -, j, r', rfl, -, hcell', hrecords, -⟩
    · have hsize := congrArg Array.size hshrunk
      rw [hmachine] at hsize
      simp only [Array.size_push, Array.size_shrink] at hsize
      omega
    · rw [hmachine] at hpush
      obtain ⟨-, rfl⟩ := Value.ref.inj (Array.push_inj_right.1 hpush)
      obtain rfl := Cell.cont.inj (hcell'.symm.trans hcell)
      have hlen := h.length_sites
      rwa [Value.word_ofInt (show n < 2 ^ 59 by omega)] at hrecords
  refine .next hstep (next _ _ r hestablishes ⟨hrecords.code.trans h.code, hrecords.pc,
    hrecords.fp.trans h.fp_eq, hrecords.sp.trans h.size_eq, hrecords.dynDepth, ?_⟩ hnames w' f' hworks
    (by rw [hmachine]) (by rw [hmachine]) rfl)
  rw [hrecords.depth, ← Machine.length_escapes, h.booked.escapes, List.length_map]

/-- Where a `with-cont` ends its continuation is given up. -/
theorem Goes.popCont {r : Cont} {rest : List (Value × Value)}
    (hs : S.sites[pc]? = some (s.site ⟨.popCont, 0, .nil⟩ k)) (hE : E.conts = (x, c) :: rest)
    (next : ∀ t', t.Drifts (v :: S.self.keeps { E with conts := rest }) t' →
      S.Goes book { E with conts := rest } (pc + 1) v t') : S.Goes ((c, r) :: book) E pc v t := by
  rintro w f h rfl rfl rfl
  have hescapes := h.escapes
  have hbooked := h.booked.escapes
  rw [hE] at hescapes
  let s' := (w.state.atPc (w.state.machine.pc + 1)).dropped (w.state.machine.conts.size - 1)
  have hstep : step w.state = .ok false s' := by
    rw [h.step_eq hs]
    simp only [execute, act_bind, act_gets, dropConts_eq]
    rfl
  have hleft : s'.machine.escapes = (rest.map (·.2) ++ C.escapes S.frames) := by
    have hshrink : w.state.machine.conts.toList.reverse
      = [c] ++ (rest.map (·.2) ++ C.escapes S.frames) := hescapes
    have hsize := congrArg List.length hshrink
    simp only [List.length_reverse, Array.length_toList, List.length_append, List.length_singleton]
      at hsize
    change (w.state.machine.conts.shrink (w.state.machine.conts.size - 1)).toList.reverse = _
    rw [hsize, Nat.add_sub_cancel_left, ← List.length_append]
    exact Machine.shrink_of_reverse hshrink
  have hnames : s'.machine.escapes = book.map (·.1) := by
    rw [hleft]
    exact (List.cons.inj (hescapes.symm.trans hbooked)).2
  obtain ⟨w', f', hw', hworks, -⟩ : ∃ w' f', w'.state = s' ∧
      S.Works book { E with conts := rest } w' f' ∧ Traced ⟨.popCont, 0, .nil⟩ w.state s' :=
    h.next hs rfl hstep rfl rfl (show _ = Env.frame { E with conts := rest } _ _ ++ _ from h.slots)
      rfl hleft hnames fun p hp => .inl (List.mem_cons_of_mem _ hp)
  have hzero : (s'.heap.cell 0).isFree = true := hw' ▸ w'.wellFormed.heap.pool.zero
  have hretains (A : List Value) : Heap.Retains A w.heap s'.heap :=
    State.retains_dropped A (w.state.atPc (w.state.machine.pc + 1)) _
  refine .next hstep (hw' ▸ next s'.store ⟨⟨hretains _,
    ⟨_, w.state.world.log, rfl⟩, w.wellFormed.heap.pool.zero, hzero⟩, rfl⟩ w' f' hworks
      (by rw [hw']; rfl) (by rw [hw']; rfl) (by rw [hw']))

/-! ## Exits -/

/-- The frame of the procedure is still in a pile, with what it has in `E` and maybe more; if it
has been left by a tail call, those below it are. -/
def Held (S : Stage C) (tail : Bool) (E : Env) (pile : List Frame) : Prop :=
  if tail then ∃ gs, pile = gs ++ S.frames
  else ∃ gs f E', pile = gs ++ f :: S.frames ∧ S.Has E' f ∧ E.Above E'

/-- Wherever an exit is made that leads below the frames on top of the procedure's, the run
finishes. -/
def Escapes (S : Stage C) (tail : Bool) (book : Book) (E : Env) (c v : Value) (t : State) : Prop :=
  ∀ w pile newer ins, C.Comes w pile → S.Held tail E pile → Booked w.state (newer ++ book) →
    w.heap.instr? w.state.machine.code w.state.machine.pc = some ins → ins.op.exits = true →
    step w.state = (do
      exitTo c v
      return false) (w.state.atPc (w.state.machine.pc + 1)) →
    w.state.store = t → C.Finishes w.state

theorem Held.frames {tail : Bool} {pile : List Frame} (h : S.Held tail E pile) :
    ∃ gs, pile = gs ++ S.frames := by
  cases tail with
  | true => exact h
  | false =>
      obtain ⟨gs, f, E', rfl, -, -⟩ := h
      exact ⟨gs ++ [f], by simp⟩

theorem Held.of_above {tail : Bool} {pile : List Frame} (h : S.Held tail E' pile)
    (hE : E.Above E') : S.Held tail E pile := by
  cases tail with
  | true => exact h
  | false =>
      obtain ⟨gs, f, E'', rfl, hhas, habove⟩ := h
      exact ⟨gs, f, E'', rfl, hhas, hE.trans habove⟩

theorem Escapes.of_above {tail : Bool} (h : S.Escapes tail book E c v t) (hE : E.Above E') :
    S.Escapes tail book E' c v t :=
  fun w pile newer ins hcomes hheld => h w pile newer ins hcomes (hheld.of_above hE)

theorem Escapes.of_tail {tail : Bool} (h : S.Escapes true book E c v t) :
    S.Escapes tail book E' c v t :=
  fun w pile newer ins hcomes hheld => h w pile newer ins hcomes hheld.frames

theorem Escapes.newer (h : S.Escapes false book E c v t) (p : Value × Cont) :
    S.Escapes false (p :: book) E c v t := fun w pile newer ins hcomes hheld hbooked =>
  h w pile (newer ++ [p]) ins hcomes hheld (by simpa using hbooked)

theorem Works.held (h : S.Works book E w f) (tail : Bool) : S.Held tail E (f :: S.frames) := by
  cases tail with
  | true => exact ⟨[f], rfl⟩
  | false => exact ⟨[], f, E, rfl, h.has, .refl E⟩

/-- A continuation that is in force has its record. -/
theorem Works.mem_inForce_iff (h : S.Works book E w f) :
    c ∈ S.self.inForce E ↔ c ∈ w.state.machine.conts.toList := by
  rw [Self.inForce, S.live, ← h.escapes, Machine.escapes, List.mem_reverse]

theorem exit_op {ps : List Value} (hscope : Scoped S.self ps s E) (hx : S.self.cont? E t x = some c) :
    (exitInstr s x).op.exits = true := by
  rcases hscope.cont hx with ⟨n, hn, -⟩ | ⟨i, a, hn, -, -⟩ <;> simp only [exitInstr, hn] <;> rfl

theorem Works.step_exit {ps : List Value} (h : S.Works book E w f)
    (hs : S.sites[w.state.machine.pc]? = some (s.site (exitInstr s x) k))
    (hscope : Scoped S.self ps s E) (hx : S.self.cont? E w.state.store x = some c) :
    step w.state = (do
      exitTo c w.state.machine.val
      return false) (w.state.atPc (w.state.machine.pc + 1)) := by
  rw [h.step_eq hs]
  rcases hscope.cont hx with ⟨n, hn, hget⟩ | ⟨i, a, hn, ha, hget⟩
  · have hcont : (w.state.atPc (w.state.machine.pc + 1)).machine.cont? n = some c := by
      change w.state.machine.cont? n = some c
      rw [Machine.cont?_eq, h.escapes,
        List.getElem?_append_left (List.getElem?_eq_some_iff.1 hget).1, hget]
    simp only [exitInstr, hn, execute, act_bind, act_gets, hcont, require]
    rfl
  · simp only [exitInstr, hn, execute, act_bind, h.envRef ha hget]
    rfl

/-- An element of an array is there. -/
theorem holds_item {a : Value} {i : Nat} (hu : w.heap.item? a i = some u) : w.heap.Holds u := by
  obtain ⟨b, hb, hi⟩ := Option.bind_eq_some_iff.1 hu
  unfold Heap.array? at hb
  split at hb
  · rename_i j _
    split at hb
    · rename_i hc
      cases hb
      refine (w.typed.heap.wf.sound j (by rw [hc]; rfl)).values u ?_
      rw [hc, Heap.references]
      simp only [Cell.block?, List.mem_append]
      left
      cases hp : w.heap.payload b with
      | values vs =>
          rw [hp] at hi
          exact Array.mem_toList_iff.2 (Array.mem_of_getElem? hi)
      | _ => rw [hp] at hi; simp [Payload.items] at hi
    · cases hb
  · cases hb

theorem Goes.exit {ps : List Value} (hs : S.sites[pc]? = some (s.site (exitInstr s x) k))
    (hscope : Scoped S.self ps s E) (hx : S.self.cont? E t x = some c)
    (hc : (t.heap.cont? c).isSome) (tail : Bool)
    (hin : c ∈ S.self.inForce E → S.Escapes tail book E c v t)
    (hout : c ∉ S.self.inForce E → ∀ s : State, s.store = t → C.refusal .exitedCont s) :
    S.Goes book E pc v t := by
  rintro w f h rfl rfl rfl
  have hstep := h.step_exit hs hscope hx
  by_cases hforce : c ∈ S.self.inForce E
  · exact hin hforce w _ [] _ h.comes (h.held tail) h.booked (h.instr? hs) (exit_op hscope hx) hstep
      rfl
  · -- its record says that it has been left
    obtain ⟨r, hr⟩ := Option.isSome_iff_exists.1 hc
    have hholds : w.heap.Holds c := by
      rcases hscope.cont hx with ⟨n, -, hget⟩ | ⟨j, a, -, -, hget⟩
      · refine absurd ?_ hforce
        exact List.mem_append_left _ (List.mem_of_getElem? hget)
      · exact holds_item hget
    obtain ⟨i, rfl, -, hcell⟩ := exists_ref_of_cont? hholds hr
    have hleft : r.exited = true := by
      cases he : r.exited with
      | true => rfl
      | false => exact absurd (h.mem_inForce_iff.2 (w.typed.conts i r hcell he)) hforce
    have hfails : step w.state
        = .error (.error .exitedCont) (w.state.atPc (w.state.machine.pc + 1)) := by
      rw [hstep, act_bind,
        exitTo_of_left rfl (show (w.state.atPc _).heap.cont? _ = some r from hr) hleft]
    exact .fails hfails (.inr (hout hforce _ rfl))

/-- A frame has as many words whatever the values of its variables are. -/
theorem size_of_like (S : Stage C) (hE : E.Like E') : S.size E' = S.size E := by
  simp only [size, Env.frame, List.length_append, List.length_map, hE.length_words,
    hE.length_params]

/-- An exit to a continuation in force leaves what there was when that was established. -/
theorem step_exited {s : State} {r : Cont} {newer older above rest : List Value}
    (hstep : step s = (do
      exitTo c v
      return false) (s.atPc (s.machine.pc + 1)))
    (hc : c.object?.isSome = true) (hrecord : s.heap.cont? c = some r) (hlive : r.exited = false)
    (hescapes : s.machine.escapes = newer ++ c :: older) (hdepth : r.depth.toNat = older.length)
    (hslots : s.machine.slots = above ++ rest) (hsp : r.sp.toNat = rest.length) :
    step s = .ok false ((s.atPc (s.machine.pc + 1)).exited r v) ∧
      ((s.atPc (s.machine.pc + 1)).exited r v).machine.slots = rest ∧
      ((s.atPc (s.machine.pc + 1)).exited r v).machine.escapes = older := by
  refine ⟨?_, ?_, ?_⟩
  · have hentry : s.machine.conts[r.depth.toNat]? = some c := by
      rw [hdepth]
      exact Machine.getElem?_of_reverse hescapes
    have hle : r.sp.toNat ≤ s.machine.stack.size := by
      rw [← Machine.length_slots, hslots, hsp]
      simp only [List.length_append]
      omega
    have hexit : exitTo c v (s.atPc (s.machine.pc + 1))
        = .ok () ((s.atPc (s.machine.pc + 1)).exited r v) :=
      exitTo_of_live hc hrecord hlive hentry hle
    rw [hstep, act_bind, hexit]
    rfl
  · change (s.machine.truncate r.sp.toNat).slots = _
    rw [hsp]
    exact Machine.slots_truncate hslots
  · have hshrink : s.machine.conts.toList.reverse = (newer ++ [c]) ++ older := by
      rw [List.append_assoc]
      exact hescapes
    change (s.machine.conts.shrink r.depth.toNat).toList.reverse = _
    rw [hdepth]
    exact Machine.shrink_of_reverse hshrink

/-- Where the frames are as deep again as the procedure's was, it is that frame that goes on. -/
theorem exists_frame_back {w w' : System} {gs pile : List Frame} {f : Frame} {ins : Instr}
    (hcomes : C.Comes w (gs ++ f :: S.frames)) (hunder : C.Comes w' pile)
    (hadvances : Advances ins.op w'.state.machine.place (gs ++ f :: S.frames) pile)
    (hexits : ins.op.exits = true)
    (hfp : w'.state.machine.fp = f.base S.frames C.start.state.machine) :
    ∃ g, pile = g :: S.frames ∧ g.proc = f.proc ∧ g.args.length = f.args.length := by
  have hunderneath : Frame.Under { f with dyns := [] } S.frames (gs ++ f :: S.frames) :=
    ⟨gs, f, rfl, rfl, rfl, List.nil_suffix⟩
  obtain ⟨gs', g, rfl, hproc, hargs, -⟩ := hunderneath.advances hadvances hcomes.stands
    hunder.stands (fun _ => givesUp_of_exits hexits) (Nat.le_of_eq hfp.symm)
    (fun _ _ _ => Nat.zero_le _)
  obtain rfl := hunder.stands.base_eq (hfp.trans (by rw [Frame.base, Frame.base, hargs]))
  exact ⟨g, rfl, hproc, hargs⟩

/-- An exit to a continuation that the procedure has established brings its frame back to what it
was then, but for the values that its variables have got since. -/
theorem Marks.escapes {dyns : Nat} {r : Cont} (hr : S.Marks E dyns book.length n r)
    (hnames : book.map (·.1) = E.conts.map (·.2) ++ C.escapes S.frames)
    (hE : (E.establish x c).Onto E')
    (next : ∀ t', (t.unwound dyns).Drifts (v :: S.self.keeps (E'.cut E)) t' →
      S.Goes book (E'.cut E) n v t') : S.Escapes false ((c, r) :: book) E' c v t := by
  rintro w pile newer ins hcomes ⟨gs, f, E'', rfl, hhas, habove⟩ hbooked hins hexits hstep rfl
  have honto : E.Onto E' := (E.above_establish x c).onto.trans hE
  have hlike := honto.like_cut
  have hcut : E''.cut E = E'.cut E := habove.cut_cut honto
  let E₁ := E'.cut E
  -- the record is in force, and the frame has at least the words that it says
  obtain ⟨hrecord, hlive⟩ := hbooked.records (c, r) (by simp)
  have hescapes : w.state.machine.escapes = newer.map (·.1) ++ c :: book.map (·.1) := by
    rw [hbooked.escapes, List.map_append, List.map_cons]
  obtain ⟨i, hc, -, -⟩ := exists_ref_of_cont? (w.wellFormed.holds_of_conts
    (List.mem_reverse.1 (show c ∈ w.state.machine.escapes by rw [hescapes]; simp))) hrecord
  have habove_params : E₁.params = E''.params := habove.params.symm
  have hslots : ∃ above, w.state.machine.slots
      = above ++ (E₁.frame S.self.array f.saved ++ C.words S.frames) := by
    obtain ⟨above, habove⟩ := (Env.above_cut E'' E).exists_words
    refine ⟨gs.flatMap Frame.slots ++ above, ?_⟩
    rw [hcomes.stands.shows.slots, slotsOf_append, slotsOf, List.flatMap_cons, hhas.slots, Env.frame,
      habove, hcut, Env.frame, show E₁.params = E''.params from habove_params]
    simp only [List.append_assoc]
    rfl
  obtain ⟨above, hslots⟩ := hslots
  have hsp : r.sp.toNat = (E₁.frame S.self.array f.saved ++ C.words S.frames).length := by
    rw [hr.sp, List.length_append, S.length_frame, S.size_of_like hlike]
  obtain ⟨hexit, hleft, hleft'⟩ := step_exited hstep (by rw [hc]; rfl) hrecord hlive hescapes
    (by rw [hr.depth, List.length_map]) hslots hsp
  obtain ⟨ins', w', pile, hins', hw', hstepped, hunder, hadvances⟩ :=
    hcomes.next C.ground (C.tame _ (permits_of_exits hins hexits)) hexit
  obtain rfl := Option.some.inj (hins'.symm.trans hins)
  -- it is the frame of the procedure that goes on
  have hfp : w'.state.machine.fp = f.base S.frames C.start.state.machine := by
    rw [hw', Frame.base, hhas.args, ← habove_params, hlike.length_params]
    exact hr.fp
  obtain ⟨g, rfl, hproc, hargs⟩ := exists_frame_back hcomes hunder hadvances hexits hfp
  have hback : g.back = S.back := Lodged.back_eq ⟨gs, f, rfl, hhas.back⟩ hadvances
  have hsaved : g.saved = f.saved := by rw [Frame.saved, Frame.saved, hback, hhas.back]
  -- and it has what it had then
  rw [← hw'] at hleft hleft'
  have hworks : S.Works book E₁ w' g := by
    refine ⟨hunder, ⟨?_, ?_, ?_, ?_, hback⟩, ?_, hbooked.cont
      (fun v hv => w.wellFormed.holds_of_conts hv) hstepped.toTraced hleft' fun p hp => .inl ?_⟩
    · rw [hproc, hhas.instrs]
    · have hshows := hunder.stands.shows.slots
      rw [slotsOf, List.flatMap_cons, List.append_assoc] at hshows
      rw [hsaved]
      exact List.append_cancel_right (hshows.symm.trans hleft)
    · rw [hargs, hhas.args, habove_params]
    · have hshows := hunder.stands.shows.escapes
      rw [escapesOf_cons] at hshows
      refine List.append_cancel_right (hshows.symm.trans (hleft'.trans ?_))
      rw [hnames, show E₁.conts = E.conts from hlike.conts]
    · rw [hw']
      exact hr.code
    · exact List.mem_append_right _ (List.mem_cons_of_mem _ hp)
  have hdrifts := State.drifts_exited (s := w.state.atPc (w.state.machine.pc + 1))
    (A := v :: S.self.keeps E₁) (k := r) (v := v) w.wellFormed.heap.pool.zero
  rw [hr.dynDepth] at hdrifts
  refine .next (hw' ▸ hexit) (next _ hdrifts w' g hworks ?_ ?_ ?_)
  · rw [hw']
    exact hr.pc
  · rw [hw']
    rfl
  · rw [hw']

end Stage

end Reference
end CellLisp
