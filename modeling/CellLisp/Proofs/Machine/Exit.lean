import CellLisp.Proofs.Machine.Execute
import CellLisp.Proofs.State.Placing

/-!
# `CellLisp.Proofs.Machine.Exit` — instructions on continuations and dynamic bindings

A continuation is in force as soon as its cell is there.  The records of those in force say at
which depth they stand, so no two of them are the same, and one that has not been left is found
at its depth.  An exit to it goes back to the frame that established it (`exists_frame`);
whatever lies above is undone.
-/

namespace CellLisp

/-! ## Establishing -/

section Establish

variable {w w' : System} {mode : Mode} {d : Nat} {o : System}

theorem Heap.take_eq (h : Heap) (c c' : Cell) :
    h.take c = ((h.take c').1, match (h.take c').1 with
      | some i => (h.take c').2.set i c
      | none => h) := by
  unfold take
  split
  · rfl
  · split
    · simp [Heap.set]
    · rfl

theorem Heap.ne_zero_of_take {h : Heap} {c : Cell} {i : Nat} (ht : (h.take c).1 = some i) :
    i ≠ 0 := by
  unfold take at ht
  split at ht
  · cases ht
  · rename_i hne
    split at ht
    · obtain rfl := Option.some.inj ht
      exact hne
    · cases ht

/-- A continuation is placed as if it had been left, and then put in force. -/
theorem placeCell_cont (k : Cont) (s : State) :
    placeCell (.cont k) s = (do
      let v ← placeCell (.cont k.left)
      modifyHeap (·.set (v.cell?.getD 0) (.cont k))
      return v) s := by
  have htake := s.heap.take_eq (.cont k) (.cont k.left)
  rw [act_bind, placeCell_eq, placeCell_eq]
  cases hi : (s.heap.take (.cont k.left)).1 with
  | none =>
      rw [htake, hi]
      have : (s.heap.take (.cont k.left)).2 = s.heap :=
        Heap.eq_of_take_none (Prod.ext hi rfl)
      simp only [this]
      rfl
  | some i =>
      have hcell : (Value.ref (Cell.cont k).tag i).cell? = some i :=
        Value.cell?_eq_some_iff.2 ⟨_, rfl, Heap.ne_zero_of_take hi⟩
      rw [htake, hi]
      simp only [show (Cell.cont k.left).tag = (Cell.cont k).tag from rfl]
      rw [act_bind, act_modifyHeap, hcell]
      rfl

theorem allocCell_cont (k : Cont) (s : State) :
    allocCell (.cont k) s = (do
      let v ← allocCell (.cont k.left)
      modifyHeap (·.set (v.cell?.getD 0) (.cont k))
      return v) s := by
  rw [act_bind, allocCell_eq, allocCell_eq, placeCell_cont, act_bind]
  rfl

/-- A continuation has been put in force; `w₁` is the system once there is a cell for it. -/
structure Opened (m : Mode) (d n : Nat) (w w₁ w' : System) (i : Nat) : Prop where
  stable : Stable m.rigid d w w₁
  inPlace : InPlace w₁ w'
  fresh : ¬w.heap.Reachable w.state.rootValues i
  pos : i ≠ 0
  cells : ∀ j, w'.heap.cell j =
    if j = i then .cont (w.state.machine.toCont n) else w₁.heap.cell j
  machine : w'.state.machine = { w.state.machine with
    conts := w.state.machine.conts.push (.ref .object i) }

/-- A cell that nothing refers to holds no continuation in force. -/
theorem System.not_mem_conts {i : Nat} (hfresh : ¬w.heap.Reachable w.state.rootValues i)
    (hi : i ≠ 0) : .ref .object i ∉ w.state.machine.conts.toList := fun hmem => by
  refine hfresh (.root (State.mem_rootValues_of_machine ?_) (Value.cell?_eq_some_iff.2 ⟨.object, rfl, hi⟩))
  exact Machine.mem_values_of_escapes (List.mem_reverse.2 hmem)

theorem Opened.traced {n i : Nat} {w₁ : System} {ins : Instr} (h : Opened mode d n w w₁ w' i)
    (hop : ins.op = .withCont) (hrec : (w.state.machine.toCont n).Records w.state.machine
      ins.operand.word) : Traced ins w.state w'.state where
  conts := .inr ⟨_, by rw [h.machine], hop, i, _, rfl, h.fresh, (h.cells i).trans (if_pos rfl), hrec,
    by rw [h.machine]⟩
  dyns := by
    rw [h.machine]
    exact .refl _
  keeps := fun _ => ⟨[], by rw [h.machine, List.append_nil]⟩
  records := fun j k hj _ hk => by
    have hne : j ≠ i := fun he => System.not_mem_conts h.fresh h.pos (he ▸ hj)
    refine ((h.cells j).trans (if_neg hne)).trans ?_
    exact (Quiet.of_rigid h.stable).records j k hj hk

/-- A continuation is established. -/
theorem leads_establish {n : Nat} {ins : Instr} (habove : o.state.machine.Above w.state.machine)
    (hop : ins.op = .withCont)
    (hrec : (w.state.machine.toCont n).Records w.state.machine ins.operand.word) :
    Leads (Stepped mode d o ins) (establish n) w fun _ w' => ∃ i w₁, Opened mode d n w w₁ w' i := by
  have hs : w.Storable none (.cont (w.state.machine.toCont n).left) := by
    refine ⟨Heap.placeable_of_values rfl rfl fun v hv => ?_, trivial⟩
    obtain rfl : v = w.state.machine.code := by
      simpa [Cell.values, Machine.toCont, Cont.left] using hv
    exact w.takes.code
  have hsteps : Leads (Stepped mode d o ins) (do
      let v ← allocCell (.cont (w.state.machine.toCont n).left)
      modifyMachine fun m => { m with conts := m.conts.push v }
      modifyHeap (·.set (v.cell?.getD 0) (.cont (w.state.machine.toCont n)))) w fun _ w' =>
      ∃ i w₁, Opened mode d n w w₁ w' i := by
    refine Leads.bindFrom (leads_allocCell hs rfl).stable.rigid (fun _ => Calm.stepped) ?_
    rintro v w₁ hcalm ⟨hstable, hgrown, hplaced⟩
    obtain ⟨i, hi, rfl, hcell, -, hfresh⟩ := hplaced.exists_index
    have hcell? : (Value.ref .object i).cell? = some i := Value.cell?_eq_some_iff.2 ⟨_, rfl, hi⟩
    have hmachine : w₁.state.machine = w.state.machine := hgrown.machine
    have hadm : w₁.Admits { w₁.state.machine with
        conts := w₁.state.machine.conts.push (.ref .object i) } := by
      refine System.admits_of_values (fun v hv => ?_) (List.Subset.refl _) ?_ rfl
      · simp only [Machine.values, Array.toList_push, List.mem_append, List.mem_singleton] at hv ⊢
        rcases hv with hv | hv | rfl
        · exact .inl (.inl hv)
        · exact .inl (.inr hv)
        · refine .inr ?_
          rintro _ _ ⟨⟩ -
          rw [hcell]
          exact ⟨rfl, rfl⟩
      · rw [Array.toList_push]
        exact List.subset_append_left _ _
    have hran : Ran mode d o w₁ (w₁.withMachine _ hadm) := by
      refine .of_machine hadm ?_ rfl
      rw [hmachine]
      refine ⟨habove.slots, habove.escapes.trans ⟨[.ref .object i], ?_⟩⟩
      simp [Machine.escapes]
    have hmoves : InPlace w₁ (w₁.withMachine _ hadm) := System.Moves.inPlace ⟨rfl, rfl⟩
    have hopen : Leads (Ran mode d o) (do
        modifyMachine fun m => { m with conts := m.conts.push (.ref .object i) }
        modifyHeap (·.set ((Value.ref .object i).cell?.getD 0)
          (.cont (w.state.machine.toCont n)))) w₁ fun _ w' => Opened mode d n w w₁ w' i := by
      refine Leads.bind (Leads.change (u := w₁.withMachine _ hadm) rfl hran (Q := fun _ w' =>
        w' = w₁.withMachine _ hadm) rfl) ?_
      rintro _ _ - rfl
      rw [hcell?, Option.getD_some]
      refine (leads_setCont (w := w₁.withMachine _ hadm) hcell
        (show ∃ exited, w.state.machine.toCont n = { (w.state.machine.toCont n).left with exited } from
          ⟨false, rfl⟩) (.inr ?_)).mono ?_
      · change _ ∈ (w₁.state.machine.conts.push (.ref .object i)).toList
        simp
      · rintro _ w' - ⟨hplace, hm, hcells⟩
        refine ⟨hstable, hmoves.trans hplace, fun hr => hfresh (hr.mono (by simp)), hi, hcells, ?_⟩
        rw [hm, ← hmachine]
        rfl
    refine hopen.sure rfl fun w' hr hopened => ⟨?_, i, w₁, hopened⟩
    exact { Follows.trans hcalm.toRan hr, hopened.traced hop hrec with }
  refine hsteps.congr ?_
  unfold establish
  change (allocCell (.cont (w.state.machine.toCont n)) >>= fun v =>
    modifyMachine fun m => { m with conts := m.conts.push v }) w.state = _
  rw [act_bind, allocCell_cont, act_bind, act_bind]
  cases allocCell (.cont (w.state.machine.toCont n).left) w.state <;> rfl

end Establish

/-! ## Exiting -/

section Exit

variable {w w' : System} {mode : Mode} {d : Nat} {o : System} {base : Machine} {fs gs hs : List Frame}
  {f g : Frame} {r : Return} {val? : Option Kind}

/-- The frame that an element of one of the stacks belongs to. -/
theorem exists_frame {α : Type} {p : Frame → List α} {xs ys : List α} {x : α}
    (h : fs.flatMap p = xs ++ x :: ys) :
    ∃ gs g hs us vs, fs = gs ++ g :: hs ∧ p g = us ++ x :: vs ∧ xs = gs.flatMap p ++ us ∧
      ys = vs ++ hs.flatMap p := by
  induction fs generalizing xs with
  | nil => cases xs <;> cases h
  | cons f fs ih =>
      rw [List.flatMap_cons, List.append_eq_append_iff] at h
      rcases h with ⟨zs, rfl, h⟩ | ⟨zs, hf, h⟩
      · obtain ⟨gs, g, hs, us, vs, rfl, hg, rfl, rfl⟩ := ih h
        exact ⟨f :: gs, g, hs, us, vs, rfl, hg, by simp, rfl⟩
      · cases zs with
        | nil =>
            rw [List.nil_append] at h
            obtain ⟨gs, g, hs, us, vs, rfl, hg, hxs, rfl⟩ := ih (show fs.flatMap p = [] ++ x :: ys by simpa using h.symm)
            refine ⟨f :: gs, g, hs, us, vs, rfl, hg, ?_, rfl⟩
            rw [List.append_nil] at hf
            rw [List.flatMap_cons, List.append_assoc, ← hxs, hf, List.append_nil]
        | cons z zs =>
            obtain ⟨rfl, rfl⟩ := List.cons.inj h
            exact ⟨[], f, fs, xs, zs, rfl, hf, by simp, rfl⟩

theorem Machine.exists_of_getElem? {α : Type} {xs : Array α} {n : Nat} {x : α}
    (h : xs[n]? = some x) : ∃ u l, xs.toList.reverse = u ++ x :: l ∧ l.length = n := by
  obtain ⟨hn, rfl⟩ := Array.getElem?_eq_some_iff.1 h
  refine ⟨(xs.toList.drop (n + 1)).reverse, (xs.toList.take n).reverse, ?_, ?_⟩
  · conv_lhs => rw [← List.take_append_drop n xs.toList, List.drop_eq_getElem_cons (by simpa using hn)]
    simp
  · simp
    omega

theorem Chained.drop (h : Chained w base (gs ++ hs) r val?) :
    ∃ r' val', Chained w base hs r' val' := by
  induction gs generalizing r val? with
  | nil => exact ⟨r, val?, h⟩
  | cons g gs ih => exact ih h.2.2.2

/-- The label of a continuation of a frame. -/
theorem Established.exists_label {code v : Value} {fp below dyns older : Nat} {us vs : List Value} :
    {labels : List Label} → Established w code fp below dyns older labels (us ++ v :: vs) →
      ∃ ks k rest, labels = ks ++ k :: rest ∧ ContOk w code fp below dyns (vs.length + older) k v ∧
        Established w code fp below dyns older rest vs := by
  induction us with
  | nil =>
      intro labels h
      cases labels with
      | nil => exact h.elim
      | cons k rest => exact ⟨[], k, rest, rfl, h⟩
  | cons u us ih =>
      intro labels h
      cases labels with
      | nil => exact h.elim
      | cons k rest =>
          obtain ⟨ks, k', rest', rfl, h'⟩ := ih h.2
          exact ⟨k :: ks, k', rest', rfl, h'⟩

theorem Nested.drop {l : List Site} {ops : List Kind} {dyns : Nat} {ks rest : List Label} {k : Label}
    (h : Nested l ops dyns (ks ++ k :: rest)) :
    k.ops <:+ ops ∧ k.dyns ≤ dyns ∧ Arrives l k.target ⟨some .any, k.ops, rest, k.dyns⟩ := by
  induction ks generalizing ops dyns with
  | nil => exact ⟨h.1, h.2.1, h.2.2.1⟩
  | cons j ks ih =>
      obtain ⟨hops, hdyns, -, hrest⟩ := h
      obtain ⟨hops', hdyns', harrives⟩ := ih hrest
      exact ⟨hops'.trans hops, Nat.le_trans hdyns' hdyns, harrives⟩

/-- What a continuation of a frame goes back to: a place of the frame's code, with the older part
of what it has. -/
theorem FrameOk.exists_resumption {us vs : List Value} {v : Value} (h : FrameOk w base hs r g)
    (hv : g.conts = us ++ v :: vs) :
    ∃ k, ContOk w r.code r.fp (g.below ++ slotsOf hs base).length (bindingsOf hs base).length
        (vs.length + (escapesOf hs base).length) k v ∧
      ∃ ops dyns, ops <:+ g.ops ∧ ops.length = k.ops.length ∧ dyns <:+ g.dyns ∧
        dyns.length = k.dyns ∧ ∃ shape, shape.val = some .any ∧
          FrameOk w base hs { r with pc := k.target }
            { g with shape := shape, ops := ops, conts := vs, dyns := dyns } := by
  have hconts := h.conts
  rw [hv] at hconts
  obtain ⟨ks, k, rest, hlabels, hcont, hrest⟩ := hconts.exists_label
  obtain ⟨s, hs, hforget, -, -⟩ := h.at_site
  have hnested := h.verified.nested s (List.mem_of_getElem? hs)
  obtain ⟨-, hsops, hslabels, hsdyns⟩ := Shape.mk.inj hforget
  rw [hsops, hslabels, hsdyns, hlabels] at hnested
  obtain ⟨hops, hdyns, harrives⟩ := hnested.drop
  have hlen := h.length_ops
  have hlenD := h.dyns
  refine ⟨k, hcont, g.ops.drop (g.ops.length - k.ops.length), g.dyns.drop (g.dyns.length - k.dyns),
    List.drop_suffix _ _, ?_, List.drop_suffix _ _, ?_, _, rfl,
    h.move harrives ?_ hrest ?_⟩
  · have := hops.length_le
    rw [List.length_drop]
    omega
  · rw [List.length_drop]
    omega
  · have hkops : k.ops = g.shape.ops.drop (g.ops.length - k.ops.length) := by
      rw [hlen]
      exact List.suffix_iff_eq_drop.1 hops
    have hdrop := List.forall₂_drop (g.ops.length - k.ops.length) h.ops
    rwa [← hkops] at hdrop
  · change _ = k.dyns
    rw [List.length_drop]
    omega

theorem Heap.cont?_eq_some {h : Heap} {v : Value} {k : Cont} (hk : h.cont? v = some k) :
    ∃ i, v.cell? = some i ∧ h.cell i = .cont k := by
  unfold cont? at hk
  split at hk
  · rename_i k' hcell
    obtain rfl := Option.some.inj hk
    exact Option.map_eq_some_iff.1 hcell
  · cases hk

/-- What an exit looks up is the record of a continuation. -/
theorem Heap.exists_target {h : Heap} {v : Value} {k : Cont}
    (hk : (if v.object?.isSome then h.cont? v else none) = some k) :
    ∃ i, v = .ref .object i ∧ h.cell i = .cont k ∧ h.cont? v = some k := by
  obtain ⟨htarget, hk⟩ : v.object?.isSome = true ∧ h.cont? v = some k := by
    split at hk
    · exact ⟨‹_›, hk⟩
    · cases hk
  obtain ⟨i, hi, hcell⟩ := cont?_eq_some hk
  obtain ⟨tag, rfl, -⟩ := Value.cell?_eq_some_iff.1 hi
  obtain rfl : tag = .object := by cases tag <;> first | rfl | cases htarget
  exact ⟨i, rfl, hcell, hk⟩

/-! ### Where continuations in force stand -/

theorem nodup_of_rank {α : Type} {R : α → Nat → Prop} (hone : ∀ x m n, R x m → R x n → m = n)
    {xs : List α} (h : ∀ us x vs, xs = us ++ x :: vs → R x vs.length) : xs.Nodup := by
  induction xs with
  | nil => exact .nil
  | cons x xs ih =>
      refine List.nodup_cons.2 ⟨fun hmem => ?_, ih fun us y vs he => h (x :: us) y vs (by rw [he]; rfl)⟩
      obtain ⟨us, vs, he⟩ := List.append_of_mem hmem
      have hlow := h (x :: us) x vs (by rw [he]; rfl)
      have hhigh := h [] x xs rfl
      have := hone x _ _ hlow hhigh
      rw [he] at this
      simp at this
      omega

/-- The frames that a continuation in force goes back to, with `vs` the older ones. -/
structure Resumption (w : System) (base : Machine) (fs : List Frame) (vs : List Value) (k : Cont)
    (fs' : List Frame) : Prop where
  depth : k.depth.toNat = vs.length + base.conts.size
  sp : k.sp.toNat = (slotsOf fs' base).length
  dynDepth : k.dynDepth.toNat = (bindingsOf fs' base).length
  chained : Chained w base fs' ⟨k.code, k.pc.toNat, k.fp.toNat⟩ (some .any)
  conts : fs'.flatMap Frame.conts = vs
  slots : slotsOf fs' base <:+ slotsOf fs base
  bindings : bindingsOf fs' base <:+ bindingsOf fs base
  frames : ∃ gs g hs g', fs = gs ++ g :: hs ∧ g.Becomes g' ∧ g'.dyns <:+ g.dyns ∧ fs' = g' :: hs

/-- Every continuation in force goes back to frames. -/
def Resumable (w : System) (base : Machine) (fs : List Frame) : Prop :=
  ∀ us v vs, fs.flatMap Frame.conts = us ++ v :: vs → ∃ i k fs', v = .ref .object i ∧ i ≠ 0 ∧
    w.heap.cell i = .cont k ∧ Resumption w base fs vs k fs'

theorem Chained.resumable (h : Chained w base fs r val?) : Resumable w base fs := by
  intro us v vs hflat
  obtain ⟨gs, g, hs, us', vs', rfl, hg, -, rfl⟩ := exists_frame hflat
  obtain ⟨r', val', hok, hfull, -, hrest⟩ := h.drop
  obtain ⟨label, hcont, ops, dyns, hops, hopsLength, hdyns, hdynsLength, shape, hval, hok'⟩ :=
    hok.exists_resumption hg
  obtain ⟨i, k, rfl, hi, hc, hcode, hpc, hfp, hsp, hdynDepth, hdepth⟩ := hcont.record
  have hbecomes : g.Becomes { g with shape, ops, conts := vs', dyns } :=
    ⟨rfl, rfl, rfl, rfl, .inl hdyns⟩
  refine ⟨i, k, { g with shape, ops, conts := vs', dyns } :: hs, rfl, hi, hc, ?_, ?_, ?_, ?_, rfl,
    ?_, ?_, gs, g, hs, _, rfl, hbecomes, hdyns, rfl⟩
  · rw [hdepth, escapesOf, List.length_append, List.length_append, Machine.length_escapes,
      Nat.add_assoc]
  · rw [hsp, ← hopsLength, ← List.length_append, slotsOf_cons]
    rfl
  · rw [hdynDepth, ← hdynsLength, ← List.length_append, bindingsOf_cons]
  · rw [hcode, hpc, hfp]
    exact ⟨hok', hfull, hval, hrest⟩
  · obtain ⟨above, hops⟩ := hops
    refine ⟨gs.flatMap Frame.slots ++ above, ?_⟩
    rw [slotsOf_append, slotsOf_cons, slotsOf_cons, ← hops]
    simp [Frame.below, Frame.saved]
  · obtain ⟨undone, hdyns⟩ := hdyns
    refine ⟨gs.flatMap Frame.dyns ++ undone, ?_⟩
    rw [bindingsOf_append, bindingsOf_cons, bindingsOf_cons, ← hdyns]
    simp

/-- No continuation is in force twice: each stands at the depth that its record says. -/
theorem Resumable.nodup (h : Resumable w base fs) : (fs.flatMap Frame.conts).Nodup := by
  refine nodup_of_rank (R := fun v n => ∃ i k, v = .ref .object i ∧ w.heap.cell i = .cont k ∧
    k.depth.toNat = n + base.conts.size) ?_ fun us x vs he => ?_
  · rintro _ m n ⟨i, k, rfl, hc, hm⟩ ⟨_, _, ⟨⟩, hc', hn⟩
    obtain rfl := Cell.cont.inj (hc.symm.trans hc')
    omega
  · obtain ⟨i, k, fs', hx, -, hc, hres⟩ := h us x vs he
    exact ⟨i, k, hx, hc, hres.depth⟩

/-- A continuation that has not been left stands at its depth. -/
theorem Resumable.exists_live (h : Resumable w base fs) (hshows : Shows w.state.machine fs base)
    (hescapes : base.escapes = []) {i : Nat} {k : Cont} (hc : w.heap.cell i = .cont k)
    (hk : k.exited = false) :
    ∃ us vs fs', w.state.machine.escapes = us ++ .ref .object i :: vs ∧
      vs.length = k.depth.toNat ∧ Resumption w base fs vs k fs' := by
  have hconts : w.state.machine.escapes = fs.flatMap Frame.conts := by
    rw [hshows.escapes, escapesOf, hescapes, List.append_nil]
  have hmem : .ref .object i ∈ fs.flatMap Frame.conts := by
    rw [← hconts, Machine.escapes, List.mem_reverse]
    exact w.typed.conts i k hc hk
  obtain ⟨us, vs, he⟩ := List.append_of_mem hmem
  obtain ⟨j, k', fs', hj, -, hc', hres⟩ := h us _ vs he
  obtain ⟨-, rfl⟩ := Value.ref.inj hj
  obtain rfl := Cell.cont.inj (hc'.symm.trans hc)
  refine ⟨us, vs, fs', hconts.trans he, ?_, hres⟩
  rw [hres.depth, ← Machine.length_escapes, hescapes, List.length_nil, Nat.add_zero]

/-! ### Exits -/

/-- What an exit to a continuation in force does. -/
def leave (k : Cont) (value : Value) : Act Unit := do
  dropConts k.depth.toNat
  unwind k.dynDepth.toNat
  modifyMachine fun m =>
    { (m.truncate k.sp.toNat).resume ⟨k.code, k.pc.toNat, k.fp.toNat⟩ with val := value }

theorem leave_eq (k : Cont) (value : Value) (s : State) :
    leave k value s = .ok () (s.exited k value) := by
  unfold leave
  rw [act_bind, dropConts_eq]
  simp only [act_bind, unwind_eq]
  rfl

/-- An exit to a continuation that has not been left goes back to where it resumes. -/
theorem Resumable.exitTo_eq (h : Resumable w base fs) (hshows : Shows w.state.machine fs base)
    (hescapes : base.escapes = []) {i : Nat} {k : Cont} (hc : w.heap.cell i = .cont k)
    (hk : k.exited = false) (value : Value) :
    exitTo (.ref .object i) value w.state = .ok () (w.state.exited k value) := by
  obtain ⟨us, vs, fs', he, hlength, hres⟩ := h.exists_live hshows hescapes hc hk
  refine exitTo_of_live rfl ?_ hk ?_ ?_
  · have hcell : (Value.ref .object i).cell? = some i :=
      Value.cell?_eq_some_iff.2 ⟨_, rfl, System.ne_zero_of_cont hc⟩
    simp only [Heap.cont?, hcell, Option.map_some, show w.state.heap.cell i = _ from hc]
  · rw [← hlength]
    exact Machine.getElem?_of_reverse he
  · rw [hres.sp, ← Machine.length_slots, hshows.slots]
    exact hres.slots.length_le

/-- An exit leads back to the frame that established the continuation. -/
theorem leads_leave {value : Value} {i : Nat} {k : Cont}
    (hshows : Shows w.state.machine fs o.state.machine)
    (hchained : Chained w o.state.machine fs r val?) (hnative : w.state.machine.native = none)
    (hescapes : o.state.machine.escapes = []) (hvalue : w.Good value)
    (hcell : w.heap.cell i = .cont k) (hk : k.exited = false) :
    Leads (Ran mode d o) (leave k value) w fun _ w' =>
      ∃ gs g hs g', fs = gs ++ g :: hs ∧ g.Becomes g' ∧ g'.dyns <:+ g.dyns ∧
        At w' o.state.machine (g' :: hs) (some .any) := by
  obtain ⟨us, vs, fs', hescapes₁, hlength, hres⟩ := hchained.resumable.exists_live hshows hescapes hcell hk
  obtain ⟨gs, g, hs, g', rfl, hbecomes, holder, rfl⟩ := hres.frames
  obtain ⟨bs, hbindings⟩ := hres.bindings
  obtain ⟨above, hslots⟩ := hres.slots
  rw [← hshows.bindings] at hbindings
  rw [← hshows.slots] at hslots
  rw [List.append_cons] at hescapes₁
  unfold leave
  rw [← hlength, hres.dynDepth, hres.sp]
  refine Leads.bind (leads_dropConts hescapes₁ hshows.above.slots (by rw [hescapes]; exact
    List.nil_suffix)) ?_
  rintro _ w₁ - ⟨hplace₁, hm₁⟩
  refine Leads.bind (leads_unwind (w := w₁) (by rw [hm₁]; exact hbindings.symm) ?_) ?_
  · exact List.suffix_append _ _
  rintro _ w₂ - ⟨hplace₂, hm₂⟩
  have hin := hplace₁.trans hplace₂
  rw [hm₁] at hm₂
  have hslots₂ : w₂.state.machine.slots = _ := (congrArg Machine.slots hm₂).trans hslots.symm
  have hlower := Machine.slots_truncate hslots₂
  refine ((leads_move (u := { (w₂.state.machine.truncate (slotsOf (g' :: hs)
      o.state.machine).length).resume ⟨k.code, k.pc.toNat, k.fp.toNat⟩ with val := value }) rfl
    { w₂.takes with val := (hin.good hvalue).holds, code := ?_, slots := fun v hv => ?_ }
    ⟨?_, ?_⟩).weaken fun _ => Calm.toRan).mono ?_
  · exact SameCell.holds (fun j _ => hin.same j) hres.chained.1.holds
  · change v ∈ (w₂.state.machine.truncate (slotsOf (g' :: hs) o.state.machine).length).slots at hv
    rw [hlower] at hv
    exact w₂.takes.slots v (by rw [hslots₂]; exact List.mem_append_right _ hv)
  · change _ <:+ (w₂.state.machine.truncate _).slots
    rw [hlower]
    exact List.suffix_append _ _
  · rw [hescapes]
    exact List.nil_suffix
  · rintro _ w₃ - hm
    have hmachine := hm.machine
    refine ⟨gs, g, hs, g', rfl, hbecomes, holder, ⟨?_, ?_, ?_, ?_⟩, ?_, fun kind hk => ?_, ?_⟩
    · rw [hmachine]
      exact hlower
    · rw [hmachine, escapesOf, hres.conts, hescapes, List.append_nil]
      change w₂.state.machine.escapes = _
      rw [hm₂]
      exact escapes_left w.state.machine _
    · rw [hmachine]
      change w₂.state.machine.bindings = _
      rw [hm₂, bindings_unwound]
    · rw [hmachine]
      refine Nat.le_trans (Machine.size_truncate_le w₂.state.machine _) ?_
      rw [hm₂]
      exact hshows.room
    · rw [hmachine]
      exact hm.chained (hin.chained hres.chained)
    · obtain rfl := Option.some.inj hk
      rw [hmachine]
      exact hm.good (hin.good hvalue)
    · rw [hmachine]
      change w₂.state.machine.native = none
      rw [hm₂]
      exact hnative

end Exit

end CellLisp
