import CellLisp.Proofs.Machine.Call

/-!
# `CellLisp.Proofs.Machine.Escape` — dynamic bindings and continuations

What is undone on the way out of a procedure, by an exit or after a failure: dynamic bindings
give symbols back the values they displaced, and continuations are marked as left.  Neither
moves a cell or frees one (`InPlace`), so that what is known of the frames stays.
-/

namespace CellLisp

/-- Every cell is as before, but for the global values of symbols and for continuations that
were left. -/
structure InPlace (w w' : System) : Prop where
  plans : w'.plans = w.plans
  known : w'.state.known = w.state.known
  same : ∀ i, SameCell { machine := false, pairs := false } w w' i

section InPlace

variable {w w' w'' : System} {m : Machine}

theorem InPlace.refl (w : System) : InPlace w w := ⟨rfl, rfl, fun i => .refl _ w i⟩

theorem InPlace.trans (h : InPlace w w') (h' : InPlace w' w'') : InPlace w w'' :=
  ⟨h'.plans.trans h.plans, h'.known.trans h.known, fun i => (h.same i).trans (h'.same i)⟩

theorem InPlace.retained (h : InPlace w w') (vs : List Value) : Retained w w' vs :=
  fun _ _ i _ => h.same i

theorem System.Moves.inPlace (h : w.Moves w' m) : InPlace w w' :=
  ⟨h.plans, h.known, fun i => .of_eq (by rw [h.heap]) (fun _ _ => by rw [h.heap])
    (fun _ hp _ => by rw [h.plans]; exact hp) (fun _ hp => by rw [h.plans]; exact hp)
    fun _ _ _ => by rw [h.plans]⟩

theorem InPlace.good {v : Value} (h : InPlace w w') (hv : w.Good v) : w'.Good v :=
  SameCell.good (fun i _ => h.same i) hv

theorem InPlace.isKind {v : Value} {k : Kind} (h : InPlace w w') (hv : w.IsKind v k) :
    w'.IsKind v k :=
  hv.retained (h.retained [v]) (List.mem_singleton_self v) h.known

theorem InPlace.chained {base : Machine} {fs : List Frame} {r : Return} {val? : Option Kind}
    (h : InPlace w w') (hc : Chained w base fs r val?) : Chained w' base fs r val? :=
  hc.retained (h.retained (r.code :: (fs.flatMap Frame.slots ++ fs.flatMap Frame.conts))) h.known
    (by simp) (fun _ hv => by simp [hv]) fun _ hv => by simp [hv]

end InPlace

/-! ## Global values -/

section Values

variable {w w' : System} {mode : Mode} {d : Nat} {o : System} {symbol v : Value}

/-- What lasts holds. -/
theorem Anchored.holds {u : Value} (h : Anchored mode d w.state u) : w.heap.Holds u := by
  obtain ⟨r, hr, hl⟩ := h
  induction hl with
  | refl => exact w.typed.roots _ (State.base_subset mode d _ hr)
  | step _ hc hu ih =>
      exact (w.typed.heap.wf.sound _ (ih.inUse hc)).values _
        (w.heap.mem_references_of_mem_values (Cell.lasting_subset _ _ hu))

/-- A constant symbol is a symbol still. -/
theorem Constant.exists_symbol {i : Nat} (h : Constant mode d o i)
    (hs : Stable mode.loose d o w) : ∃ s, w.heap.cell i = .symbol s := by
  have htag := ((h.anchors hs).holds _ i rfl h.pos).2
  cases hc : w.heap.cell i <;> simp_all [Cell.tag]

theorem Heap.valueAt_modifySymbol {h : Heap} {f : Symbol → Symbol} {i : Nat} {s : Symbol}
    (hs : h.cell i = .symbol s) :
    (h.modifySymbol symbol f).valueAt i
      = if symbol.cell? = some i then (f s).value else s.value := by
  unfold modifySymbol valueAt
  cases hj : symbol.cell? with
  | none => simp [hs]
  | some j =>
      by_cases hji : j = i
      · subst hji
        simp only [hs]
        rw [cell_set_of_inUse (by rw [hs]; rfl), if_pos rfl]
        simp
      · simp only [Option.some.injEq, if_neg hji]
        cases hc : h.cell j with
        | symbol t =>
            simp only
            rw [cell_set_of_inUse (by rw [hc]; rfl), if_neg (Ne.symm hji), hs]
        | free | pair | native | closure | bytecode | cont | array | string | stringStream
        | fileStream => simp only [hs]

/-- Cells other than symbols are left alone. -/
theorem Heap.cell_modifySymbol {h : Heap} {f : Symbol → Symbol} {i : Nat}
    (hi : ∀ s, h.cell i ≠ .symbol s) : (h.modifySymbol symbol f).cell i = h.cell i := by
  unfold modifySymbol
  split
  · split
    · rename_i j _ s hs
      rw [cell_set_of_inUse (by rw [hs]; rfl), if_neg]
      rintro rfl
      exact hi s hs
    · rfl
  · rfl

theorem Heap.valueAt_of_symbol? {h : Heap} {i : Nat} {s : Symbol}
    (hs : h.symbol? symbol = some s) (hi : symbol.cell? = some i) : h.valueAt i = s.value := by
  unfold symbol? at hs
  rw [hi] at hs
  unfold valueAt
  cases hc : h.cell i <;> simp_all

/-- The record of a symbol changes in place. -/
theorem inPlace_modifySymbol {f : Symbol → Symbol} (hplans : w'.plans = w.plans)
    (hstate : w'.state = { w.state with heap := w.heap.modifySymbol symbol f })
    (hnext : ∀ s, (f s).next = s.next) : InPlace w w' := by
  refine ⟨hplans, by rw [hstate], fun i => ?_⟩
  have hrest (j : Nat) (hne : j ≠ i) (hj : (w.heap.cell j).isFree = false) (c : Cell)
      (hheap : w'.heap = w.heap.set j c) :
      SameCell { machine := false, pairs := false } w w' i := by
    refine .of_eq ?_ (fun _ _ => by rw [hheap]; rfl) (fun _ hp _ => by rw [hplans]; exact hp)
      (fun _ hp => by rw [hplans]; exact hp) fun _ _ _ => by rw [hplans]
    rw [hheap, Heap.cell_set_of_inUse hj, if_neg (Ne.symm hne)]
  have hkept (hheap : w'.heap = w.heap) : SameCell { machine := false, pairs := false } w w' i :=
    .of_eq (by rw [hheap]) (fun _ _ => by rw [hheap]) (fun _ hp _ => by rw [hplans]; exact hp)
      (fun _ hp => by rw [hplans]; exact hp) fun _ _ _ => by rw [hplans]
  have hheap : w'.heap = w.heap.modifySymbol symbol f := by rw [System.heap, hstate]
  unfold Heap.modifySymbol at hheap
  split at hheap
  · rename_i j _
    split at hheap
    · rename_i s hs
      by_cases hne : j = i
      · subst hne
        unfold SameCell
        rw [hs]
        refine ⟨f s, ?_, hnext s, by rintro ⟨⟩⟩
        rw [hheap, Heap.cell_set_of_inUse (by rw [hs]; rfl), if_pos rfl]
      · exact hrest j hne (by rw [hs]; rfl) _ hheap
    · exact hkept hheap
  · exact hkept hheap

/-- A symbol gets a global value, unless that is to stay; the bindings of the run are `bs`. -/
theorem leads_setGlobal {bs : List DynBinding} (hv : w.Good v)
    (hbs : w.state.machine.bindings = bs ++ o.state.machine.bindings)
    (hbound : ∀ i, symbol.cell? = some i → mode.fixed i → ∃ b ∈ bs, b.symbol.cell? = some i) :
    Leads (Ran mode d o) (setGlobal symbol v) w fun _ w' =>
      InPlace w w' ∧ w'.state.machine = w.state.machine := by
  have hset : Leads (Stable mode.loose d) (setGlobal symbol v) w fun _ w' =>
      w'.plans = w.plans ∧
        w'.state = { w.state with heap := w.heap.modifySymbol symbol fun s =>
          { s with value := some v } } :=
    leads_updateSymbol (fun _ => rfl) (fun _ => rfl)
      (fun s x hx => .inr (by obtain rfl := Option.some.inj hx; exact hv)) fun _ _ _ => False.elim
  refine Leads.sure hset rfl ?_
  rintro w' hs ⟨hplans, hstate⟩
  have hmachine : w'.state.machine = w.state.machine := by rw [hstate]
  refine ⟨⟨hs, fun ho hb => ?_⟩, inPlace_modifySymbol hplans hstate fun _ => rfl, hmachine⟩
  obtain ⟨bs', hbs', hvalue⟩ := hb.bindings
  obtain rfl : bs' = bs := List.append_cancel_right (hbs'.symm.trans hbs)
  refine ⟨by rw [hmachine]; exact hb.slots, by rw [hmachine]; exact hb.escapes, bs',
    by rw [hmachine]; exact hbs', fun i hi => ?_⟩
  rw [← hvalue i hi]
  obtain ⟨s, hcell⟩ := hi.exists_symbol ho
  by_cases hsymbol : symbol.cell? = some i
  · obtain ⟨b, hbmem, hbi⟩ := hbound i hsymbol hi.fixed
    exact undone_of_bound hbmem hbi _ _
  · congr 1
    rw [System.heap, hstate]
    change (w.heap.modifySymbol symbol _).valueAt i = _
    rw [Heap.valueAt_modifySymbol hcell, if_neg hsymbol, Heap.valueAt, hcell]

end Values

/-! ## Dynamic bindings -/

section Bindings

variable {w w' : System} {mode : Mode} {d : Nat} {o : System}

/-- The machine with fewer dynamic bindings, given the newest first. -/
def Machine.unwound (m : Machine) (bs : List DynBinding) : Machine :=
  { m with dyns := bs.reverse.toArray }

@[simp] theorem bindings_unwound (m : Machine) (bs : List DynBinding) :
    (m.unwound bs).bindings = bs := by simp [Machine.unwound, Machine.bindings]

theorem unwound_bindings (m : Machine) : m.unwound m.bindings = m := by
  simp [Machine.unwound, Machine.bindings]

theorem back?_dyns {m : Machine} {b : DynBinding} {bs : List DynBinding}
    (h : m.bindings = b :: bs) :
    m.dyns.back? = some b ∧ { m with dyns := m.dyns.pop } = m.unwound bs := by
  have hlist : m.dyns.toList = bs.reverse ++ [b] := by
    have := congrArg List.reverse h
    rw [Machine.bindings, List.reverse_reverse] at this
    simpa using this
  have harray : m.dyns = (bs.reverse ++ [b]).toArray := by rw [← hlist]
  rw [harray]
  simp [Machine.unwound]

/-- Dynamic bindings other than those in force may be dropped. -/
theorem System.admits_unwound {bs bs' : List DynBinding} (h : w.state.machine.bindings = bs ++ bs') :
    w.Admits (w.state.machine.unwound bs') := by
  have hsub : (w.state.machine.unwound bs').dyns.toList ⊆ w.state.machine.dyns.toList := by
    intro b hb
    rw [← List.mem_reverse, ← Machine.bindings, h]
    simp only [Machine.unwound, List.mem_reverse] at hb
    exact List.mem_append_right _ hb
  refine System.admits_of_values (fun v hv => .inl ?_) hsub (List.Subset.refl _) rfl
  simp only [Machine.values, Machine.unwound, List.mem_append, List.mem_flatMap] at hv hsub ⊢
  rcases hv with (hv | ⟨b, hb, hv⟩) | hv
  · exact .inl (.inl hv)
  · exact .inl (.inr ⟨b, hsub hb, hv⟩)
  · exact .inr hv

theorem System.good_old {b : DynBinding} {v : Value} (hb : b ∈ w.state.machine.bindings)
    (hv : b.old = some v) : w.Good v := by
  rw [Machine.bindings, List.mem_reverse] at hb
  refine ⟨System.holds_of_machine ?_, w.typed.dyns b hb v hv⟩
  simp only [Machine.values, List.mem_append, List.mem_flatMap]
  exact .inl (.inr ⟨b, hb, by simp [hv]⟩)

/-- The newest dynamic binding is undone. -/
theorem leads_restore {b : DynBinding} {bs : List DynBinding}
    (h : w.state.machine.bindings = b :: bs) (hbase : o.state.machine.bindings <:+ bs) :
    Leads (Ran mode d o) (do
      modifyMachine fun m => { m with dyns := m.dyns.pop }
      updateSymbol b.symbol fun r => { r with value := b.old }) w fun _ w' =>
      InPlace w w' ∧ w'.state.machine = w.state.machine.unwound bs := by
  have hadm := System.admits_unwound (show w.state.machine.bindings = [b] ++ bs from h)
  have hset : Leads (Stable mode.loose d) (updateSymbol b.symbol fun r => { r with value := b.old })
      (w.withMachine _ hadm) fun _ w' => w'.plans = w.plans ∧
        w'.state = { (w.withMachine _ hadm).state with
          heap := w.heap.modifySymbol b.symbol fun r => { r with value := b.old } } := by
    refine leads_updateSymbol (fun _ => rfl) (fun _ => rfl) (fun s x hx => .inr ?_) fun _ _ _ =>
      False.elim
    have hgood := w.good_old (by rw [h]; exact List.mem_cons_self) hx
    exact ⟨hgood.holds, hgood.proper⟩
  have hstep : Leads (Stable mode.loose d) (do
      modifyMachine fun m => { m with dyns := m.dyns.pop }
      updateSymbol b.symbol fun r => { r with value := b.old }) w fun _ w' =>
      w'.plans = w.plans ∧ w'.state = { (w.withMachine _ hadm).state with
        heap := w.heap.modifySymbol b.symbol fun r => { r with value := b.old } } := by
    refine Leads.bind (Q := fun _ w₁ => w₁ = w.withMachine _ hadm) (.change ?_
      (System.stable_withMachine hadm rfl rfl) rfl) ?_
    · change _ = { w.state with machine := { w.state.machine with dyns := w.state.machine.dyns.pop } }
      rw [(back?_dyns h).2]
      rfl
    · rintro _ _ - rfl
      exact hset
  refine Leads.sure hstep rfl ?_
  rintro w' hs ⟨hplans, hstate⟩
  have hmachine : w'.state.machine = w.state.machine.unwound bs := by rw [hstate]; rfl
  have hplace : InPlace (w.withMachine _ hadm) w' :=
    inPlace_modifySymbol hplans hstate fun _ => rfl
  have hmoves : InPlace w (w.withMachine _ hadm) := System.Moves.inPlace ⟨rfl, rfl⟩
  refine ⟨⟨hs, fun ho hb => ?_⟩, hmoves.trans hplace, hmachine⟩
  obtain ⟨bs', hbs', hvalue⟩ := hb.bindings
  obtain ⟨cs, hcs⟩ := hbase
  obtain rfl : bs' = b :: cs := by
    rw [h, ← hcs] at hbs'
    exact List.append_cancel_right (hbs'.symm.trans (by simp))
  refine ⟨by rw [hmachine]; exact hb.slots, by rw [hmachine]; exact hb.escapes, cs,
    by rw [hmachine, bindings_unwound, hcs], fun i hi => ?_⟩
  obtain ⟨s, hcell⟩ := hi.exists_symbol ho
  rw [← hvalue i hi, undone_cons, System.heap, hstate]
  change undone cs i ((w.heap.modifySymbol b.symbol _).valueAt i) = _
  rw [Heap.valueAt_modifySymbol hcell, Heap.valueAt, hcell]

/-- Dynamic bindings are undone down to older ones. -/
theorem leads_unwindFrom {bs bs' : List DynBinding} {n : Nat}
    (h : w.state.machine.bindings = bs ++ bs') (hn : bs.length ≤ n)
    (hbase : o.state.machine.bindings <:+ bs') :
    Leads (Ran mode d o) (unwindFrom bs'.length n) w fun _ w' =>
      InPlace w w' ∧ w'.state.machine = w.state.machine.unwound bs' := by
  induction n generalizing w bs with
  | zero =>
      obtain rfl := List.eq_nil_of_length_eq_zero (Nat.le_zero.1 hn)
      refine Leads.pure ⟨InPlace.refl w, ?_⟩
      rw [List.nil_append] at h
      rw [← h, unwound_bindings]
  | succ n ih =>
      have hsize := congrArg List.length h
      rw [Machine.length_bindings, List.length_append] at hsize
      rw [unwindFrom]
      refine Leads.bind (Leads.get (Q := fun s w' => w = w' ∧ s = w.state) ⟨rfl, rfl⟩) ?_
      rintro _ _ - ⟨rfl, rfl⟩
      cases bs with
      | nil =>
          rw [if_neg (by simp at hsize; omega)]
          refine Leads.pure ⟨InPlace.refl w, ?_⟩
          rw [List.nil_append] at h
          rw [← h, unwound_bindings]
      | cons b bs =>
          rw [if_pos (by simp at hsize; omega), (back?_dyns h).1]
          dsimp only
          rw [← bind_assoc]
          refine Leads.bind (leads_restore h (hbase.trans (List.suffix_append _ _))) ?_
          rintro _ w₁ - ⟨hplace, hmachine⟩
          refine (ih (show w₁.state.machine.bindings = bs ++ bs' from ?_) (by simpa using hn)).mono ?_
          · rw [hmachine, bindings_unwound]
            rfl
          · rintro _ w' - ⟨hplace', hmachine'⟩
            refine ⟨hplace.trans hplace', ?_⟩
            rw [hmachine', hmachine]
            rfl

theorem leads_unwind {bs bs' : List DynBinding} (h : w.state.machine.bindings = bs ++ bs')
    (hbase : o.state.machine.bindings <:+ bs') :
    Leads (Ran mode d o) (unwind bs'.length) w fun _ w' =>
      InPlace w w' ∧ w'.state.machine = w.state.machine.unwound bs' := by
  unfold unwind
  refine Leads.bind (Leads.gets (Q := fun n w' => w = w' ∧ n = w.state.machine.dyns.size)
    ⟨rfl, rfl⟩) ?_
  rintro _ _ - ⟨rfl, rfl⟩
  refine leads_unwindFrom h ?_ hbase
  have hsize := congrArg List.length h
  rw [Machine.length_bindings, List.length_append] at hsize
  omega

/-- A symbol is bound dynamically. -/
theorem leads_bindDynamic {symbol v : Value} (hsymbol : w.heap.Holds symbol) (hv : w.Good v)
    (habove : o.state.machine.Above w.state.machine)
    (hbase : o.state.machine.bindings <:+ w.state.machine.bindings) :
    Leads (Ran mode d o) (bindDynamic symbol v) w fun _ w' =>
      ∃ old, (∀ i, symbol.cell? = some i → old = w.heap.valueAt i) ∧ InPlace w w' ∧
        w'.state.machine = w.state.machine.unwound (⟨symbol, old⟩ :: w.state.machine.bindings) := by
  unfold bindDynamic operandSymbol
  have hlook : Looks (do require (← gets fun s => s.heap.symbol? symbol)) w.state fun s =>
      w.heap.symbol? symbol = some s := by
    refine Looks.bind (Looks.gets (Q := fun s? => s? = w.heap.symbol? symbol) rfl) ?_
    rintro s? hs
    cases s? with
    | none => exact Looks.halt _
    | some s => exact Looks.pure hs.symm
  refine Leads.bind hlook.leads ?_
  rintro s _ - ⟨rfl, hs⟩
  have hpush : { w.state.machine with dyns := w.state.machine.dyns.push ⟨symbol, s.value⟩ }
      = w.state.machine.unwound (⟨symbol, s.value⟩ :: w.state.machine.bindings) := by
    rw [Machine.unwound, Machine.bindings, List.reverse_cons, List.reverse_reverse,
      ← Array.toList_push]
  have hadm : w.Admits { w.state.machine with dyns := w.state.machine.dyns.push ⟨symbol, s.value⟩ } := by
    refine ⟨fun v hv => ?_, fun b hb v hv => ?_, w.typed.conts, rfl⟩
    · simp only [Machine.values, Array.toList_push, List.flatMap_append, List.mem_append,
        List.flatMap_cons, List.flatMap_nil, List.append_nil, List.mem_cons, Option.mem_toList] at hv
      have hold := w.holds_of_machine (v := v)
      have hvalue := fun h => (System.good_of_symbol? (x := v) hs h).holds
      simp only [Machine.values, List.mem_append, List.mem_cons, Option.mem_toList] at hold
      grind
    · rw [Array.toList_push, List.mem_append, List.mem_singleton] at hb
      rcases hb with hb | rfl
      · exact w.typed.dyns b hb v hv
      · exact (System.good_of_symbol? hs hv).proper
  have hran : Ran mode d o w (w.withMachine _ hadm) := by
    refine ⟨System.stable_withMachine hadm rfl rfl, fun ho hb => ⟨habove.slots, habove.escapes, ?_⟩⟩
    obtain ⟨bs, hbs, hvalue⟩ := hb.bindings
    refine ⟨⟨symbol, s.value⟩ :: bs, ?_, fun i hi => ?_⟩
    · change Machine.bindings { w.state.machine with dyns := _ } = _
      rw [hpush, bindings_unwound, hbs]
      rfl
    · rw [undone_cons, ← hvalue i hi]
      change undone bs i (if symbol.cell? = some i then s.value else w.heap.valueAt i) = _
      split
      · rename_i hcell
        rw [Heap.valueAt_of_symbol? hs hcell]
      · rfl
  refine Leads.bind (Leads.change (u := w.withMachine _ hadm) rfl hran (Q := fun _ w' =>
    w' = w.withMachine _ hadm) rfl) ?_
  rintro _ _ - rfl
  have hmoves : InPlace w (w.withMachine _ hadm) := System.Moves.inPlace ⟨rfl, rfl⟩
  have hbindings : (w.withMachine _ hadm).state.machine
      = w.state.machine.unwound (⟨symbol, s.value⟩ :: w.state.machine.bindings) := hpush
  obtain ⟨bs, hbs⟩ := hbase
  refine (leads_setGlobal (hmoves.good hv)
    (show _ = ⟨symbol, s.value⟩ :: bs ++ o.state.machine.bindings from ?_) ?_).mono ?_
  · rw [hbindings, bindings_unwound, ← hbs]
    rfl
  · exact fun i hi _ => ⟨_, List.mem_cons_self, hi⟩
  · rintro _ w' - ⟨hplace, hmachine⟩
    exact ⟨s.value, fun i hi => (Heap.valueAt_of_symbol? hs hi).symm, hmoves.trans hplace,
      hmachine.trans hbindings⟩

end Bindings

/-! ## Continuations that are left -/

section Conts

variable {w w' : System} {mode : Mode} {d : Nat} {o : System} {i : Nat} {k k' : Cont}

/-- Cells other than symbols change, and the machine stays. -/
theorem Ran.of_values (hs : Stable mode.loose d w w')
    (hmachine : w'.state.machine = w.state.machine)
    (hvalue : ∀ i, w'.heap.valueAt i = w.heap.valueAt i) : Ran mode d o w w' := by
  refine ⟨hs, fun _ hb => ⟨by rw [hmachine]; exact hb.slots, by rw [hmachine]; exact hb.escapes, ?_⟩⟩
  obtain ⟨bs, hbs, hundone⟩ := hb.bindings
  exact ⟨bs, by rw [hmachine]; exact hbs, fun i hi => by rw [hvalue]; exact hundone i hi⟩

/-- A continuation is marked as left, or one that is in force as not left. -/
theorem leads_setCont (hc : w.heap.cell i = .cont k)
    (hk : ∃ exited, k' = { k with exited })
    (hleft : k'.exited = true ∨ .ref .object i ∈ w.state.machine.conts.toList) :
    Leads (Ran mode d o) (modifyHeap (·.set i (.cont k'))) w fun _ w' =>
      InPlace w w' ∧ w'.state.machine = w.state.machine ∧
        ∀ j, w'.heap.cell j = if j = i then .cont k' else w.heap.cell j := by
  obtain ⟨exited, rfl⟩ := hk
  have hr : w.Replaces i (.cont { k with exited }) := by
    refine ⟨by rw [hc]; rfl, rfl, by rw [hc]; rfl, ⟨fun v hv => ?_, by rintro b ⟨⟩⟩, trivial, by rintro b ⟨⟩,
      by rintro b ⟨⟩,
      by rw [hc]; exact List.Subset.refl _, hleft⟩
    refine (w.typed.heap.wf.sound i (by rw [hc]; rfl)).values v ?_
    rw [hc]
    exact hv
  have hcell := hr.cell
  have hsame (m : Mode) (hm : m.machine = false) : SameCell m w (w.replaced hr) i := by
    unfold SameCell
    rw [hc]
    exact ⟨exited, (hcell i).trans (if_pos rfl), by simp [hm]⟩
  have hset := leads_set (m := mode.loose) (d := d) hr (hsame _ rfl)
    (by rw [hc]; exact List.Subset.refl _)
  refine Leads.sure hset rfl ?_
  rintro w' hs rfl
  refine ⟨.of_values hs rfl fun j => ?_, ⟨rfl, rfl, fun j => ?_⟩, rfl, hcell⟩
  · unfold Heap.valueAt
    rw [show (w.replaced hr).heap.cell j = _ from hcell j]
    by_cases hj : j = i
    · rw [if_pos hj, hj, hc]
    · rw [if_neg hj]
  · by_cases hj : j = i
    · subst hj
      exact hsame _ rfl
    · exact .of_eq ((hcell j).trans (if_neg hj)) (fun _ _ => rfl) (fun _ h _ => h) (fun _ h => h)
        fun _ _ _ => .rfl

/-- A value is marked as left, if it is a continuation. -/
theorem leads_markExited (w : System) (v : Value) :
    Leads (Ran mode d o) (modifyHeap (·.markExited v)) w fun _ w' =>
      InPlace w w' ∧ w'.state.machine = w.state.machine ∧
        ∀ i k, w'.heap.cell i = .cont k → k.exited = false →
          w.heap.cell i = .cont k ∧ v.cell? ≠ some i := by
  by_cases hcont : ∃ i k, v.cell? = some i ∧ w.heap.cell i = .cont k
  · obtain ⟨i, k, hi, hc⟩ := hcont
    have hmark : w.heap.markExited v = w.heap.set i (.cont { k with exited := true }) := by
      simp only [Heap.markExited, Heap.cont?, hi, Option.map_some, hc]
    have hset : Leads (Ran mode d o) _ w _ :=
      leads_setCont hc (show ∃ exited, { k with exited := true } = { k with exited } from ⟨true, rfl⟩)
        (.inl rfl)
    refine (hset.congr ?_).mono ?_
    · rw [act_modifyHeap, act_modifyHeap, ← hmark]
    · rintro _ w' - ⟨hplace, hmachine, hcell⟩
      refine ⟨hplace, hmachine, fun j k' hj hk' => ?_⟩
      rw [hcell j] at hj
      split at hj
      · cases hj
        cases hk'
      · rename_i hne
        exact ⟨hj, fun hij => hne (Option.some.inj (hij.symm.trans hi))⟩
  · have hmark : w.heap.markExited v = w.heap := by
      unfold Heap.markExited Heap.cont?
      cases hi : v.cell? with
      | none => rfl
      | some i => cases hc : w.heap.cell i <;> simp_all
    refine .change (u := w) ?_ (Follows.refl w)
      ⟨InPlace.refl w, rfl, fun i k hk _ => ⟨hk, fun hi => hcont ⟨i, k, hi, hk⟩⟩⟩
    change _ = { w.state with heap := w.heap.markExited v }
    rw [hmark]

theorem leads_markAll {vs : List Value} :
    Leads (Ran mode d o) (modifyHeap fun h => vs.foldl Heap.markExited h) w fun _ w' =>
      InPlace w w' ∧ w'.state.machine = w.state.machine ∧
        ∀ i k, w'.heap.cell i = .cont k → k.exited = false →
          w.heap.cell i = .cont k ∧ ∀ v ∈ vs, v.cell? ≠ some i := by
  induction vs generalizing w with
  | nil => exact .change rfl (Follows.refl w) ⟨InPlace.refl w, rfl,
      fun _ _ h _ => ⟨h, nofun⟩⟩
  | cons v vs ih =>
      have hsteps : Leads (Ran mode d o) (do
          modifyHeap (·.markExited v)
          modifyHeap fun h => vs.foldl Heap.markExited h) w fun _ w' =>
          InPlace w w' ∧ w'.state.machine = w.state.machine ∧
            ∀ i k, w'.heap.cell i = .cont k → k.exited = false →
              w.heap.cell i = .cont k ∧ ∀ u ∈ v :: vs, u.cell? ≠ some i := by
        refine Leads.bind (leads_markExited w v) ?_
        rintro _ w₁ - ⟨hplace, hmachine, hleft⟩
        refine ih.mono ?_
        rintro _ w₂ - ⟨hplace', hmachine', hleft'⟩
        refine ⟨hplace.trans hplace', hmachine'.trans hmachine, fun i k hk he => ?_⟩
        obtain ⟨hk', hvs⟩ := hleft' i k hk he
        obtain ⟨hk'', hv⟩ := hleft i k hk' he
        refine ⟨hk'', fun u hu => ?_⟩
        rcases List.mem_cons.1 hu with rfl | hu
        · exact hv
        · exact hvs u hu
      exact hsteps.congr rfl

/-- The machine with fewer continuations, given the newest first. -/
def Machine.left (m : Machine) (vs : List Value) : Machine :=
  { m with conts := vs.reverse.toArray }

@[simp] theorem escapes_left (m : Machine) (vs : List Value) : (m.left vs).escapes = vs := by
  simp [Machine.left, Machine.escapes]

/-- The newest continuations are left. -/
theorem leads_dropConts {vs us : List Value} (h : w.state.machine.escapes = vs ++ us)
    (hslots : o.state.machine.slots <:+ w.state.machine.slots)
    (hbase : o.state.machine.escapes <:+ us) :
    Leads (Ran mode d o) (dropConts us.length) w fun _ w' =>
      InPlace w w' ∧ w'.state.machine = w.state.machine.left us := by
  unfold dropConts
  refine Leads.bind (Leads.gets (Q := fun (xs : Array Value) w' => w = w' ∧ xs.toList = vs.reverse)
    ⟨rfl, Machine.extract_of_reverse h⟩) ?_
  rintro xs _ - ⟨rfl, hxs⟩
  simp only [← Array.foldl_toList, hxs]
  refine Leads.bind leads_markAll ?_
  rintro _ w₁ - ⟨hplace, hmachine, hleft⟩
  have hshrink : (w₁.state.machine.conts.shrink us.length).toList = us.reverse := by
    rw [hmachine, ← List.reverse_reverse (Array.toList _), Machine.shrink_of_reverse h]
  have hcut : { w₁.state.machine with conts := w₁.state.machine.conts.shrink us.length }
      = w.state.machine.left us := by
    rw [Machine.left, ← hshrink, hmachine]
  have hold : ∀ v, v ∈ vs ∨ v ∈ us ↔ v ∈ w.state.machine.conts.toList := by
    intro v
    rw [← List.mem_append, ← h, Machine.escapes, List.mem_reverse]
  have hadm : w₁.Admits (w.state.machine.left us) := by
    refine ⟨fun v hv => System.holds_of_machine ?_, ?_, fun i k hi hk => ?_, by rw [hmachine]; rfl⟩
    · rw [hmachine]
      have hold := (hold v).1
      simp only [Machine.values, Machine.left, List.mem_append, List.mem_reverse] at hv hold ⊢
      exact hv.imp_right fun h => hold (.inr h)
    · rw [← hcut]
      exact w₁.typed.dyns
    · obtain ⟨hk', hvs⟩ := hleft i k hi hk
      have hin := w.typed.conts i k hk' hk
      have hpos : i ≠ 0 := by
        rintro rfl
        have hzero := w.typed.heap.wf.pool.zero
        rw [show w.state.heap.cell 0 = _ from hk'] at hzero
        cases hzero
      refine List.mem_reverse.2 (((hold _).2 hin).resolve_left fun hmem => ?_)
      exact hvs _ (List.mem_reverse.2 hmem) (Value.cell?_eq_some_iff.2 ⟨_, rfl, hpos⟩)
  refine Leads.change (u := w₁.withMachine _ hadm) ?_ (.of_machine hadm ⟨hslots, by
    rw [escapes_left]; exact hbase⟩ (by rw [hmachine]; rfl)) ⟨hplace.trans ?_, rfl⟩
  · change { w₁.state with machine := w.state.machine.left us } = _
    rw [← hcut]
  · exact System.Moves.inPlace (m := w.state.machine.left us) ⟨rfl, rfl⟩

end Conts

end CellLisp
