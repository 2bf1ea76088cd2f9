import Mathlib.Data.List.Nodup
import Mathlib.Data.List.Perm.Subperm
import CellLisp.Proofs.Machine.Exit

/-!
# `CellLisp.Proofs.Machine.Step` — every instruction

The instructions on continuations and dynamic bindings, and then `Stands.leads_step`: a machine
that stands on a pile of frames stands on one again after any instruction, or stops where the run
began.  A program may break this in one way only, by calling what makes closures with code and an
array that do not belong together, so what is called must be tame (`State.Permits`).
-/

namespace CellLisp

section Records

variable {w : System} {base : Machine} {fs : List Frame}

/-- The continuations in force are at most as many as the cells besides cell zero. -/
theorem Resumable.length_conts_le (h : Resumable w base fs) :
    (fs.flatMap Frame.conts).length ≤ w.heap.cells.size - 1 := by
  have hentry : ∀ v ∈ fs.flatMap Frame.conts, ∃ i, v = .ref .object i ∧ i ≠ 0 ∧
      i < w.heap.cells.size ∧ v.cell?.getD 0 = i := by
    intro v hv
    obtain ⟨us, vs, he⟩ := List.append_of_mem hv
    obtain ⟨i, k, -, rfl, hi, hc, -⟩ := h us _ vs he
    refine ⟨i, rfl, hi, Heap.lt_of_isFree_eq_false (by rw [hc]; rfl), ?_⟩
    rw [Value.cell?_eq_some_iff.2 ⟨.object, rfl, hi⟩, Option.getD_some]
  have hnodup : ((fs.flatMap Frame.conts).map fun v => v.cell?.getD 0).Nodup := by
    refine List.Nodup.map_on (fun v hv u hu he => ?_) h.nodup
    obtain ⟨i, rfl, -, -, hi⟩ := hentry v hv
    obtain ⟨j, rfl, -, -, hj⟩ := hentry u hu
    rw [hi, hj] at he
    rw [he]
  have hsub : ((fs.flatMap Frame.conts).map fun v => v.cell?.getD 0) ⊆
      List.range' 1 (w.heap.cells.size - 1) := by
    intro i hi
    obtain ⟨v, hv, rfl⟩ := List.mem_map.1 hi
    obtain ⟨i, rfl, hi, hlt, he⟩ := hentry v hv
    rw [he, List.mem_range'_1]
    omega
  simpa using (hnodup.subperm hsub).length_le

/-- The records of the continuations that stay are as before. -/
theorem Resumable.cell_dropped (h : Resumable w base fs)
    (hconts : w.state.machine.escapes = fs.flatMap Frame.conts) {n j : Nat}
    (hj : .ref .object j ∈ (w.state.machine.conts.shrink n).toList) :
    (w.state.dropped n).heap.cell j = w.heap.cell j := by
  rw [State.cell_dropped, if_neg]
  rintro ⟨v, hv, hcell⟩
  obtain rfl : v = .ref .object j := by
    have hmem : v ∈ fs.flatMap Frame.conts := by
      rw [← hconts, Machine.escapes, List.mem_reverse]
      exact List.mem_of_mem_drop hv
    obtain ⟨us, vs, he⟩ := List.append_of_mem hmem
    obtain ⟨i, -, -, rfl, hi, -⟩ := h us _ vs he
    rw [Value.cell?_eq_some_iff.2 ⟨_, rfl, hi⟩] at hcell
    rw [Option.some.inj hcell]
  have hnodup : w.state.machine.conts.toList.Nodup := by
    have := h.nodup
    rwa [← hconts, Machine.escapes, List.nodup_reverse] at this
  rw [Array.toList_shrink] at hj
  exact List.disjoint_take_drop hnodup (Nat.le_refl n) hj hv

end Records

section Instructions

variable {w w' : System} {mode : Mode} {d : Nat} {o : System} {base : Machine} {fs : List Frame}
  {f : Frame} {i : Nat} {s : Site}

theorem Poised.chain (h : Poised w base f fs i s) :
    Chained w base (f :: fs) ⟨w.state.machine.code, i, w.state.machine.fp⟩ s.shape.val :=
  ⟨h.frame, h.full, congrArg Shape.val h.shape, h.chained⟩

theorem Poised.escapes_eq (h : Poised w base f fs i s) (hescapes : base.escapes = []) :
    w.state.machine.escapes = (f :: fs).flatMap Frame.conts := by
  rw [h.shows.escapes, escapesOf, hescapes, List.append_nil]

theorem Poised.bindings_eq (h : Poised w base f fs i s) :
    w.state.machine.dyns.toList.reverse = f.dyns ++ bindingsOf fs base :=
  h.shows.bindings.trans bindingsOf_cons

/-- The machine goes on at the next instruction with other continuations and dynamic bindings. -/
theorem Poised.at_shifted {labels : List Label} {n : Nat} {cs : Array Value} {ds : Array DynBinding}
    {conts : List Value} {dyns : List DynBinding} (h : Poised w base f fs i s) (hin : InPlace w w')
    (hmachine : w'.state.machine = { w.state.machine with conts := cs, dyns := ds })
    (harrives : Arrives f.proc.sites (i + 1) { s.shape with labels, dyns := n })
    (hcs : cs.toList.reverse = conts ++ escapesOf fs base)
    (hds : ds.toList.reverse = dyns ++ bindingsOf fs base)
    (hconts : Established w' w.state.machine.code w.state.machine.fp
      (f.below ++ slotsOf fs base).length (bindingsOf fs base).length (escapesOf fs base).length
      labels conts)
    (hdyns : dyns.length = n) (hnext : dyns <:+ f.dyns ∨ ∃ b, dyns = b :: f.dyns) :
    ∃ f', f.Becomes f' ∧ ∃ val?, At w' base (f' :: fs) val? := by
  refine ⟨{ f with shape := { s.shape with labels, dyns := n }, conts, dyns },
    ⟨rfl, rfl, rfl, rfl, hnext⟩, _, h.at_next hin (by rw [hmachine]) (by rw [hmachine]) ?_ ⟨?_, ?_, ?_, ?_⟩
    (hin.areKinds h.kinds) (fun v hv => hin.good (h.frame.args v hv)) rfl hconts hdyns
    (fun k hk => ?_) ?_⟩
  · rw [hmachine]
    change Arrives _ w.state.machine.pc _
    rw [h.pc]
    exact harrives
  · rw [hmachine]
    exact h.shows.slots
  · rw [hmachine, escapesOf_cons]
    exact hcs
  · rw [hmachine, bindingsOf_cons]
    exact hds
  · rw [hmachine]
    exact h.shows.room
  · rw [hmachine]
    exact hin.isKind (h.value k hk)
  · rw [hmachine]
    exact h.native

/-! ### Continuations -/

/-- What a continuation records fits its 32 bits. -/
theorem Poised.fits_record (h : Poised w base f fs i s) (ha : Addressable w)
    (hescapes : base.escapes = []) :
    w.state.machine.stack.size < 2 ^ 32 ∧ w.state.machine.fp < 2 ^ 32 ∧
      w.state.machine.conts.size < 2 ^ 32 := by
  have hroom := h.shows.room
  have hlimit := ha.slots
  have hsize := congrArg List.length h.shows.slots
  rw [Machine.length_slots, slotsOf_cons] at hsize
  have hfp : w.state.machine.fp = _ := h.frame.fp
  have hconts := h.chain.resumable.length_conts_le
  rw [← h.escapes_eq hescapes, Machine.length_escapes] at hconts
  have hcells := ha.cells
  simp only [List.length_append, Frame.below, Frame.saved, List.length_cons, List.length_nil] at hsize
  refine ⟨by omega, by omega, by omega⟩

theorem Poised.leads_withCont (h : Poised w o.state.machine f fs i s) (ht : mode.target = none)
    (ha : Addressable w) (hescapes : o.state.machine.escapes = [])
    (hbinds : w.state.machine.dyns.size < 2 ^ 32) (hop : s.instr.op = .withCont) :
    Leads (Stepped mode d o s.instr) (execute s.instr) w
      (Goes o.state.machine s.instr.op (f :: fs)) := by
  have hsafe := h.safe
  unfold Site.Safe at hsafe
  unfold execute
  simp only [hop] at hsafe ⊢
  rw [← hop]
  obtain ⟨t, hx, hresume, harrives⟩ := hsafe
  have hlt := h.lt_of_arrives ha hresume
  have hword : s.instr.operand.word = t := by rw [hx, Value.word_ofInt (Nat.lt_trans hlt (by decide))]
  obtain ⟨hstack, hfp, hdepth⟩ := h.fits_record ha hescapes
  have hrec : (w.state.machine.toCont t).Records w.state.machine t :=
    ⟨rfl, UInt32.toNat_ofNat_of_lt' (Nat.lt_trans hlt (by decide)), UInt32.toNat_ofNat_of_lt' hfp,
      UInt32.toNat_ofNat_of_lt' hstack, UInt32.toNat_ofNat_of_lt' hbinds,
      UInt32.toNat_ofNat_of_lt' hdepth, rfl⟩
  rw [hword]
  refine Leads.goesAt ((leads_establish h.above hop (by rw [hword]; exact hrec)).mono ?_)
  rintro _ w' - ⟨j, w₁, hopened⟩
  have h₁ := h.rigid hopened.stable ht
  have hm₁ : w₁.state.machine = w.state.machine := hopened.stable.machine rfl
  have hmachine := hopened.machine
  rw [← hm₁] at hmachine
  have hcs : (w₁.state.machine.conts.push (.ref .object j)).toList.reverse
      = .ref .object j :: f.conts ++ escapesOf fs o.state.machine := by
    rw [Array.toList_push, List.reverse_append, ← Machine.escapes, h₁.shows.escapes, escapesOf_cons]
    rfl
  refine h₁.at_shifted hopened.inPlace hmachine harrives hcs h₁.bindings_eq ⟨⟨j, _, rfl, hopened.pos,
    by rw [hopened.cells, if_pos rfl], ?_, ?_, ?_, ?_, ?_, ?_⟩,
    hopened.inPlace.established h₁.established⟩ h₁.length_dyns (.inl List.suffix_rfl)
  · rw [hm₁]
    rfl
  · exact hrec.pc
  · rw [hm₁]
    exact hrec.fp
  · refine hrec.sp.trans ?_
    rw [← Machine.length_slots, h.shows.slots, slotsOf_cons, List.length_append, ← h.kinds.length_eq]
  · refine hrec.dynDepth.trans ?_
    rw [← Machine.length_bindings, h.shows.bindings, bindingsOf_cons, List.length_append,
      h.length_dyns]
  · refine hrec.depth.trans ?_
    rw [← Machine.length_escapes, h.shows.escapes, escapesOf_cons, List.length_append]

theorem Poised.leads_popCont (h : Poised w o.state.machine f fs i s)
    (hescapes : o.state.machine.escapes = []) (hop : s.instr.op = .popCont) :
    Leads (Stepped mode d o s.instr) (execute s.instr) w
      (Goes o.state.machine s.instr.op (f :: fs)) := by
  have hsafe := h.safe
  unfold Site.Safe at hsafe
  unfold execute
  simp only [hop] at hsafe ⊢
  rw [← hop]
  obtain ⟨k, older, hlabels, harrives⟩ := hsafe
  have hest := h.established
  rw [hlabels] at hest
  obtain ⟨v, rest, hconts⟩ : ∃ v rest, f.conts = v :: rest := by
    cases hc : f.conts with
    | nil => rw [hc] at hest; exact hest.elim
    | cons v rest => exact ⟨v, rest, rfl⟩
  rw [hconts] at hest
  have he : w.state.machine.escapes = [v] ++ (rest ++ escapesOf fs o.state.machine) := by
    rw [h.shows.escapes, escapesOf_cons, hconts]
    rfl
  have hsize : w.state.machine.conts.size - 1 = (rest ++ escapesOf fs o.state.machine).length := by
    rw [← Machine.length_escapes, he]
    simp
  refine (Looks.gets (Q := fun n => n = w.state.machine.conts.size) rfl).andThen (.refl w) ?_
  rintro _ rfl
  rw [hsize]
  have hdrop : Leads (Ran mode d o) _ w _ :=
    leads_dropConts he h.above.slots (by rw [hescapes]; exact List.nil_suffix)
  refine Leads.goesAt (hdrop.exactly (dropConts_eq _ _) ?_)
  intro w' hstate hran ⟨hin, hmachine⟩
  refine ⟨{ hran with
      conts := ?_, dyns := ?_, keeps := fun _ => ?_, records := fun j k _ hj hk => ?_ },
    h.at_shifted hin hmachine harrives (by simp) h.bindings_eq (hin.established hest.2)
      h.length_dyns (.inl List.suffix_rfl)⟩
  · rw [hstate]
    exact .inl ⟨_, rfl⟩
  · rw [hstate]
    exact .refl _
  · rw [hstate]
    exact List.prefix_rfl
  · rw [hstate]
    rw [hstate] at hj
    exact (h.chain.resumable.cell_dropped (h.escapes_eq hescapes) hj).trans hk

/-- An exit leads to a frame that established the continuation, or fails at once. -/
theorem Poised.leads_exitTo {target value : Value} {ins : Instr}
    (h : Poised w o.state.machine f fs i s) (hescapes : o.state.machine.escapes = [])
    (hvalue : w.Good value) (hins : ins.op.exits = true) :
    Leads (Stepped mode d o ins) (do
      exitTo target value
      return false) w (Goes o.state.machine ins.op (f :: fs)) := by
  refine Leads.goes ?_
  cases hk : if target.object?.isSome then w.heap.cont? target else none with
  | none =>
      have hfails : Leads (Calm mode d o) (typeError .continuation target : Act Unit) w
          fun _ _ => False := (looks_typeError _ _).leads.mono fun _ _ _ h => h.2
      exact ((hfails.congr (exitTo_of_none hk)).weaken fun _ => Calm.stepped).mono
        fun _ _ _ h => h.elim
  | some k =>
      obtain ⟨j, rfl, hcell, hk⟩ := Heap.exists_target hk
      cases hleft : k.exited with
      | true => exact .refuses (exitTo_of_left rfl hk hleft) (.refl w)
      | false =>
          have hleads : Leads (Ran mode d o) _ w _ :=
            leads_leave h.shows h.chain h.native hescapes hvalue hcell hleft
          have hstep : Leads (Stepped mode d o ins) (exitTo (.ref .object j) value) w fun _ w' =>
              ∃ gs g hs g', f :: fs = gs ++ g :: hs ∧ g.Becomes g' ∧ g'.dyns <:+ g.dyns ∧
                At w' o.state.machine (g' :: hs) (some .any) := by
            refine (hleads.exactly (leave_eq k value _)
              fun w' hstate hran hq => ⟨?_, hq⟩).congr ?_
            · refine { hran with
                conts := ?_, dyns := ?_, keeps := fun hno => ?_, records := fun j r _ hj hr => ?_ }
              · rw [hstate]
                exact .inl ⟨_, rfl⟩
              · rw [hstate]
                exact .inl ⟨_, rfl⟩
              · rw [Opcode.unwinds_of_exits hins] at hno
                cases hno
              · rw [hstate] at hj
                rw [hstate, State.cell_exited,
                  h.chain.resumable.cell_dropped (h.escapes_eq hescapes) hj, hr]
            · rw [h.chain.resumable.exitTo_eq h.shows hescapes hcell hleft, leave_eq]
          refine hstep.mono ?_
          rintro _ w' - ⟨gs, g, hs, g', he, hg, hdyns, hat⟩
          rw [he]
          exact ⟨_, .inl ⟨_, hat⟩, .leaves hins hg hdyns⟩

theorem Poised.leads_exit (h : Poised w o.state.machine f fs i s)
    (hescapes : o.state.machine.escapes = []) (hop : s.instr.op = .exit) :
    Leads (Stepped mode d o s.instr) (execute s.instr) w
      (Goes o.state.machine s.instr.op (f :: fs)) := by
  have hsafe := h.safe
  unfold Site.Safe at hsafe
  unfold execute
  simp only [hop] at hsafe ⊢
  rw [← hop]
  refine Leads.bindRequire (.refl w) fun k _ => ?_
  refine (Looks.gets (Q := fun v => v = w.state.machine.val) rfl).andThen (.refl w) ?_
  rintro _ rfl
  exact h.leads_exitTo hescapes (h.value _ hsafe.2) (by rw [hop]; rfl)

theorem Poised.leads_envExit (h : Poised w o.state.machine f fs i s)
    (hescapes : o.state.machine.escapes = []) (hop : s.instr.op = .envExit) :
    Leads (Stepped mode d o s.instr) (execute s.instr) w
      (Goes o.state.machine s.instr.op (f :: fs)) := by
  have hsafe := h.safe
  unfold Site.Safe at hsafe
  unfold execute
  simp only [hop] at hsafe ⊢
  rw [← hop]
  obtain ⟨⟨n, j, hk, -, -⟩, hval⟩ := hsafe
  refine (h.looks_envRef hk).andThen (.refl w) fun k _ => ?_
  refine (Looks.gets (Q := fun v => v = w.state.machine.val) rfl).andThen (.refl w) ?_
  rintro _ rfl
  exact h.leads_exitTo hescapes (h.value _ hval) (by rw [hop]; rfl)

/-! ### Dynamic bindings -/

/-- A symbol gets a global value; one that is to stay has been bound by the run. -/
theorem Poised.leads_globalSet (h : Poised w o.state.machine f fs i s)
    (hset : ∀ j, s.instr.operand.cell? = some j → mode.fixed j →
      ∃ b ∈ (f :: fs).flatMap Frame.dyns, b.symbol.cell? = some j)
    (hop : s.instr.op = .globalSet) :
    Leads (Stepped mode d o s.instr) (execute s.instr) w
      (Goes o.state.machine s.instr.op (f :: fs)) := by
  have hsafe := h.safe
  unfold Site.Safe at hsafe
  unfold execute
  simp only [hop] at hsafe ⊢
  rw [← hop]
  obtain ⟨hval, harrives⟩ := hsafe
  have hvalue : w.Good w.state.machine.val := h.value _ hval
  refine (Looks.gets (Q := fun v => v = w.state.machine.val) rfl).andThen (.refl w) ?_
  rintro _ rfl
  have hleads : Leads (Ran mode d o) _ w _ := leads_setGlobal hvalue h.shows.bindings hset
  refine Leads.goesAt (hleads.exactly rfl fun w' hstate hran ⟨hin, hmachine⟩ => ⟨{ hran with
    conts := ?_, dyns := ?_, keeps := fun _ => ?_, records := fun j k _ _ hk => ?_ },
    h.at_shifted hin hmachine harrives (h.shows.escapes.trans escapesOf_cons) h.bindings_eq
      (hin.established h.established) h.length_dyns (.inl List.suffix_rfl)⟩)
  · rw [hmachine]
    exact .refl _
  · rw [hmachine]
    exact .refl _
  · exact ⟨[], by rw [hmachine, List.append_nil]⟩
  · rw [hstate]
    refine Eq.trans (Heap.cell_modifySymbol fun r hr => ?_) hk
    rw [show w.state.heap.cell j = _ from hk] at hr
    cases hr

/-- A value with a record of a symbol refers to a symbol. -/
theorem Heap.Holds.exists_symbol {h : Heap} {v : Value} {r : Symbol} (hv : h.Holds v)
    (hr : h.symbol? v = some r) : ∃ i, v = .ref .symbol i ∧ i ≠ 0 := by
  unfold Heap.symbol? at hr
  split at hr
  · rename_i i hi
    obtain ⟨tag, rfl, hne⟩ := Value.cell?_eq_some_iff.1 hi
    have htag := (hv tag i rfl hne).2
    split at hr
    · rename_i s hs
      rw [hs] at htag
      exact ⟨i, by rw [← htag]; rfl, hne⟩
    · cases hr
  · cases hr

theorem Poised.leads_dynBind (h : Poised w o.state.machine f fs i s) (hop : s.instr.op = .dynBind) :
    Leads (Stepped mode d o s.instr) (execute s.instr) w
      (Goes o.state.machine s.instr.op (f :: fs)) := by
  have hsafe := h.safe
  unfold Site.Safe at hsafe
  unfold execute
  simp only [hop] at hsafe ⊢
  rw [← hop]
  obtain ⟨hval, harrives⟩ := hsafe
  have hvalue : w.Good w.state.machine.val := h.value _ hval
  refine (Looks.gets (Q := fun v => v = w.state.machine.val) rfl).andThen (.refl w) ?_
  rintro _ rfl
  refine Leads.goesAt ?_
  have hleads : Leads (Ran mode d o) _ w _ := leads_bindDynamic h.holds_operand hvalue h.above
    (by rw [h.shows.bindings]; exact List.suffix_append _ _)
  have he := bindDynamic_eq s.instr.operand w.state.machine.val w.state
  cases hr : w.state.heap.symbol? s.instr.operand with
  | none =>
      rw [hr] at he
      unfold Leads
      rw [he]
      trivial
  | some r =>
      rw [hr] at he
      refine hleads.exactly he fun w' hstate hran ⟨old, hold, hin, hmachine⟩ => ⟨{ hran with
        conts := ?_, dyns := ?_, keeps := fun _ => ?_, records := fun j k _ _ hk => ?_ }, ?_⟩
      · rw [hmachine]
        exact .refl _
      · obtain ⟨j, hj, hj0⟩ := h.holds_operand.exists_symbol hr
        refine .inr ⟨⟨s.instr.operand, old⟩, ?_, hop, j, hj, hj0, ?_⟩
        · rw [hmachine, Machine.unwound, Machine.bindings, List.reverse_cons, List.reverse_reverse,
            ← Array.toList_push]
        · rw [hold j (by rw [hj]; exact Value.cell?_eq_some_iff.2 ⟨_, rfl, hj0⟩), hj]
      · rw [hmachine, Machine.unwound, Machine.bindings, List.reverse_cons, List.reverse_reverse]
        exact List.prefix_append _ _
      · rw [hstate]
        refine Eq.trans (Heap.cell_modifySymbol fun r hr => ?_) hk
        rw [show w.state.heap.cell j = _ from hk] at hr
        cases hr
      · have hds : (⟨s.instr.operand, old⟩ :: w.state.machine.bindings).reverse.reverse
            = ⟨s.instr.operand, old⟩ :: f.dyns ++ bindingsOf fs o.state.machine := by
          rw [List.reverse_reverse, Machine.bindings, h.bindings_eq]
          rfl
        exact h.at_shifted hin hmachine harrives (h.shows.escapes.trans escapesOf_cons) hds
          (hin.established h.established) (congrArg (· + 1) h.length_dyns) (.inr ⟨_, rfl⟩)

theorem Poised.leads_dynUnbind (h : Poised w o.state.machine f fs i s)
    (hop : s.instr.op = .dynUnbind) :
    Leads (Stepped mode d o s.instr) (execute s.instr) w
      (Goes o.state.machine s.instr.op (f :: fs)) := by
  have hsafe := h.safe
  unfold Site.Safe at hsafe
  unfold execute
  simp only [hop] at hsafe ⊢
  rw [← hop]
  obtain ⟨hle, harrives⟩ := hsafe
  have hlen := h.length_dyns
  have he : w.state.machine.bindings = f.dyns.take s.instr.modifier ++
      (f.dyns.drop s.instr.modifier ++ bindingsOf fs o.state.machine) := by
    rw [Machine.bindings, h.bindings_eq, ← List.append_assoc, List.take_append_drop]
  have hdepth : w.state.machine.dyns.size - s.instr.modifier
      = (f.dyns.drop s.instr.modifier ++ bindingsOf fs o.state.machine).length := by
    rw [← Machine.length_bindings, he, List.length_append, List.length_take]
    omega
  refine (Looks.gets (Q := fun n => n = w.state.machine.dyns.size) rfl).andThen (.refl w) ?_
  rintro _ rfl
  split
  · exact (Looks.halt (Q := fun _ => False) _).andThen (.refl w) fun _ h => h.elim
  rw [hdepth]
  have hleads : Leads (Ran mode d o) _ w _ := leads_unwind he
    (by rw [bindingsOf, ← List.append_assoc]; exact List.suffix_append _ _)
  refine Leads.goesAt (hleads.exactly (unwind_eq _ _) ?_)
  rintro w' hstate hran ⟨hin, hmachine⟩
  refine ⟨{ hran with
    conts := ?_, dyns := ?_, keeps := fun hno => ?_, records := fun j k _ _ hk => ?_ }, ?_⟩
  · rw [hmachine]
    exact .refl _
  · rw [hstate]
    exact .inl ⟨_, rfl⟩
  · rw [hop] at hno
    cases hno
  · rw [hstate]
    refine (Heap.cell_restoreAll _ _ _).trans ?_
    rw [show w.state.heap.cell j = _ from hk]
  · exact h.at_shifted hin hmachine harrives (h.shows.escapes.trans escapesOf_cons)
      (List.reverse_reverse _) (hin.established h.established) (by rw [List.length_drop, hlen])
      (.inl (List.drop_suffix _ _))

end Instructions

/-! ## Steps -/

/-- The state with another program counter. -/
def State.atPc (s : State) (pc : Nat) : State := { s with machine := { s.machine with pc } }

/-- An instruction is carried out with the program counter behind it. -/
theorem step_eq {s : State} {ins : Instr}
    (hins : s.heap.instr? s.machine.code s.machine.pc = some ins) :
    step s = execute ins (s.atPc (s.machine.pc + 1)) := by
  unfold step
  rw [act_bind, act_gets]
  simp only [hins]
  rfl

/-- Whether the procedure called by the next instruction, if that is a call, is tame, or the call
is one that compiled code makes to join an environment to code. -/
def State.permits (s : State) (pairs : Bool) : Bool :=
  match s.heap.instr? s.machine.code s.machine.pc with
  | some ⟨.call, _, _⟩ => s.heap.isTame pairs s.machine.val ||
      3 ≤ s.machine.pc && (s.heap.instr? s.machine.code (s.machine.pc - 3)).any (·.op == .makeArray)
  | some ⟨.tailCall, _, _⟩ => s.heap.isTame pairs s.machine.val
  | _ => true

/-- What the next instruction must not do: call what programs may not call, or set a symbol that
is to stay outside the bindings that the run has made of it. -/
structure State.Permits (s : State) (m : Mode) (base : Machine) : Prop where
  tame : s.permits m.pairs = true
  settled : ∀ ins, s.heap.instr? s.machine.code s.machine.pc = some ins → ins.op = .globalSet →
    ∀ j, ins.operand.cell? = some j → m.fixed j →
      ∃ b ∈ s.machine.bindingsFrom base.dyns.size, b.symbol.cell? = some j

/-- The code that every run returns into has an instruction. -/
def System.Halts (w : System) : Prop :=
  ∃ i site sites, w.state.known.halt = .ref .bytecode i ∧ i ≠ 0 ∧
    w.plans i = some (.draft (site :: sites))

/-- The instruction of such code. -/
def Site.halting : Site := ⟨⟨.halt, 0, .nil⟩, .new .nil [], ⟨none, [], [], 0⟩, .any⟩

theorem System.Halts.moved {w w' : System} {m : Machine} (h : w.Halts) (hm : w.Moves w' m) :
    w'.Halts := by
  obtain ⟨i, site, sites, hhalt, hi, hplan⟩ := h
  exact ⟨i, site, sites, by rw [hm.known, hhalt], hi, by rw [hm.plans, hplan]⟩

/-- A run has ended: the stacks are as they were, with a value that programs may hold. -/
structure Ended (w : System) (o : Machine) : Prop where
  shows : Shows w.state.machine [] o
  value : w.Good w.state.machine.val
  native : w.state.machine.native = none

section Steps

variable {w w' : System} {mode : Mode} {d : Nat} {o : System} {base : Machine} {fs pile : List Frame}
  {f : Frame} {i : Nat} {s : Site} {ins : Instr}

/-- The machine moves on before an instruction is carried out. -/
theorem Leads.stepped {Q : Bool → System → Prop} (habove : o.state.machine.Above w.state.machine)
    (hins : w.heap.instr? w.state.machine.code w.state.machine.pc = some ins)
    (h : ∀ w₁, w.Moves w₁ { w.state.machine with pc := w.state.machine.pc + 1 } →
      Leads (Stepped mode d o ins) (execute ins) w₁ Q) :
    Leads (Stepped mode d o ins) step w Q := by
  unfold step
  refine Leads.bindRequire (.refl w) fun i hi => ?_
  obtain rfl := Option.some.inj (hins.symm.trans hi)
  refine Leads.bindFrom (leads_move rfl { w.takes with } ⟨habove.slots, habove.escapes⟩)
    (fun _ => Calm.stepped) fun _ w₁ hcalm hm => ?_
  exact (h w₁ hm).weaken fun w₂ hs => { Follows.trans hcalm.toRan hs.toRan, hs.toTraced.after hm with }

/-- Where a call is one that joins an environment to code, what is called is known. -/
theorem Poised.maker_of_joins (h : Poised w base f fs i s) (hi : 3 ≤ i)
    (hmade : (w.heap.instr? w.state.machine.code (i - 3)).any (·.op == .makeArray) = true) :
    s.shape.val = some .maker := by
  have hlt := (List.getElem?_eq_some_iff.1 h.site).1
  obtain ⟨t, ht⟩ : ∃ t, f.proc.sites[i - 3]? = some t :=
    ⟨_, List.getElem?_eq_getElem (Nat.lt_of_le_of_lt (Nat.sub_le _ _) hlt)⟩
  rw [h.frame.instr? ht] at hmade
  have hmakes : t.instr.op = .makeArray := by simpa using hmade
  have hsafe := h.frame.verified.safe _ t ht
  unfold Site.Safe at hsafe
  simp only [hmakes] at hsafe
  obtain ⟨-, -, ⟨u, hu, -, hmaker⟩, -⟩ := hsafe
  rw [Nat.sub_add_cancel hi, h.site] at hu
  obtain rfl := Option.some.inj hu
  exact hmaker

/-- What a frame calls is tame, unless it joins compiled code to its copies. -/
theorem Poised.tame_of_permits (h : Poised w' base f fs i s)
    (hm : w.Moves w' { w.state.machine with pc := i + 1 }) (hi : w.state.machine.pc = i)
    (hins : w.heap.instr? w.state.machine.code i = some s.instr)
    (htame : w.state.permits mode.pairs = true)
    (hcall : s.instr.op = .call ∧ s.shape.val = some .any ∨ s.instr.op = .tailCall) :
    w'.heap.isTame mode.pairs w'.state.machine.val = true := by
  rw [hm.heap, hm.machine]
  change w.heap.isTame mode.pairs w.state.machine.val = true
  unfold State.permits at htame
  rw [hi, show w.state.heap.instr? _ _ = _ from hins] at htame
  obtain ⟨⟨op, n, x⟩, scope, shape, gives⟩ := s
  rcases hcall with ⟨hop, hany⟩ | hop
  · obtain rfl : op = .call := hop
    simp only [Bool.or_eq_true, Bool.and_eq_true, decide_eq_true_eq] at htame
    refine htame.resolve_right fun ⟨hthree, hmade⟩ => ?_
    have hmaker := h.maker_of_joins hthree (by rw [hm.heap, hm.machine]; exact hmade)
    exact absurd (hany.symm.trans hmaker) (by decide)
  · obtain rfl : op = .tailCall := hop
    exact htame

theorem Addressable.moved {m : Machine} (h : Addressable w) (hm : w.Moves w' m)
    (hlimit : m.limit = w.state.machine.limit) : Addressable w' where
  cells := by rw [hm.heap]; exact h.cells
  words := by rw [hm.heap]; exact h.words
  slots := by rw [hm.machine, hlimit]; exact h.slots
  bindings := by rw [hm.heap, hm.machine, hlimit]; exact h.bindings

theorem Advances.congr {op : Opcode} {place : Return} {g g' : Frame} {pile' : List Frame}
    (hg : ∀ g'', g'.Becomes g'' → g.Becomes g'') (hdyns : g'.dyns = g.dyns) (hback : g'.back = g.back)
    (h : Advances op place (g' :: fs) pile') : Advances op place (g :: fs) pile' := by
  generalize he : g' :: fs = pile at h
  cases h with
  | stays hu =>
      obtain ⟨rfl, rfl⟩ := List.cons.inj he
      exact .stays (hg _ hu)
  | calls hu hd =>
      obtain ⟨rfl, rfl⟩ := List.cons.inj he
      exact .calls (hg _ hu) (hd.trans hdyns)
  | @leaves gs hs u u' hop hu hd =>
      cases gs with
      | nil =>
          obtain ⟨rfl, rfl⟩ := List.cons.inj he
          exact @Advances.leaves _ _ [] _ _ _ hop (hg _ hu) (hdyns ▸ hd)
      | cons v gs =>
          obtain ⟨rfl, rfl⟩ := List.cons.inj he
          exact @Advances.leaves _ _ (g :: gs) _ _ _ hop hu hd
  | givesUp hgives hnew hbacks hplace =>
      obtain ⟨rfl, rfl⟩ := List.cons.inj he
      exact .givesUp hgives hnew (hback ▸ hbacks) (hback ▸ hplace)

/-- Every instruction of a frame leads on. -/
theorem Poised.leads_execute (h : Poised w o.state.machine f fs i s) (ht : mode.target = none)
    (ha : Addressable w) (hescapes : o.state.machine.escapes = []) (hd : d ≤ w.state.roots.size)
    (hbinds : w.state.machine.dyns.size < 2 ^ 32)
    (htame : s.instr.op = .call ∧ s.shape.val = some .any ∨ s.instr.op = .tailCall →
      w.heap.isTame mode.pairs w.state.machine.val = true)
    (hset : s.instr.op = .globalSet → ∀ j, s.instr.operand.cell? = some j → mode.fixed j →
      ∃ b ∈ (f :: fs).flatMap Frame.dyns, b.symbol.cell? = some j) :
    Leads (Stepped mode d o s.instr) (execute s.instr) w
      (Goes o.state.machine s.instr.op (f :: fs)) := by
  have hcalm : ∀ w', Calm mode d o w w' → Stepped mode d o s.instr w w' := fun _ => Calm.stepped
  have hsafe := h.safe
  unfold Site.Safe at hsafe
  cases hop : s.instr.op with
  | halt => simp only [hop] at hsafe
  | const => exact hop ▸ (h.leads_const hop).weaken hcalm
  | push => exact hop ▸ (h.leads_push hop).weaken hcalm
  | drop => exact hop ▸ (h.leads_drop hop).weaken hcalm
  | stackRef => exact hop ▸ (h.leads_stackRef hop).weaken hcalm
  | stackSet => exact hop ▸ (h.leads_stackSet hop).weaken hcalm
  | envRef => exact hop ▸ (h.leads_envRef hop).weaken hcalm
  | envSet => exact hop ▸ (h.leads_envSet ht hop).weaken hcalm
  | globalRef => exact hop ▸ (h.leads_globalRef hop).weaken hcalm
  | globalSet => exact hop ▸ h.leads_globalSet (hset hop) hop
  | jump => exact hop ▸ (h.leads_jump ha hop).weaken hcalm
  | jumpIfFalse => exact hop ▸ (h.leads_jumpIfFalse ha hop).weaken hcalm
  | call => exact hop ▸ (h.leads_call ht ha hd hop fun hv => htame (.inl ⟨hop, hv⟩)).weaken hcalm
  | tailCall => exact hop ▸ (h.leads_tailCall ht hd hop (htame (.inr hop))).weaken hcalm
  | ret => exact hop ▸ (h.leads_ret hop).weaken hcalm
  | varargs =>
      -- only a call comes to it
      simp only [hop] at hsafe
      exact (h.value _ hsafe.2.2.1).elim
  | makeArray => exact hop ▸ (h.leads_makeArray ht hop).weaken hcalm
  | withCont => exact hop ▸ h.leads_withCont ht ha hescapes hbinds hop
  | popCont => exact hop ▸ h.leads_popCont hescapes hop
  | contRef => exact hop ▸ (h.leads_contRef hop).weaken hcalm
  | exit => exact hop ▸ h.leads_exit hescapes hop
  | envExit => exact hop ▸ h.leads_envExit hescapes hop
  | dynBind => exact hop ▸ h.leads_dynBind hop
  | dynUnbind => exact hop ▸ h.leads_dynUnbind hop

/-- The bindings that a run has made are those of its frames. -/
theorem Shows.bindingsFrom {m : Machine} (h : Shows m pile base) :
    m.bindingsFrom base.dyns.size = pile.flatMap Frame.dyns := by
  have he : m.dyns.toList = base.bindings.reverse ++ (pile.flatMap Frame.dyns).reverse := by
    have := h.bindings
    rw [Machine.bindings, bindingsOf, List.reverse_eq_iff, List.reverse_append] at this
    exact this
  rw [Machine.bindingsFrom, he, List.drop_left' (by simp), List.reverse_reverse]

theorem At.leads_step {val? : Option Kind} (h : At w o.state.machine (f :: fs) val?)
    (ht : mode.target = none) (ha : Addressable w) (hescapes : o.state.machine.escapes = [])
    (hd : d ≤ w.state.roots.size) (hbinds : w.state.machine.dyns.size < 2 ^ 32)
    (hpermits : w.state.Permits mode o.state.machine)
    (hins : w.heap.instr? w.state.machine.code w.state.machine.pc = some ins) :
    Leads (Stepped mode d o ins) step w (Goes o.state.machine ins.op (f :: fs)) := by
  obtain ⟨s, hs, hpoised⟩ := h.poised
  obtain rfl := Option.some.inj (hins.symm.trans hs)
  refine Leads.stepped h.shows.above hins fun w₁ hm => ?_
  have hp := hpoised w₁ hm
  refine (hp.leads_execute ht (ha.moved hm rfl) hescapes ?_ ?_
    (hp.tame_of_permits hm rfl hs hpermits.tame) fun hop => ?_).mono ?_
  · rw [hm.state]
    exact hd
  · rw [hm.machine]
    exact hbinds
  · have hsettled := hpermits.settled _ hs hop
    rwa [h.shows.bindingsFrom] at hsettled
  · rintro stop w₂ - ⟨hstop, pile', hstands, hadvances⟩
    refine ⟨hstop, pile', hstands, Advances.congr (fun _ hg => ?_) (by rfl) (by rfl) hadvances⟩
    exact ⟨hg.cell, hg.proc, hg.back, hg.args, hg.dyns⟩

/-- A call of a procedure that takes any number of arguments begins by collecting them. -/
theorem Entering.exists_least (h : Entering w base f fs 0) :
    ∃ least, f.proc.least? = some least ∧ f.proc.sites[0]? = some
      (f.proc.ctx.site (some .saved) ⟨.varargs, least, .nil⟩) := by
  obtain ⟨b, hb, hvariadic, -⟩ := h.arity
  have hfits := h.frame.fitting hb
  cases hl : f.proc.least? with
  | none => rw [hfits.exact hl] at hvariadic; cases hvariadic
  | some least => exact ⟨least, rfl, Proc.sites_zero hl⟩

theorem Entering.leads_step (h : Entering w o.state.machine f fs 0) (ht : mode.target = none)
    (hins : w.heap.instr? w.state.machine.code w.state.machine.pc = some ins) :
    Leads (Stepped mode d o ins) step w (Goes o.state.machine ins.op (f :: fs)) := by
  obtain ⟨least, hleast, hsite⟩ := h.exists_least
  have hs := h.frame.instr? hsite
  rw [h.pc] at hins
  obtain rfl := Option.some.inj (hins.symm.trans hs)
  refine Leads.stepped h.shows.above (by rw [h.pc]; exact hins) fun w₁ hm => ?_
  have hentering := h.moved hm rfl
  rw [h.pc] at hentering
  refine Leads.goes (((leads_collectRest ht hentering hleast).weaken fun _ => Calm.stepped).mono ?_)
  rintro _ w₂ - ⟨f', hback, hstands⟩
  refine ⟨[f'] ++ fs, hstands, .givesUp rfl (Nat.le_refl 1) (fun g hg => ?_) nofun⟩
  rw [List.mem_singleton.1 hg]
  exact hback

/-- The code that every run returns into stops the machine. -/
theorem System.Halts.instr? (h : w.Halts) :
    ∃ ins, w.heap.instr? w.state.known.halt 0 = some ins ∧ ins.op = .halt := by
  obtain ⟨i, site, sites, hhalt, hi, hplan⟩ := h
  have hcell : (w.heap.cell i).tag = .bytecode :=
    (w.typed.roots _ (State.mem_rootValues_iff.2 (.inr (.inr (.inl rfl)))) _ _ hhalt hi).2
  obtain ⟨b, hb⟩ := Cell.exists_of_tag_bytecode hcell
  have ht := w.typed.cells i
  unfold CellTyped ContentsOk at ht
  rw [hb] at ht
  obtain ⟨plan, hplan', hpayload, -⟩ := ht
  rw [hplan] at hplan'
  obtain rfl := Option.some.inj hplan'
  refine ⟨site.instr, ?_, ?_⟩
  · unfold Heap.instr? Heap.instrs
    rw [hhalt, Heap.bytecode?_ref hi hb]
    simp only [hpayload, Payload.instrs]
    rw [List.getElem?_toArray, List.getElem?_map, Plan.sites]
    rfl
  · rcases w.typed.known.halt with hnil | ⟨j, sites', hj, -, hplan'', hall⟩
    · rw [hnil] at hhalt
      cases hhalt
    · rw [hj] at hhalt
      obtain ⟨-, rfl⟩ := Value.ref.inj hhalt
      rw [hplan] at hplan''
      obtain rfl := Plan.draft.inj (Option.some.inj hplan'')
      exact hall site List.mem_cons_self

theorem At.leads_halt {val? : Option Kind} (h : At w o.state.machine [] val?) (hhalts : w.Halts)
    (hins : w.heap.instr? w.state.machine.code w.state.machine.pc = some ins) :
    Leads (Stepped mode d o ins) step w fun stop w' => stop = true ∧ Ended w' o.state.machine := by
  obtain ⟨hcode, hpc, rfl⟩ := h.chained
  obtain ⟨ins', hins', hop⟩ := hhalts.instr?
  rw [show w.state.machine.code = _ from hcode, show w.state.machine.pc = 0 from hpc, hins'] at hins
  obtain rfl := Option.some.inj hins
  refine Leads.stepped h.shows.above ?_ fun w₁ hm => ?_
  · rw [show w.state.machine.code = _ from hcode, show w.state.machine.pc = 0 from hpc, hins']
  · unfold execute
    simp only [hop]
    have hmachine := hm.machine
    refine Leads.ok (u := w₁) rfl (.refl w₁) ⟨rfl, ?_, ?_, ?_⟩
    · rw [hmachine]
      exact ⟨h.shows.slots, h.shows.escapes, h.shows.bindings, h.shows.room⟩
    · rw [hmachine]
      exact hm.good (h.value _ rfl)
    · rw [hmachine]
      exact h.native

/-- What a step leads to: the machine stands on a pile of frames again, or has come back to where
the run began. -/
theorem Stands.leads_step (h : Stands w o.state.machine pile) (ht : mode.target = none)
    (ha : Addressable w) (hhalts : w.Halts) (hescapes : o.state.machine.escapes = [])
    (hd : d ≤ w.state.roots.size) (hbinds : w.state.machine.dyns.size < 2 ^ 32)
    (hpermits : w.state.Permits mode o.state.machine)
    (hins : w.heap.instr? w.state.machine.code w.state.machine.pc = some ins) :
    Leads (Stepped mode d o ins) step w fun stop w' =>
      stop = true ∧ pile = [] ∧ Ended w' o.state.machine ∨
        Goes o.state.machine ins.op pile stop w' := by
  rcases h with ⟨val?, h⟩ | ⟨f, gs, rfl, h⟩
  · cases pile with
    | nil => exact (h.leads_halt hhalts hins).mono fun _ _ _ ⟨hs, he⟩ => .inl ⟨hs, rfl, he⟩
    | cons f fs =>
        exact (h.leads_step ht ha hescapes hd hbinds hpermits hins).mono fun _ _ _ => .inr
  · exact (h.leads_step ht hins).mono fun _ _ _ => .inr

end Steps

end CellLisp
