import CellLisp.Proofs.Machine.Above
import CellLisp.Proofs.Machine.OneShot
import CellLisp.Proofs.Machine.Unwinding

/-!
# `CellLisp.Proofs.Machine.Owned` — what the frame at work has put on the stacks

An element of the stack of continuations, or of dynamic bindings, is the frame's own if an
instruction of that frame has put it there and control has not gone back below the frame since
(`State.Owns`).

| | |
| :-- | :-- |
| `Run.owns_cont` | so it is if its record says the frame at work |
| `Run.owns_binding` | so it is if it is among the bindings of the newest frame |

The record of a continuation names its frame; a dynamic binding has no such record, so the frame
that it belongs to is followed through the run (`Belongs.advances`).
-/

namespace CellLisp

/-- The element at `n` of a stack has been put there by an instruction of the frame at work, and
since then control has not gone back below that frame. -/
def State.Owns {α : Type} (s : State) (past : List State) (stack : State → Array α) (op : Opcode)
    (n : Nat) : Prop :=
  ∃ x newer t t' older ins, s :: past = newer ++ t' :: t :: older ∧
    t.heap.instr? t.machine.code t.machine.pc = some ins ∧ ins.op = op ∧
      t.machine.code = s.machine.code ∧ t.machine.fp = s.machine.fp ∧ (stack t).size = n ∧
        stack t' = (stack t).push x ∧
          ∀ u ∈ newer ++ [t'], (stack u)[n]? = some x ∧ s.machine.fp ≤ u.machine.fp

/-! ## Continuations -/

section Conts

variable {w : System} {o base : Machine} {pile fs : List Frame} {f : Frame} {r : Return}
  {code v : Value} {fp below dyns older n : Nat} {vs : List Value} {ks : List Label}

/-- There are as many continuations as labels, and each goes back to the code and the frame. -/
theorem Established.exists_cont (h : Established w code fp below dyns older ks vs)
    (hn : n < ks.length) : ∃ v i k, vs[n]? = some v ∧ v = .ref .object i ∧ w.heap.cell i = .cont k ∧
      k.code = code ∧ k.fp.toNat = fp := by
  induction vs generalizing ks n with
  | nil =>
      cases ks with
      | nil => exact absurd hn (Nat.not_lt_zero n)
      | cons => exact h.elim
  | cons v vs ih =>
      cases ks with
      | nil => exact h.elim
      | cons label ks =>
          cases n with
          | zero =>
              obtain ⟨i, k, hv, -, hcell, hcode, -, hfp, -⟩ := h.1.record
              exact ⟨v, i, k, rfl, hv, hcell, hcode, hfp⟩
          | succ n => exact ih h.2 (Nat.lt_of_succ_lt_succ hn)

/-- The frame that a continuation in force goes back to is not above the one at work. -/
theorem Stands.fp_le_of_cont (h : Stands w base pile) (hescapes : base.escapes = [])
    {i : Nat} {k : Cont} (hv : w.state.machine.conts[n]? = some (.ref .object i))
    (hcell : w.heap.cell i = .cont k) : k.fp.toNat ≤ w.state.machine.fp := by
  obtain ⟨us, vs, he, -⟩ := Machine.exists_of_getElem? hv
  have hescapes' : w.state.machine.conts.toList.reverse = pile.flatMap Frame.conts := by
    have := h.shows.escapes
    rwa [escapesOf, hescapes, List.append_nil] at this
  obtain ⟨j, k', fs', hj, -, hcell', hres⟩ := h.resumable us _ vs (hescapes'.symm.trans he)
  obtain ⟨-, rfl⟩ := Value.ref.inj hj
  obtain rfl := Cell.cont.inj (hcell'.symm.trans hcell)
  obtain ⟨gs, g, hs, g', rfl, hbecomes, -, rfl⟩ := hres.frames
  have hfp : k'.fp.toNat = g.base hs base := hres.chained.1.fp.trans (hbecomes.base_eq hs base)
  rw [hfp]
  cases gs with
  | nil => exact Nat.le_of_eq h.fp_eq.symm
  | cons f gs =>
      have hle : g.base hs base ≤ (slotsOf (gs ++ g :: hs) base).length := g.base_le gs hs base
      have hlt : (slotsOf (gs ++ g :: hs) base).length < f.base (gs ++ g :: hs) base :=
        f.lt_base _ base
      rw [show w.state.machine.fp = f.base (gs ++ g :: hs) base from h.fp_eq]
      omega

end Conts

section Run

variable {m : Mode} {d : Nat} {o w : System} {procedure : Value} {args : Array Value} {s t : State}
  {ss : List State} {n : Nat}

/-- A continuation whose record says the frame at work is that frame's own. -/
theorem Run.owns_cont (h : Run procedure args o.state (s :: ss))
    (hl : Launch m.pairs o procedure args) (hg : Ground m d o.launched)
    (hpermits : ∀ u ∈ ss, u.Permits m o.launched.state.machine) {i : Nat} {k : Cont}
    (hv : s.machine.conts[n]? = some (.ref .object i)) (hcell : s.heap.cell i = .cont k)
    (hcode : k.code = s.machine.code) (hfp : k.fp.toNat = s.machine.fp) :
    s.Owns ss (·.machine.conts) .withCont n := by
  have hunder := h.exists_underway hl hg hpermits
  obtain ⟨j, k', t, ins, hj, horigin⟩ := h.exists_origin hl hg hpermits hv
  obtain ⟨-, rfl⟩ := Value.ref.inj hj
  obtain rfl := Cell.cont.inj (horigin.head.2.1.symm.trans hcell)
  obtain ⟨newer, t', older, he, hall⟩ := horigin.since
  have hrank (u : State) (hu : u ∈ newer ++ [t']) : u ∈ s :: ss := by
    rw [he]
    simp only [List.mem_append, List.mem_cons] at hu ⊢
    grind
  have hsize : t.machine.conts.size = n := by
    obtain ⟨_, _, hj, hcell', hdepth, -⟩ := (h.ranked hl hg hpermits s List.mem_cons_self).entry n _ hv
    obtain ⟨-, rfl⟩ := Value.ref.inj hj
    obtain rfl := Cell.cont.inj (hcell'.symm.trans hcell)
    exact horigin.records.depth.symm.trans hdepth
  have hpushed : t'.machine.conts = t.machine.conts.push (.ref .object i) := by
    have hn := (hall t' (by simp)).1
    have hchain := h.isChain hl hg hpermits
    rw [he] at hchain
    obtain ⟨_, _, _, htraced⟩ := (List.isChain_cons_cons.1 hchain.right_of_append).1
    rcases htraced.conts with ⟨m, hm⟩ | ⟨x, hx, -⟩
    · -- there is one more than before
      have hlt := (Array.getElem?_eq_some_iff.1 hn).1
      rw [hm, Array.size_shrink] at hlt
      omega
    · rw [hx, ← hsize, Array.getElem?_push_size] at hn
      rw [hx, Option.some.inj hn]
  refine ⟨_, newer, t, t', older, ins, he, horigin.instr, horigin.op, ?_, ?_, hsize, hpushed,
    fun u hu => ?_⟩
  · exact horigin.records.code.symm.trans hcode
  · exact horigin.records.fp.symm.trans hfp
  · obtain ⟨hn, hcell', -⟩ := hall u hu
    obtain ⟨w, pile, rfl, hw⟩ := hunder u (hrank u hu)
    exact ⟨hn, hfp ▸ hw.stands.fp_le_of_cont hg.escapes hn hcell'⟩

end Run

/-! ## Dynamic bindings -/

/-- The dynamic binding at `n` is one of a frame with this code and this frame pointer. -/
def Belongs (o : Machine) (pile : List Frame) (cell fp n : Nat) : Prop :=
  ∃ gs g fs, pile = gs ++ g :: fs ∧ g.cell = cell ∧ g.base fs o = fp ∧
    (bindingsOf fs o).length ≤ n ∧ n < (bindingsOf (g :: fs) o).length

section Belongs

variable {w : System} {o : Machine} {pile pile' fs : List Frame} {f f' : Frame} {op : Opcode}
  {place : Return} {cell fp n : Nat}

/-- The frame is not above the one at work. -/
theorem Belongs.fp_le (h : Belongs o pile cell fp n) (hw : Stands w o pile) :
    fp ≤ w.state.machine.fp := by
  obtain ⟨gs, g, fs, rfl, -, rfl, -⟩ := h
  cases gs with
  | nil => exact Nat.le_of_eq hw.fp_eq.symm
  | cons f gs =>
      have hle := g.base_le gs fs o
      have hlt := f.lt_base (gs ++ g :: fs) o
      rw [show w.state.machine.fp = f.base (gs ++ g :: fs) o from hw.fp_eq]
      omega

theorem Belongs.lt (h : Belongs o pile cell fp n) : n < (bindingsOf pile o).length := by
  obtain ⟨gs, g, fs, rfl, -, -, -, hlt⟩ := h
  rw [bindingsOf_append, List.length_append]
  omega

theorem Belongs.cons (h : Belongs o fs cell fp n) (gs : List Frame) :
    Belongs o (gs ++ fs) cell fp n := by
  obtain ⟨us, g, hs, rfl, hrest⟩ := h
  exact ⟨gs ++ us, g, hs, (List.append_assoc gs us _).symm, hrest⟩

/-- It is one of the newest frame, or of an older one. -/
theorem Belongs.cases (h : Belongs o (f :: fs) cell fp n) :
    f.cell = cell ∧ f.base fs o = fp ∧ (bindingsOf fs o).length ≤ n ∨ Belongs o fs cell fp n := by
  obtain ⟨gs, g, hs, he, hcell, hfp, hn, hlt⟩ := h
  cases gs with
  | nil =>
      obtain ⟨rfl, rfl⟩ := List.cons.inj he
      exact .inl ⟨hcell, hfp, hn⟩
  | cons _ gs =>
      obtain ⟨rfl, rfl⟩ := List.cons.inj he
      exact .inr ⟨gs, g, hs, rfl, hcell, hfp, hn, hlt⟩

/-- A binding above those of the older frames is one of the newest. -/
theorem Belongs.newest (h : Belongs o (f :: fs) cell fp n) (hn : (bindingsOf fs o).length ≤ n) :
    f.cell = cell ∧ f.base fs o = fp := by
  rcases h.cases with ⟨hcell, hfp, -⟩ | hfs
  · exact ⟨hcell, hfp⟩
  · exact absurd hfs.lt (Nat.not_lt.2 hn)

/-- The frame goes on with the binding, if that is still there. -/
theorem Frame.Becomes.belongs (h : f.Becomes f') (hf : f.cell = cell ∧ f.base fs o = fp ∧
    (bindingsOf fs o).length ≤ n) (hn : n < (bindingsOf (f' :: fs) o).length) :
    Belongs o (f' :: fs) cell fp n :=
  ⟨[], f', fs, rfl, h.cell.trans hf.1, (h.base_eq fs o).trans hf.2.1, hf.2.2, hn⟩

/-- As long as a binding is there it belongs to the frame that it has belonged to. -/
theorem Belongs.advances (h : Belongs o pile cell fp n) (hadvances : Advances op place pile pile')
    (hn : n < (bindingsOf pile' o).length)
    (hgives : op.givesUp = true → ∀ f fs, pile = f :: fs → f.dyns = []) :
    Belongs o pile' cell fp n := by
  cases hadvances with
  | stays hbecomes =>
      rcases h.cases with hf | hfs
      · exact hbecomes.belongs hf hn
      · exact hfs.cons [_]
  | @calls fs f f' g hbecomes hdyns =>
      rcases h.cases with hf | hfs
      · have hlt := h.lt
        rw [bindingsOf_cons, ← hdyns, ← bindingsOf_cons] at hlt
        exact (hbecomes.belongs hf hlt).cons [g]
      · exact hfs.cons [g, f']
  | @leaves gs fs f f' _ hbecomes hdyns =>
      -- a frame that has been left had newer bindings only
      have hle : (bindingsOf (f' :: fs) o).length ≤ (bindingsOf (f :: fs) o).length := by
        rw [bindingsOf_cons, bindingsOf_cons, List.length_append, List.length_append]
        have := hdyns.length_le
        omega
      have hrest : Belongs o (f :: fs) cell fp n := by
        clear hgives
        induction gs with
        | nil => exact h
        | cons g gs ih =>
            refine ih (h.cases.resolve_left fun ⟨_, _, hlow⟩ => ?_)
            rw [List.append_eq, bindingsOf_append, List.length_append] at hlow
            omega
      rcases hrest.cases with hf | hfs
      · exact hbecomes.belongs hf hn
      · exact hfs.cons [_]
  | @givesUp fs new f hop =>
      refine (h.cases.resolve_left fun ⟨_, _, hlow⟩ => ?_).cons new
      have hlt := h.lt
      rw [bindingsOf_cons, hgives hop f fs rfl, List.nil_append] at hlt
      omega

end Belongs

section Run

variable {m : Mode} {d : Nat} {o w : System} {pile fs : List Frame} {f : Frame} {ins : Instr}
  {procedure : Value} {args : Array Value} {s s' t t' : State} {ss : List State} {cell fp n : Nat}
  {b : DynBinding}

/-- An instruction that gives up its frame finds no dynamic binding of that. -/
theorem Underway.dyns_eq_nil (h : Underway m d o w (f :: fs)) (hg : Ground m d o)
    (hins : w.heap.instr? w.state.machine.code w.state.machine.pc = some ins)
    (hop : ins.op.givesUp = true) : f.dyns = [] := by
  rcases h.stands.exists_site (hg.halts.stable h.ran.stable hg.target) hins with
    ⟨he, -⟩ | ⟨_, _, site, he, hok, hsite, rfl, hdyns⟩
  · cases he
  obtain ⟨rfl, rfl⟩ := List.cons.inj he
  have hverified := hok.verified
  have hsafe := hverified.safe _ site hsite
  refine List.eq_nil_of_length_eq_zero (hdyns.symm.trans ?_)
  unfold Site.Safe at hsafe
  cases hinstr : site.instr.op with
  | ret | tailCall =>
      simp only [hinstr] at hsafe
      grind
  | varargs =>
      -- it comes first
      obtain ⟨first, hfirst, hforget, -⟩ := hverified.start
      obtain ⟨hzero, -⟩ := (hverified.first _ site hsite).1 hinstr
      rw [hzero] at hsite
      obtain rfl := Option.some.inj (hsite.symm.trans hfirst)
      exact (Shape.mk.inj hforget).2.2.2
  | _ => simp [hinstr, Opcode.givesUp] at hop

/-- A binding that stays belongs to the same frame after one instruction. -/
theorem Underway.belongs_next (h : Underway m d o w pile) (hg : Ground m d o)
    (hpermits : w.state.Permits m o.state.machine) (hstep : step w.state = .ok false s')
    (hbelongs : Belongs o.state.machine pile cell fp n) (hn : n < s'.machine.dyns.size) :
    ∃ w' pile', w'.state = s' ∧ Underway m d o w' pile' ∧ Belongs o.state.machine pile' cell fp n := by
  obtain ⟨ins, w', pile', hins, rfl, -, hnext, hadvances⟩ := h.next hg hpermits hstep
  refine ⟨w', pile', rfl, hnext, hbelongs.advances hadvances ?_ ?_⟩
  · rw [← hnext.stands.shows.bindings, Machine.length_bindings]
    exact hn
  · rintro hop f fs rfl
    exact h.dyns_eq_nil hg hins hop

/-- To bind a symbol leaves the frame pointer where it is. -/
theorem fp_of_dynBind (hins : s.heap.instr? s.machine.code s.machine.pc = some ins)
    (hop : ins.op = .dynBind) (hstep : step s = .ok false s') : s'.machine.fp = s.machine.fp := by
  rw [step_eq hins] at hstep
  unfold execute at hstep
  simp only [hop] at hstep
  obtain ⟨v, t, hv, hstep⟩ := exists_of_bind_eq_ok hstep
  obtain ⟨rfl, rfl⟩ := EStateM.Result.ok.inj hv
  obtain ⟨_, t, hbind, hret⟩ := exists_of_bind_eq_ok hstep
  obtain ⟨-, rfl⟩ := EStateM.Result.ok.inj hret
  rw [bindDynamic_eq] at hbind
  cases hr : (s.atPc (s.machine.pc + 1)).heap.symbol? ins.operand with
  | none =>
      rw [hr] at hbind
      cases hbind
  | some r =>
      rw [hr] at hbind
      obtain ⟨-, rfl⟩ := EStateM.Result.ok.inj hbind
      rfl

/-- A new binding belongs to the frame that has made it. -/
theorem Underway.belongs_new (h : Underway m d o w pile) (hg : Ground m d o)
    (hpermits : w.state.Permits m o.state.machine) (hstep : step w.state = .ok false s')
    (hins : w.heap.instr? w.state.machine.code w.state.machine.pc = some ins)
    (hop : ins.op = .dynBind) (hpushed : s'.machine.dyns = w.state.machine.dyns.push b) :
    ∃ w' pile' c, w'.state = s' ∧ Underway m d o w' pile' ∧
      w.state.machine.code = .ref .bytecode c ∧
        Belongs o.state.machine pile' c w.state.machine.fp w.state.machine.dyns.size := by
  rcases h.stands.exists_site (hg.halts.stable h.ran.stable hg.target) hins with
    ⟨-, hhalt⟩ | ⟨f, fs, -, rfl, hok, -⟩
  · rw [hop] at hhalt
    cases hhalt
  have hfp : w.state.machine.fp = f.base fs o.state.machine := h.stands.fp_eq
  obtain ⟨ins', w', pile', hins', rfl, -, hnext, hadvances⟩ := h.next hg hpermits hstep
  obtain rfl := Option.some.inj (hins.symm.trans hins')
  have hfp' : w'.state.machine.fp = w.state.machine.fp := fp_of_dynBind hins hop hstep
  have hsize := congrArg List.length h.stands.shows.bindings
  have hsize' := congrArg List.length hnext.stands.shows.bindings
  rw [Machine.length_bindings] at hsize hsize'
  rw [hpushed, Array.size_push] at hsize'
  generalize hpile : f :: fs = pile at hadvances
  cases hadvances with
  | stays hbecomes =>
      obtain ⟨rfl, rfl⟩ := List.cons.inj hpile
      refine ⟨w', _, f.cell, rfl, hnext, hok.code, [], _, fs, rfl, hbecomes.cell,
        (hbecomes.base_eq fs _).trans hfp.symm, ?_, by omega⟩
      rw [hsize, bindingsOf_cons, List.length_append]
      omega
  | @calls fs' f₀ f' g hbecomes _ =>
      -- a frame on top would have raised the frame pointer
      obtain ⟨rfl, rfl⟩ := List.cons.inj hpile
      have hbase : w'.state.machine.fp = g.base (f' :: fs) o.state.machine := hnext.stands.fp_eq
      have hle : f'.base fs o.state.machine ≤ _ := f'.base_le [] fs o.state.machine
      have hlt := g.lt_base (f' :: fs) o.state.machine
      rw [hbecomes.base_eq] at hle
      simp only [List.nil_append] at hle
      omega
  | leaves hexits =>
      rw [hop] at hexits
      cases hexits
  | givesUp hgives =>
      rw [hop] at hgives
      cases hgives

/-- A binding above those of the older frames is the newest frame's own. -/
theorem Run.owns_binding (h : Run procedure args o.state (s :: ss))
    (hl : Launch m.pairs o procedure args) (hg : Ground m d o.launched)
    (hpermits : ∀ u ∈ ss, u.Permits m o.launched.state.machine) (hn : n < s.machine.dyns.size)
    (hlow : ∀ w f fs, w.state = s → Underway m d o.launched w (f :: fs) →
      (bindingsOf fs o.launched.state.machine).length ≤ n) :
    s.Owns ss (·.machine.dyns) .dynBind n := by
  let base := o.launched.state.machine
  have hchain : (s :: ss).IsChain fun s' s => Led s s' ∧ s.Permits m base :=
    (h.isChain hl hg hpermits).imp_of_mem_tail_imp fun _ u _ hu hled => ⟨hled, hpermits u hu⟩
  have hbinds : (s :: ss).IsChain fun s' s => Shifted (fun b => ∃ ins,
      s.heap.instr? s.machine.code s.machine.pc = some ins ∧ Binds ins s b)
      s.machine.dyns s'.machine.dyns :=
    hchain.imp fun s' s ⟨⟨_, ins, hins, htraced⟩, _⟩ =>
      htraced.dyns.imp_right fun ⟨b, hb, hnew⟩ => ⟨b, hb, ins, hins, hnew⟩
  obtain ⟨t, t', hsince, ins, hins, hop, -⟩ :=
    exists_since (·.machine.dyns) hbinds (fun u hu => (h.first hl hg u hu).2)
      (Array.getElem?_eq_getElem hn)
  obtain ⟨newer, older, he, -⟩ := hsince.split
  -- the frame that made the binding has it ever since
  have ht : t ∈ ss := by
    cases newer with
    | nil => simp [(List.cons.inj he).2]
    | cons u newer => simp [(List.cons.inj he).2]
  have hstep : step t = .ok false t' := by
    rw [he] at hchain
    exact (List.isChain_cons_cons.1 hchain.right_of_append).1.1.step
  obtain ⟨w, pile, rfl, hw⟩ := h.exists_underway hl hg hpermits t (List.mem_cons_of_mem _ ht)
  obtain ⟨w', pile', c, rfl, hw', hcode, hbelongs⟩ :=
    hw.belongs_new hg (hpermits _ ht) hstep hins hop hsince.pushed
  rw [show w.state.machine.dyns.size = n from hsince.size] at hbelongs
  obtain ⟨newer, older, he, hall⟩ := hsince.keeps (R := fun s s' => Led s s' ∧ s.Permits m base)
    (P := fun u => ∃ w' pile, w'.state = u ∧ Underway m d o.launched w' pile ∧
      Belongs base pile c w.state.machine.fp n) hchain ⟨w', pile', rfl, hw', hbelongs⟩
    fun u u' _ ⟨hled, hpermits⟩ _ hn' ⟨v, pile, hv, hunder, hmine⟩ => by
      subst hv
      exact hunder.belongs_next hg hpermits hled.step hmine (Array.getElem?_eq_some_iff.1 hn').1
  obtain ⟨-, v, pile, hv, hunder, hmine⟩ := hall s (by
    cases newer <;> simp [(List.cons.inj he).1])
  subst hv
  obtain ⟨f, fs, rfl⟩ : ∃ f fs, pile = f :: fs := by
    obtain ⟨gs, g, fs, rfl, -⟩ := hmine
    cases gs with
    | nil => exact ⟨g, fs, rfl⟩
    | cons f gs => exact ⟨f, gs ++ g :: fs, rfl⟩
  obtain ⟨hcell, hfp⟩ := hmine.newest (hlow v f fs rfl hunder)
  have hcode' : v.state.machine.code = _ := hunder.stands.exists_place.1.code
  have hfp' : v.state.machine.fp = w.state.machine.fp := hunder.stands.fp_eq.trans hfp
  refine ⟨_, newer, w.state, w'.state, older, ins, he, hins, hop, ?_, hfp'.symm, hsince.size,
    hsince.pushed, fun u hu => ?_⟩
  · rw [hcode, hcode', hcell]
  · obtain ⟨hu, v', pile, rfl, hunder', hmine'⟩ := hall u hu
    exact ⟨hu, hfp' ▸ hmine'.fp_le hunder'.stands⟩

end Run

end CellLisp
