import CellLisp.Proofs.Machine.Ending
import CellLisp.Proofs.Machine.OneShot
import CellLisp.Proofs.Machine.Within

/-!
# `CellLisp.Proofs.Machine.Unwinding` — dynamic bindings are undone

Dynamic bindings are undone by the instruction at the end of their form, by an exit and after a
failure, and by nothing else.  Each of the three goes back to the depth that was noted, and to the
values that the symbols had when the oldest of the undone bindings was made (`Undone`).
-/

namespace CellLisp

/-! ## Undoing -/

/-- The oldest binding of a symbol says what it is once all of them are undone. -/
theorem undone_append_cons {newer older : List DynBinding} {b : DynBinding} {i : Nat}
    (hb : b.symbol.cell? = some i) (holder : ∀ c ∈ older, c.symbol.cell? ≠ some i)
    (now : Option Value) : undone (newer ++ b :: older) i now = b.old := by
  have hnone (v : Option Value) : undone older i v = v := by
    induction older with
    | nil => rfl
    | cons c older ih =>
        rw [undone_cons, if_neg (holder c (by simp))]
        exact ih fun c hc => holder c (List.mem_cons_of_mem _ hc)
  rw [undone, List.foldl_append, ← undone, ← undone, undone_cons, if_pos hb, hnone]

theorem undone_of_unbound {bs : List DynBinding} {i : Nat}
    (h : ∀ b ∈ bs, b.symbol.cell? ≠ some i) (now : Option Value) : undone bs i now = now := by
  induction bs with
  | nil => rfl
  | cons b bs ih =>
      rw [undone_cons, if_neg (h b (by simp))]
      exact ih fun c hc => h c (List.mem_cons_of_mem _ hc)

/-- `s'` is `s` once the dynamic bindings from a depth on are undone. -/
structure Undone (s : State) (past : List State) (depth : Nat) (s' : State) : Prop where
  depth_le : depth ≤ s.machine.dyns.size
  dyns : s'.machine.dyns = s.machine.dyns.shrink depth
  /-- Each of them is undone once, the newest first. -/
  once : ∀ i, s'.heap.valueAt i = (s.heap.restoreAll (s.machine.bindingsFrom depth)).valueAt i
  /-- A symbol gets back what it had just before the oldest of its bindings was made. -/
  restored : ∀ n b, depth ≤ n → s.machine.dyns[n]? = some b →
    (∀ n' b', depth ≤ n' → n' < n → s.machine.dyns[n']? = some b' → b'.symbol ≠ b.symbol) →
      ∃ i ins t t', b.symbol = .ref .symbol i ∧ Since (·.machine.dyns) (s :: past) n b t t' ∧
        t.heap.instr? t.machine.code t.machine.pc = some ins ∧ Binds ins t b ∧
          s'.heap.valueAt i = t.heap.valueAt i
  /-- Nothing else changes, but for continuations that control leaves. -/
  others : ∀ i, (∀ b ∈ s.machine.bindingsFrom depth, b.symbol.cell? ≠ some i) →
    s'.heap.cell i = s.heap.cell i ∨ s'.heap.cell i = (s.heap.cell i).left

section Undone

variable {s s' : State} {past : List State} {depth i : Nat}

theorem Heap.valueAt_of_left {h h' : Heap}
    (hcell : h'.cell i = h.cell i ∨ h'.cell i = (h.cell i).left) : h'.valueAt i = h.valueAt i := by
  unfold valueAt
  rcases hcell with hcell | hcell
  · rw [hcell]
  · rw [hcell]
    cases h.cell i <;> rfl

/-- The bindings from a depth on, around one of them. -/
theorem Machine.bindingsFrom_split {m : Machine} {n : Nat} {b : DynBinding} (hn : depth ≤ n)
    (hb : m.dyns[n]? = some b) : ∃ newer older, m.bindingsFrom depth = newer ++ b :: older ∧
      ∀ c ∈ older, ∃ n', depth ≤ n' ∧ n' < n ∧ m.dyns[n']? = some c := by
  have hlt : n - depth < (m.dyns.toList.drop depth).length := by
    have := (Array.getElem?_eq_some_iff.1 hb).1
    rw [List.length_drop, Array.length_toList]
    omega
  have hget : (m.dyns.toList.drop depth)[n - depth]? = some b := by
    rw [List.getElem?_drop, Nat.add_sub_cancel' hn, Array.getElem?_toList, hb]
  have hsplit := List.take_append_drop (n - depth) (m.dyns.toList.drop depth)
  rw [List.drop_eq_getElem_cons hlt] at hsplit
  rw [List.getElem?_eq_getElem hlt] at hget
  rw [Option.some.inj hget] at hsplit
  refine ⟨((m.dyns.toList.drop depth).drop (n - depth + 1)).reverse,
    ((m.dyns.toList.drop depth).take (n - depth)).reverse, ?_, fun c hc => ?_⟩
  · have := congrArg List.reverse hsplit
    rw [List.reverse_append, List.reverse_cons, List.append_assoc] at this
    exact this.symm
  · obtain ⟨j, hj⟩ := List.mem_iff_getElem?.1 (List.mem_reverse.1 hc)
    rw [List.getElem?_take] at hj
    split at hj
    · rename_i hjlt
      rw [List.getElem?_drop, Array.getElem?_toList] at hj
      exact ⟨depth + j, Nat.le_add_right _ _, by omega, hj⟩
    · cases hj

/-- A state is led to from the one before by an instruction. -/
def State.Traces (s s' : State) : Prop :=
  ∃ ins, s.heap.instr? s.machine.code s.machine.pc = some ins ∧ Traced ins s s'

/-- Symbols that get back what their bindings displaced get back what they had. -/
theorem undone_of_cells (hchain : (s :: past).IsChain fun s' s => s.Traces s')
    (hfirst : ∀ u ∈ (s :: past).getLast?, u.machine.dyns = #[])
    (htag : ∀ b ∈ s.machine.dyns, s.heap.Holds b.symbol) (hd : depth ≤ s.machine.dyns.size)
    (hdyns : s'.machine.dyns = s.machine.dyns.shrink depth)
    (hcells : ∀ i, s'.heap.cell i = (s.heap.restoreAll (s.machine.bindingsFrom depth)).cell i ∨
      s'.heap.cell i = ((s.heap.restoreAll (s.machine.bindingsFrom depth)).cell i).left) :
    Undone s past depth s' := by
  have hvalues (i : Nat) := Heap.valueAt_of_left (hcells i)
  -- each binding was made by an instruction
  have hmade {n : Nat} {b : DynBinding} (hb : s.machine.dyns[n]? = some b) :
      ∃ ins t t', Since (·.machine.dyns) (s :: past) n b t t' ∧
        t.heap.instr? t.machine.code t.machine.pc = some ins ∧ Binds ins t b := by
    have hdyns : (s :: past).IsChain fun s' s => Shifted (fun b => ∃ ins,
        s.heap.instr? s.machine.code s.machine.pc = some ins ∧ Binds ins s b)
        s.machine.dyns s'.machine.dyns :=
      hchain.imp fun s' s ⟨ins, hins, htraced⟩ =>
        htraced.dyns.imp_right fun ⟨b, hb, hbinds⟩ => ⟨b, hb, ins, hins, hbinds⟩
    obtain ⟨t, t', hsince, ins, hins, hbinds⟩ := exists_since (·.machine.dyns) hdyns hfirst hb
    exact ⟨ins, t, t', hsince, hins, hbinds⟩
  refine ⟨hd, hdyns, hvalues, fun n b hn hb hfirst => ?_, fun i hi => ?_⟩
  · obtain ⟨ins, t, t', hsince, hins, hbinds⟩ := hmade hb
    obtain ⟨-, i, -, hi, hbeq⟩ := id hbinds
    have hsymbol : b.symbol = .ref .symbol i := by rw [hbeq]
    have hcell : b.symbol.cell? = some i := Value.cell?_eq_some_iff.2 ⟨_, hsymbol, hi⟩
    refine ⟨i, ins, t, t', hsymbol, hsince, hins, hbinds, ?_⟩
    obtain ⟨newer, older, hsplit, holder⟩ := Machine.bindingsFrom_split hn hb
    have htags := (htag b (Array.mem_of_getElem? hb) _ _ hsymbol hi).2
    rw [hvalues, Heap.valueAt_restoreAll htags, hsplit, undone_append_cons hcell, hbeq]
    intro c hc hci
    obtain ⟨n', hn', hlt, hget⟩ := holder c hc
    obtain ⟨ins', u, u', -, -, -, j, -, hj, hceq⟩ := hmade hget
    have hcsymbol : c.symbol = .ref .symbol j := by rw [hceq]
    obtain rfl : j = i := Option.some.inj ((Value.cell?_eq_some_iff.2 ⟨_, hcsymbol, hj⟩).symm.trans hci)
    exact hfirst n' c hn' hlt hget (hcsymbol.trans hsymbol.symm)
  · have hsame : (s.heap.restoreAll (s.machine.bindingsFrom depth)).cell i = s.heap.cell i := by
      rw [Heap.cell_restoreAll]
      cases hc : s.heap.cell i <;> simp [undone_of_unbound hi]
    rw [← hsame]
    exact hcells i

end Undone

/-! ## Three ways -/

section Ways

variable {s s' : State} {depth pc i : Nat} {k : Cont} {value : Value} {ins : Instr}

/-- The last instruction of a dynamic binding form. -/
theorem step_dynUnbind (hins : s.heap.instr? s.machine.code s.machine.pc = some ins)
    (hop : ins.op = .dynUnbind) (hle : ins.modifier ≤ s.machine.dyns.size) :
    step s = .ok false
      ((s.atPc (s.machine.pc + 1)).unwound (s.machine.dyns.size - ins.modifier)) := by
  rw [step_eq hins]
  unfold execute
  simp only [hop]
  rw [act_bind, act_gets]
  dsimp only [State.atPc]
  rw [if_neg (Nat.not_lt.2 hle), act_bind, unwind_eq]
  rfl

end Ways

/-! ## Runs -/

/-- From `a`, a run goes through a dynamic binding form to its end. -/
structure Through (s : State) (past : List State) (a : State) (x : Place) (names : List Value) :
    Prop where
  /-- Behind the form the bindings are those that were there in front of it. -/
  behind : s.machine.pc = x.start + x.form.length → s.machine.dyns = a.machine.dyns
  /-- The last instruction undoes those of the form. -/
  last : names ≠ [] → s.machine.pc + 1 = x.start + x.form.length → ∃ s', step s = .ok false s' ∧
    s'.machine.fp = a.machine.fp ∧ s'.machine.pc = x.start + x.form.length ∧
      s'.machine.dyns = a.machine.dyns ∧ Undone s past a.machine.dyns.size s'

section Run

variable {m : Mode} {d depth : Nat} {o w : System} {procedure : Value} {args : Array Value}
  {s s' e : State} {ss : List State} {cause : Error}

theorem System.holds_symbol {b : DynBinding} (hb : b ∈ w.state.machine.dyns) :
    w.heap.Holds b.symbol := by
  refine w.typed.roots _ ?_
  simp only [State.rootValues, List.mem_append, List.mem_flatMap]
  exact .inl (.inr ⟨b, Array.mem_toList_iff.2 hb, by simp⟩)

/-- The last instruction of a form finds the bindings that it undoes. -/
theorem Underway.length_le_of_dynUnbind {pile : List Frame} {ins : Instr} (h : Underway m d o w pile)
    (hg : Ground m d o) (hins : w.heap.instr? w.state.machine.code w.state.machine.pc = some ins)
    (hop : ins.op = .dynUnbind) : ins.modifier ≤ w.state.machine.dyns.size := by
  rcases h.stands.exists_site (hg.halts.stable h.ran.stable hg.target) hins with
    ⟨-, hhalt⟩ | ⟨f, fs, site, rfl, hok, hsite, rfl, hdyns⟩
  · rw [hop] at hhalt
    cases hhalt
  · have hsafe := hok.verified.safe _ site hsite
    unfold Site.Safe at hsafe
    simp only [hop] at hsafe
    have hsize := congrArg List.length h.stands.shows.bindings
    rw [Machine.length_bindings, bindingsOf_cons, List.length_append] at hsize
    have := hsafe.1
    omega

/-- What a run undoes gets back what it had. -/
theorem Run.undone (h : Run procedure args o.state (s :: ss))
    (hl : Launch m.pairs o procedure args) (hg : Ground m d o.launched)
    (hpermits : ∀ u ∈ ss, u.Permits m o.launched.state.machine) (hd : depth ≤ s.machine.dyns.size)
    (hdyns : s'.machine.dyns = s.machine.dyns.shrink depth)
    (hcells : ∀ i, s'.heap.cell i = (s.heap.restoreAll (s.machine.bindingsFrom depth)).cell i ∨
      s'.heap.cell i = ((s.heap.restoreAll (s.machine.bindingsFrom depth)).cell i).left) :
    Undone s ss depth s' := by
  obtain ⟨w, pile, rfl, -⟩ := h.exists_underway hl hg hpermits s List.mem_cons_self
  exact undone_of_cells ((h.isChain hl hg hpermits).imp fun _ _ hled => hled.traced)
    (fun u hu => (h.first hl hg u hu).2) (fun _ hb => System.holds_symbol hb) hd hdyns hcells

/-- So does what a failed run has left behind. -/
theorem Fails.undone (h : Fails procedure args o.state cause ss e)
    (hl : Launch m.pairs o procedure args) (hg : Ground m d o.launched)
    (hpermits : ∀ u ∈ ss, u.Permits m o.launched.state.machine) (hd : depth ≤ e.machine.dyns.size)
    (hdyns : s'.machine.dyns = e.machine.dyns.shrink depth)
    (hcells : ∀ i, s'.heap.cell i = (e.heap.restoreAll (e.machine.bindingsFrom depth)).cell i ∨
      s'.heap.cell i = ((e.heap.restoreAll (e.machine.bindingsFrom depth)).cell i).left) :
    Undone e ss depth s' := by
  cases h with
  | early hbegin =>
      have hleads := leads_beginRun (m := m) (d := d) hl hg
      unfold Leads at hleads
      rw [show beginRun procedure args o.launched.state = _ from hbegin] at hleads
      obtain ⟨w, rfl, hcalm⟩ := hleads
      exact undone_of_cells (.singleton _) (fun u hu => by
        obtain rfl := Option.some.inj hu
        exact hcalm.dyns.trans hg.dyns) (fun _ hb => System.holds_symbol hb) hd hdyns hcells
  | @late s e us h hstep =>
      have hrest := fun u hu => hpermits u (List.mem_cons_of_mem _ hu)
      obtain ⟨w, pile, rfl, hunder⟩ := h.underway hl hg hrest
      obtain ⟨ins, w', hins, rfl, hstepped⟩ := hunder.fails hg (hpermits _ List.mem_cons_self) hstep
      have hchain := (h.isChain hl hg hrest).imp fun _ _ hled => hled.traced
      exact undone_of_cells (.cons_cons ⟨ins, hins, hstepped.toTraced⟩ hchain)
        (fun u hu => (h.first hl hg u (by rwa [List.getLast?_cons_cons] at hu)).2)
        (fun _ hb => System.holds_symbol hb) hd hdyns hcells

/-- What control finds inside a dynamic binding form and behind it. -/
theorem Run.through {f : Frame} {fs : List Frame} {x : Place} {names : List Value}
    {inits : List Core} {body : Core} {a : State} {newer older : List State}
    (h : Run procedure args o.state (s :: (newer ++ a :: older)))
    (hl : Launch m.pairs o procedure args) (hg : Ground m d o.launched)
    (hpermits : ∀ u ∈ newer ++ a :: older, u.Permits m o.launched.state.machine)
    (hwa : w.state = a) (hw : Underway m d o.launched w (f :: fs)) (hx : x.Stands f.proc.sites)
    (hform : x.form = .dynBind names inits body) (hstart : a.machine.pc = x.start)
    (hin : ∀ u ∈ newer, x.Contains a u) (hfp : s.machine.fp = a.machine.fp) :
    Through s (newer ++ a :: older) a x names where
  behind hend := by
    obtain ⟨site, ds, hsite, -, hbindings, hlen⟩ :=
      h.within hg hpermits hwa hw hx hform hstart hin (.inr ⟨hfp, hend⟩) hfp
    obtain ⟨site', hsite', hdyns⟩ := hx.next
    rw [← hend, hsite] at hsite'
    obtain rfl := Option.some.inj hsite'
    obtain rfl : ds = [] := List.eq_nil_of_length_eq_zero (by omega)
    rwa [List.nil_append, Machine.bindings, Machine.bindings, List.reverse_inj,
      Array.toList_inj] at hbindings
  last hnames hend := by
    have hpos : 0 < names.length := List.length_pos_iff.2 hnames
    have hstart' : x.start ≤ s.machine.pc := by
      have := Core.length_pos hx.ok
      omega
    obtain ⟨site, ds, hsite, hins, hbindings, hlen⟩ := h.within hg hpermits hwa hw hx hform
      hstart hin (.inl (.inr ⟨hfp, hstart', by omega⟩)) hfp
    obtain ⟨site', hsite', hlast, hdyns⟩ := hx.last hform hnames hend
    obtain rfl := Option.some.inj (hsite.symm.trans hsite')
    rw [hlast] at hins
    have hsize : s.machine.dyns.size = names.length + a.machine.dyns.size := by
      have := congrArg List.length hbindings
      simp only [Machine.length_bindings, List.length_append] at this
      omega
    have hdepth : s.machine.dyns.size - names.length = a.machine.dyns.size := by omega
    have hstep := step_dynUnbind hins rfl (by rw [hsize]; exact Nat.le_add_right _ _)
    refine ⟨_, hstep, hfp, hend, ?_, ?_⟩
    · change s.machine.dyns.shrink (s.machine.dyns.size - names.length) = _
      have hshrink : (s.machine.dyns.shrink a.machine.bindings.length).toList.reverse
          = a.machine.bindings := Machine.shrink_of_reverse hbindings
      rw [Machine.length_bindings] at hshrink
      rw [hdepth, ← Array.toList_inj, ← List.reverse_inj]
      exact hshrink
    · rw [hdepth]
      exact h.undone hl hg hpermits (by omega) rfl fun i => .inl rfl

end Run

end CellLisp
