import CellLisp.Proofs.Code.Label
import CellLisp.Proofs.Machine.History

/-!
# `CellLisp.Proofs.Machine.OneShot` — continuations lead down the stack, and once

A continuation in force was established by one instruction of the run, and what its record says
has been so since (`Origin`): the stacks have not gone below where they were then.  So an exit to
it finds them all, goes back to that instruction's frame, and marks it.  One that is marked is in
force no more, and stays marked as long as anything refers to it.
-/

namespace CellLisp

/-- What is below the top of a stack stays below it, as long as the stack is no shorter. -/
theorem Shifted.prefix_kept {α : Type} {New : α → Prop} {xs : List α} {ys zs : Array α}
    (h : Shifted New ys zs) (hxs : xs <+: ys.toList) (hle : xs.length ≤ zs.size) :
    xs <+: zs.toList := by
  rcases h with ⟨n, rfl⟩ | ⟨y, rfl, -⟩
  · rw [Array.toList_shrink]
    refine List.prefix_take_iff.2 ⟨hxs, ?_⟩
    rw [← Array.length_toList, Array.toList_shrink, List.length_take] at hle
    omega
  · rw [Array.toList_push]
    exact hxs.trans (List.prefix_append _ _)

/-- A continuation in force at depth `n` was established at `t` by the instruction `ins`, in a cell
that nothing led to; since then its record is the same, and what was in force then still is. -/
structure Origin (ss : List State) (n i : Nat) (k : Cont) (t : State) (ins : Instr) : Prop where
  instr : t.heap.instr? t.machine.code t.machine.pc = some ins
  op : ins.op = .withCont
  fresh : ¬t.heap.Reachable t.rootValues i
  records : k.Records t.machine ins.operand.word
  since : ∃ newer t' older, ss = newer ++ t' :: t :: older ∧ ∀ u ∈ newer ++ [t'],
    u.machine.conts[n]? = some (.ref .object i) ∧ u.heap.cell i = .cont k ∧
      t.machine.conts.toList <+: u.machine.conts.toList ∧
        t.machine.dyns.toList <+: u.machine.dyns.toList

section Origin

variable {s t : State} {ss : List State} {n i : Nat} {v : Value} {k : Cont} {ins : Instr}

/-- Every continuation in force comes from an instruction of the run. -/
theorem exists_origin (hchain : (s :: ss).IsChain fun s' s => Led s s')
    (hfirst : ∀ u ∈ (s :: ss).getLast?, u.machine.conts = #[])
    (hranked : ∀ u ∈ s :: ss, u.Ranked) (hv : s.machine.conts[n]? = some v) :
    ∃ i k t ins, v = .ref .object i ∧ Origin (s :: ss) n i k t ins := by
  have hshifted := hchain.imp fun s' s (h : Led s s') => h.traced
  have hconts : (s :: ss).IsChain fun s' s => Shifted (fun v => ∃ ins,
      s.heap.instr? s.machine.code s.machine.pc = some ins ∧ Establishes ins s s' v)
      s.machine.conts s'.machine.conts :=
    hshifted.imp fun s' s ⟨ins, hins, htraced⟩ =>
      htraced.conts.imp_right fun ⟨x, hx, hnew⟩ => ⟨x, hx, ins, hins, hnew⟩
  obtain ⟨t, t', hsince, ins, hins, hop, i, k, rfl, hfresh, hcell, hrecords, hdyns⟩ :=
    exists_since (·.machine.conts) hconts hfirst hv
  refine ⟨i, k, t, ins, rfl, hins, hop, hfresh, hrecords, ?_⟩
  have hpushed : t'.machine.conts = t.machine.conts.push (.ref .object i) := hsince.pushed
  let P (u : State) : Prop := u.heap.cell i = .cont k ∧
    t.machine.conts.toList <+: u.machine.conts.toList ∧
      t.machine.dyns.toList <+: u.machine.dyns.toList
  have hnew : P t' := by
    refine ⟨hcell, ?_, ?_⟩
    · rw [hpushed, Array.toList_push]
      exact List.prefix_append _ _
    · exact ⟨[], by rw [hdyns, List.append_nil]⟩
  have hstep (u u' : State) (hu' : u' ∈ s :: ss)
      (hled : ∃ ins, u.heap.instr? u.machine.code u.machine.pc = some ins ∧ Traced ins u u')
      (hu : u.machine.conts[n]? = some (.ref .object i))
      (hin : u'.machine.conts[n]? = some (.ref .object i)) (hp : P u) : P u' := by
    obtain ⟨ins', -, htraced⟩ := hled
    obtain ⟨hcell, hconts, hdyns⟩ := hp
    have hcell' := htraced.records i k (Array.mem_toList_iff.2 (Array.mem_of_getElem? hu))
      (Array.mem_toList_iff.2 (Array.mem_of_getElem? hin)) hcell
    obtain ⟨j, l, hj, hl, hdepth, -, hle⟩ := (hranked u' hu').entry n _ hin
    obtain ⟨-, rfl⟩ := Value.ref.inj hj
    obtain rfl := Cell.cont.inj (hcell'.symm.trans hl)
    refine ⟨hcell', htraced.conts.prefix_kept hconts ?_, htraced.dyns.prefix_kept hdyns ?_⟩
    · rw [Array.length_toList, ← hrecords.depth, hdepth]
      exact Nat.le_of_lt (Array.getElem?_eq_some_iff.1 hin).1
    · rw [Array.length_toList, ← hrecords.dynDepth]
      exact hle
  obtain ⟨newer, older, he, hall⟩ := hsince.keeps hshifted hnew hstep
  exact ⟨newer, t', older, he, fun u hu => ⟨(hall u hu).1, (hall u hu).2⟩⟩

end Origin

/-! ## Exits -/

/-- An exit from `s` with a value resumes at the instruction `target`, where the continuation was
established at `t`; that one and the newer ones are left. -/
structure Resumes (s : State) (value : Value) (t : State) (target : Nat) (s' : State) : Prop where
  depth : t.machine.stack.size ≤ s.machine.stack.size
  machine : s'.machine = { s.machine with
    val := value
    code := t.machine.code
    pc := target
    fp := t.machine.fp
    stack := s.machine.stack.shrink t.machine.stack.size
    conts := t.machine.conts
    dyns := t.machine.dyns }
  left : ∀ (n j : Nat) (l : Cont), t.machine.conts.size ≤ n →
    s.machine.conts[n]? = some (.ref .object j) → s.heap.cell j = .cont l →
      s'.heap.cell j = .cont l.left

section Exits

variable {s t : State} {ss : List State} {n i pc : Nat} {k : Cont} {ins : Instr} {value : Value}

theorem Array.shrink_of_prefix {α : Type} {xs ys : Array α} (h : xs.toList <+: ys.toList) :
    ys.shrink xs.size = xs := by
  rw [← Array.toList_inj, Array.toList_shrink, ← Array.length_toList]
  exact (List.prefix_iff_eq_take.1 h).symm

theorem Origin.head (h : Origin (s :: ss) n i k t ins) :
    s.machine.conts[n]? = some (.ref .object i) ∧ s.heap.cell i = .cont k ∧
      t.machine.conts.toList <+: s.machine.conts.toList ∧
        t.machine.dyns.toList <+: s.machine.dyns.toList := by
  obtain ⟨newer, t', older, he, hall⟩ := h.since
  refine hall s ?_
  cases newer with
  | nil =>
      obtain ⟨rfl, -⟩ := List.cons.inj he
      exact List.mem_singleton_self s
  | cons u newer =>
      obtain ⟨rfl, -⟩ := List.cons.inj he
      exact List.mem_cons_self

theorem Origin.mem_tail (h : Origin (s :: ss) n i k t ins) : t ∈ ss := by
  obtain ⟨newer, t', older, he, -⟩ := h.since
  cases newer with
  | nil => exact (List.cons.inj he).2 ▸ List.mem_cons_self
  | cons _ newer =>
      rw [(List.cons.inj he).2]
      simp

theorem Heap.cont?_ref {h : Heap} {i : Nat} {k : Cont} (hc : h.cell i = .cont k) (hi : i ≠ 0) :
    h.cont? (.ref .object i) = some k := by
  have hcell : (Value.ref .object i).cell? = some i := Value.cell?_eq_some_iff.2 ⟨_, rfl, hi⟩
  simp only [cont?, hcell, Option.map_some, hc]

/-- An exit to a continuation in force goes back to where it was established. -/
theorem Origin.resumes (h : Origin (s :: ss) n i k t ins) (hr : s.Ranked) (value : Value)
    (pc : Nat) :
    exitTo (.ref .object i) value (s.atPc pc) = .ok () (s.exited k value) ∧
      Resumes s value t ins.operand.word (s.exited k value) := by
  obtain ⟨hin, hcell, hconts, hdyns⟩ := h.head
  obtain ⟨j, l, hj, hl, hdepth, hsp, -⟩ := hr.entry n _ hin
  obtain ⟨-, rfl⟩ := Value.ref.inj hj
  obtain rfl := Cell.cont.inj (hcell.symm.trans hl)
  have hrec := h.records
  refine ⟨exitTo_of_live rfl (Heap.cont?_ref hcell (hr.nonzero i k hcell)) hrec.exited ?_ hsp, ?_, ?_, ?_⟩
  · rw [hdepth]
    exact hin
  · rw [← hrec.sp]
    exact hsp
  · rw [State.machine_exited, hrec.sp, hrec.depth, hrec.dynDepth, hrec.code, hrec.pc, hrec.fp,
      Array.shrink_of_prefix hconts, Array.shrink_of_prefix hdyns]
  · intro n' j l hn hj hl
    have hmem : .ref .object j ∈ s.machine.conts.toList.drop k.depth.toNat := by
      refine List.mem_of_getElem? (i := n' - t.machine.conts.size) ?_
      rw [hrec.depth, List.getElem?_drop, Nat.add_sub_cancel' hn, Array.getElem?_toList]
      exact hj
    rw [State.cell_exited, State.cell_dropped,
      if_pos ⟨_, hmem, Value.cell?_eq_some_iff.2 ⟨_, rfl, hr.nonzero j l hl⟩⟩, hl]
    rfl

/-- What an exit fails with is not that the continuation is stale. -/
theorem State.Ranked.not_stale (hr : s.Ranked) (target value : Value) (pc : Nat) (s' : State) :
    exitTo target value (s.atPc pc) ≠ .error (.error .staleCont) s' := by
  cases hk : if target.object?.isSome then s.heap.cont? target else none with
  | none =>
      rw [exitTo_of_none (s := s.atPc pc) hk]
      intro he
      unfold typeError at he
      rw [act_bind] at he
      cases he
  | some k =>
      obtain ⟨j, rfl, hcell, hk⟩ := Heap.exists_target hk
      cases hleft : k.exited with
      | true =>
          rw [exitTo_of_left (s := s.atPc pc) rfl hk hleft]
          nofun
      | false =>
          have hentry := hr.live j k hcell hleft
          obtain ⟨_, l, he, hl, -, hsp, -⟩ := hr.entry _ _ hentry
          obtain ⟨-, rfl⟩ := Value.ref.inj he
          obtain rfl := Cell.cont.inj (hcell.symm.trans hl)
          rw [exitTo_of_live (s := s.atPc pc) rfl hk hleft hentry hsp]
          nofun

/-- Where a continuation is established, its form ends just before where it resumes. -/
theorem Stands.exists_popCont {w : System} {base : Machine} {pile : List Frame}
    (h : Stands w base pile) (hhalts : w.Halts) (ha : Addressable w)
    (hins : w.heap.instr? w.state.machine.code w.state.machine.pc = some ins)
    (hop : ins.op = .withCont) :
    ∃ last, w.heap.instr? w.state.machine.code (ins.operand.word - 1) = some last ∧
      last.op = .popCont := by
  rcases h.exists_site hhalts hins with ⟨-, hhalt⟩ | ⟨f, fs, site, -, hok, hsite, rfl, -⟩
  · rw [hop] at hhalt
    cases hhalt
  obtain ⟨j, last, -, hx, hlast, hpop⟩ := f.proc.paired _ site hsite hop
  have hlt := (List.getElem?_eq_some_iff.1 hlast).1
  have hlen := hok.length_sites ha
  refine ⟨last.instr, ?_, hpop⟩
  rw [hx, Nat.zero_add, Value.word_ofInt (by omega), Nat.add_sub_cancel]
  exact hok.instr? hlast

end Exits

/-! ## Runs -/

/-- In a state between instructions, with those before it, the continuations in force are in order,
and each of them can be exited to once, down the stack. -/
structure State.OneShot (s : State) (past : List State) : Prop extends s.Ranked where
  nodup : s.machine.conts.toList.Nodup
  unexited : ∀ (n i : Nat) (k : Cont), s.machine.conts[n]? = some (.ref .object i) →
    s.heap.cell i = .cont k → k.exited = false
  notStale : ∀ target value pc s', exitTo target value (s.atPc pc) ≠ .error (.error .staleCont) s'
  resumes : ∀ i k value pc, s.heap.cell i = .cont k → k.exited = false → ∃ t ∈ past, ∃ ins last s',
    t.heap.instr? t.machine.code t.machine.pc = some ins ∧ ins.op = .withCont ∧
      t.heap.instr? t.machine.code (ins.operand.word - 1) = some last ∧ last.op = .popCont ∧
        s.machine.conts[t.machine.conts.size]? = some (.ref .object i) ∧
          exitTo (.ref .object i) value (s.atPc pc) = .ok () s' ∧
            Resumes s value t ins.operand.word s'
  spent : ∀ i k value pc, s.heap.cell i = .cont k → k.exited = true →
    exitTo (.ref .object i) value (s.atPc pc) = .error (.error .exitedCont) (s.atPc pc)
  once : ∀ newer t older, s :: past = newer ++ t :: older → ∀ i k l,
    t.heap.cell i = .cont k → k.exited = true → s.heap.cell i = .cont l → l.exited = false →
      ∃ u ∈ newer ++ [t], ¬u.heap.Reachable u.rootValues i

section Run

variable {o : System} {procedure : Value} {args : Array Value} {s : State} {ss : List State}

/-- A rule that only says what may be called is kept if every call is tame. -/
theorem State.permits_of_tame {m : Mode} {base : Machine} (h : s.permits m.pairs = true)
    (hm : ∀ i, ¬m.fixed i) : s.Permits m base :=
  ⟨h, fun _ _ _ j _ hj => absurd hj (hm j)⟩

/-- As long as compiled code alone joins code to copies, a run stands on a pile of frames. -/
theorem Run.exists_stands {d : Nat} (h : Run procedure args o.state (s :: ss))
    (hl : Launch false o procedure args) (hd : d ≤ o.state.roots.size)
    (htame : ∀ u ∈ ss, u.permits false = true) :
    ∃ w pile, w.state = s ∧ Stands w o.launched.state.machine pile ∧ w.Halts ∧ Addressable w ∧
      Stable { machine := false, pairs := false } d o.launched w := by
  let m : Mode := { machine := false, pairs := false }
  have hg : Ground m d o.launched := hl.ground rfl hd
  have hpermits : ∀ u ∈ ss, u.Permits m o.launched.state.machine := fun u hu =>
    State.permits_of_tame (htame u hu) fun _ => id
  obtain ⟨w, pile, rfl, hunder⟩ := h.underway hl hg hpermits
  have hstable := hunder.ran.stable
  exact ⟨w, pile, rfl, hunder.stands, hg.halts.stable hstable hg.target,
    hg.addressable.stable hstable, hstable⟩

section History

variable {m : Mode} {d : Nat}

/-- Every state of a run has a system behind it. -/
theorem Run.exists_underway (h : Run procedure args o.state (s :: ss))
    (hl : Launch m.pairs o procedure args) (hg : Ground m d o.launched)
    (hpermits : ∀ u ∈ ss, u.Permits m o.launched.state.machine) :
    ∀ u ∈ s :: ss, ∃ w pile, w.state = u ∧ Underway m d o.launched w pile := by
  intro u hu
  obtain ⟨newer, older, he⟩ := List.append_of_mem hu
  rw [he] at h
  refine (h.of_append (List.cons_ne_nil _ _)).underway hl hg fun v hv => hpermits v ?_
  cases newer with
  | nil => exact (List.cons.inj he).2 ▸ hv
  | cons _ newer =>
      rw [(List.cons.inj he).2]
      simp [hv]

theorem Run.ranked (h : Run procedure args o.state (s :: ss))
    (hl : Launch m.pairs o procedure args) (hg : Ground m d o.launched)
    (hpermits : ∀ u ∈ ss, u.Permits m o.launched.state.machine) : ∀ u ∈ s :: ss, u.Ranked := by
  intro u hu
  obtain ⟨w, pile, rfl, hw⟩ := h.exists_underway hl hg hpermits u hu
  exact hw.stands.resumable.ranked hw.stands.shows hg.escapes

/-- Each continuation in force was established by an instruction of the run. -/
theorem Run.exists_origin (h : Run procedure args o.state (s :: ss))
    (hl : Launch m.pairs o procedure args) (hg : Ground m d o.launched)
    (hpermits : ∀ u ∈ ss, u.Permits m o.launched.state.machine) {n : Nat} {v : Value}
    (hv : s.machine.conts[n]? = some v) :
    ∃ i k t ins, v = .ref .object i ∧ Origin (s :: ss) n i k t ins :=
  CellLisp.exists_origin (h.isChain hl hg hpermits) (fun u hu => (h.first hl hg u hu).1)
    (h.ranked hl hg hpermits) hv

end History

/-- As long as compiled code alone joins code to copies, escape continuations are one-shot and lead
down the stack only. -/
theorem Run.oneShot (h : Run procedure args o.state (s :: ss)) (hl : Launch false o procedure args)
    (htame : ∀ u ∈ ss, u.permits false = true) : s.OneShot ss := by
  let m : Mode := { machine := false, pairs := false }
  have hg : Ground m 0 o.launched := hl.ground rfl (Nat.zero_le _)
  have hpermits : ∀ u ∈ ss, u.Permits m o.launched.state.machine := fun u hu =>
    State.permits_of_tame (htame u hu) fun _ => id
  have hunder := h.exists_underway hl hg hpermits
  have horigin {n : Nat} {v : Value} := h.exists_origin hl hg hpermits (n := n) (v := v)
  have hr := h.ranked hl hg hpermits s List.mem_cons_self
  refine { hr with
    nodup := ?_, unexited := ?_, notStale := hr.not_stale, resumes := ?_, spent := ?_, once := ?_ }
  · obtain ⟨w, pile, rfl, hw⟩ := hunder s List.mem_cons_self
    have hescapes := hw.stands.shows.escapes
    rw [escapesOf, hg.escapes, List.append_nil] at hescapes
    have hnodup := hw.stands.resumable.nodup
    rwa [← hescapes, Machine.escapes, List.nodup_reverse] at hnodup
  · intro n i k hv hc
    obtain ⟨j, k', t, ins, hj, ho⟩ := horigin hv
    obtain ⟨-, rfl⟩ := Value.ref.inj hj
    obtain rfl := Cell.cont.inj (ho.head.2.1.symm.trans hc)
    exact ho.records.exited
  · intro i k value pc hc hk
    obtain ⟨j, k', t, ins, hj, ho⟩ := horigin (hr.live i k hc hk)
    obtain ⟨-, rfl⟩ := Value.ref.inj hj
    obtain rfl := Cell.cont.inj (ho.head.2.1.symm.trans hc)
    obtain ⟨hexit, hresumes⟩ := ho.resumes hr value pc
    obtain ⟨newer, t', older, he, hall⟩ := ho.since
    obtain ⟨w, pile, rfl, hw⟩ := hunder t (by simp [he])
    have hs := hw.ran.stable
    obtain ⟨last, hlast, hpop⟩ := hw.stands.exists_popCont (hg.halts.stable hs hg.target)
      (hg.addressable.stable hs) ho.instr ho.op
    refine ⟨w.state, ?_, ins, last, _, ho.instr, ho.op, hlast, hpop, ?_, hexit, hresumes⟩
    · exact ho.mem_tail
    · rw [← ho.records.depth]
      exact hr.live i k' hc hk
  · intro i k value pc hc hk
    exact exitTo_of_left (s := s.atPc pc) rfl (Heap.cont?_ref hc (hr.nonzero i k hc)) hk
  · intro newer t older he i k l hc hk hc' hl'
    obtain ⟨j, k', u, ins, hj, ho⟩ := horigin (hr.live i l hc' hl')
    obtain ⟨-, rfl⟩ := Value.ref.inj hj
    obtain ⟨newer', t', older', he', hall⟩ := ho.since
    -- the continuation was established after it was left as another one
    have hnot : t ∉ newer' ++ [t'] := fun ht => by
      obtain ⟨-, hcell, -⟩ := hall t ht
      obtain rfl := Cell.cont.inj (hcell.symm.trans hc)
      rw [ho.records.exited] at hk
      cases hk
    refine ⟨u, ?_, ho.fresh⟩
    have hsplit : newer ++ t :: older = (newer' ++ [t']) ++ u :: older' := by
      rw [← he, he', List.append_cons]
    rcases List.append_eq_append_iff.1 hsplit with ⟨xs, hxs, hrest⟩ | ⟨xs, hxs, hrest⟩
    · cases xs with
      | nil => simp [(List.cons.inj hrest).1]
      | cons x xs =>
          obtain ⟨rfl, -⟩ := List.cons.inj hrest
          exact absurd (by simp [hxs]) hnot
    · cases xs with
      | nil => simp [(List.cons.inj hrest).1]
      | cons x xs =>
          obtain ⟨rfl, -⟩ := List.cons.inj hrest
          simp [hxs]

end Run

/-! ## A procedure that escapes -/

/-- A procedure that binds a variable dynamically and exits from there. -/
def Proc.escaping : Proc :=
  { scope := .new .nil [.frame]
    least? := none
    tail := true
    body := .withCont (.ref .symbol 4)
      (.dynBind [.ref .symbol 3] [.const (.int 1)] (.exit (.ref .symbol 4) (.const (.int 7)))) }

/-- What the cells of code were made from. -/
def Plans.escaping : Plans
  | 1 => some (.draft [Site.halting])
  | 2 => some (.done .escaping)
  | _ => none

/-- The code that runs return to, that of the procedure, its variable and its continuation's name;
two cells are free. -/
def Heap.escaping : Heap :=
  { cells := #[.free 0, .bytecode ⟨.nil, .nil, .exactly 0, ⟨0⟩⟩, .bytecode ⟨.nil, .nil, .exactly 0, ⟨3⟩⟩,
      .symbol ⟨.nil, 0, .plain, none, false, none, .nil⟩,
      .symbol ⟨.nil, 0, .plain, none, false, none, .nil⟩, .free 6, .free 0]
    marks := Array.replicate 7 false
    firstFree := 5
    freeCount := 2
    lowWater := 0
    arena :=
      { slots := #[.header ⟨2, true, false, .code #[⟨.halt, 0, .nil⟩]⟩, .inner, .inner,
          .header ⟨16, true, false, .code Proc.escaping.instrs.toArray⟩] ++ Array.replicate 16 .inner
        residue := #[]
        limit := 32 }
    collections := 0 }

/-- No run is under way. -/
def State.escaping : State :=
  { heap := .escaping
    symbols := ⟨#[], 0⟩
    machine := { limit := 16 }
    roots := #[]
    known := { halt := .ref .bytecode 1 }
    config := {}
    gensyms := 0
    failure := none
    world := { input := [], output := .empty, log := #[], files := [] } }

theorem Heap.cell_escaping (i : Nat) : Heap.escaping.cell (i + 7) = .free 0 := by
  simp [Heap.escaping, Heap.cell]

theorem Heap.slots_escaping {n : Nat} (hn : n < 16) :
    Heap.escaping.arena.slots[n + 4]? = some .inner := by
  change (_ ++ Array.replicate 16 Slot.inner)[_]? = _
  rw [Array.getElem?_append_right (by exact Nat.le_add_left 4 n)]
  simp [hn]

theorem Heap.pooled_escaping : Heap.escaping.Pooled := by
  refine ⟨rfl, rfl, [5, 6], ?_, by decide, rfl, fun i => ?_⟩
  · exact .cons (by decide) rfl (.cons (by decide) rfl .nil)
  · match i with
    | 0 | 1 | 2 | 3 | 4 | 5 | 6 => decide
    | n + 7 =>
        have hsize : ¬n + 7 < Heap.escaping.cells.size := by
          show ¬n + 7 < 7
          omega
        simp [hsize]

theorem Heap.holds_escaping {vs : List Value}
    (hvs : vs ⊆ [.nil, .int 1, .int 7, .ref .symbol 3, .ref .bytecode 1, .ref .bytecode 2]) :
    ∀ v ∈ vs, Heap.escaping.Holds v := by
  intro v hv tag i hi _
  have hv := hvs hv
  simp only [List.mem_cons, List.not_mem_nil, or_false] at hv
  rcases hv with rfl | rfl | rfl | rfl | rfl | rfl <;> cases hi <;> exact ⟨rfl, rfl⟩

theorem Heap.sound_escaping (i : Nat) (hi : (Heap.escaping.cell i).isFree = false) :
    Heap.escaping.Sound (Heap.escaping.cell i) := by
  match i with
  | 0 | 5 | 6 => cases hi
  | 1 =>
      refine ⟨holds_escaping (by decide), ?_⟩
      rintro b ⟨⟩
      exact ⟨_, rfl, rfl⟩
  | 2 =>
      refine ⟨holds_escaping (by decide), ?_⟩
      rintro b ⟨⟩
      exact ⟨_, rfl, rfl⟩
  | 3 | 4 => exact ⟨holds_escaping (by decide), nofun⟩
  | n + 7 =>
      rw [cell_escaping] at hi
      cases hi

theorem Heap.wellFormed_escaping : Heap.escaping.WellFormed := by
  refine ⟨pooled_escaping, ?_, by decide, sound_escaping, fun i => ?_, fun o r hr => ?_⟩
  · refine .block (r := ⟨2, true, false, .code #[⟨.halt, 0, .nil⟩]⟩) rfl (by decide) (fun k hk hk' => ?_)
      (.block (r := ⟨16, true, false, .code Proc.escaping.instrs.toArray⟩) rfl (by decide)
        (fun k hk hk' => ?_) (.done rfl))
    · obtain rfl | rfl : k = 1 ∨ k = 2 := by simp at hk'; omega
      · rfl
      · rfl
    · obtain ⟨n, rfl⟩ : ∃ n, k = n + 4 := ⟨k - 4, by simp at hk; omega⟩
      exact slots_escaping (by simp at hk'; omega)
  · rcases i with _ | _ | _ | _ | _ | _ | _ | n
    case succ => simp [Heap.escaping, Heap.marked]
    all_goals rfl
  · rcases o with _ | _ | _ | _ | n
    case succ =>
      unfold Arena.record? at hr
      by_cases hn : n < 16
      · rw [slots_escaping hn] at hr
        cases hr
      · rw [Array.getElem?_eq_none (by simpa [Heap.escaping] using hn)] at hr
        cases hr
    all_goals cases hr
    all_goals rfl

theorem Heap.orderly_escaping : Heap.escaping.Orderly := by
  have hblock : ∀ i b, (Heap.escaping.cell i).block? = some b → i = 1 ∧ b = ⟨0⟩ ∨ i = 2 ∧ b = ⟨3⟩ := by
    intro i b hb
    match i with
    | 0 | 3 | 4 | 5 | 6 => cases hb
    | 1 => cases hb; exact .inl ⟨rfl, rfl⟩
    | 2 => cases hb; exact .inr ⟨rfl, rfl⟩
    | n + 7 =>
        rw [cell_escaping] at hb
        cases hb
  refine ⟨wellFormed_escaping, fun i j b hi hj => ?_, fun i b hb => ?_⟩
  · rcases hblock i b hi with ⟨rfl, rfl⟩ | ⟨rfl, rfl⟩ <;>
      rcases hblock j _ hj with ⟨rfl, hb⟩ | ⟨rfl, hb⟩ <;> first | rfl | cases hb
  · rcases hblock i b hb with ⟨rfl, rfl⟩ | ⟨rfl, rfl⟩ <;> decide

/-- The procedure is laid out as one without arguments. -/
theorem Proc.fits_escaping : Proc.escaping.Fits (.exactly 0) where
  conts := rfl
  body := ⟨rfl, ⟨trivial, trivial⟩, rfl, trivial⟩
  fixed := ⟨0, rfl, .inl rfl⟩
  least := nofun
  exact := fun _ => rfl

theorem cellTyped_escaping (i : Nat) : CellTyped Plans.escaping .nil Heap.escaping i := by
  match i with
  | 0 | 5 | 6 => exact nofun
  | 1 =>
      refine ⟨_, rfl, rfl, by decide, ?_, proper_nil, proper_nil, nofun⟩
      intro s hs hop
      obtain rfl := List.mem_singleton.1 hs
      cases hop
  | 2 =>
      refine ⟨_, rfl, rfl, by decide, ?_, proper_nil, proper_nil, ?_⟩
      · intro s hs hop
        have hconst : ∀ s ∈ (Plan.done Proc.escaping).sites, s.instr.op = .const →
            s.gives = .any ∧ (s.instr.operand = .int 1 ∨ s.instr.operand = .int 7) := by decide
        obtain ⟨hany, hoperand⟩ := hconst s hs hop
        rw [hany]
        rcases hoperand with he | he <;> exact he ▸ proper_int _
      · rintro p ⟨⟩
        exact Proc.fits_escaping
  | 3 | 4 =>
      intro v hv
      obtain rfl : v = .nil := by simpa using (show v ∈ [.nil, .nil] from hv)
      exact proper_nil
  | n + 7 =>
      unfold CellTyped
      rw [Heap.cell_escaping]
      exact nofun

/-- The system when no run is under way. -/
def System.escaping : System where
  plans := Plans.escaping
  state := .escaping
  typed :=
    { heap := Heap.orderly_escaping
      roots := Heap.holds_escaping (by decide)
      cells := cellTyped_escaping
      buckets := fun v hv => by cases hv
      dyns := fun b hb => by cases hb
      known := by
        refine ⟨.inr ⟨1, [Site.halting], rfl, by decide, rfl, ?_⟩, .inl rfl, fun v hv => .inl ?_⟩
        · intro s hs
          obtain rfl := List.mem_singleton.1 hs
          rfl
        · revert v; decide
      conts := fun i k hc => by
        match i with
        | 0 | 1 | 2 | 3 | 4 | 5 | 6 => cases hc
        | n + 7 =>
            rw [show State.escaping.heap = Heap.escaping from rfl, Heap.cell_escaping] at hc
            cases hc }

theorem launch_escaping : Launch false System.escaping (.ref .bytecode 2) #[] where
  idle := ⟨rfl, rfl, rfl, rfl, by decide, by decide⟩
  halts := ⟨1, Site.halting, [], rfl, by decide, rfl⟩
  addressable := ⟨by decide, by decide, by decide, by decide⟩
  good := by
    refine ⟨Heap.holds_escaping (List.Subset.refl _) _ (by simp), fun i hi _ => ?_, nofun⟩
    obtain ⟨-, rfl⟩ := Value.ref.inj hi
    exact ⟨_, rfl, rfl⟩
  tame := rfl
  goodArgs := fun v hv => by simp at hv

/-- The procedure has established its continuation and bound its variable. -/
theorem Run.oneShot_escaping :
    ∃ s ss, Run (.ref .bytecode 2) #[] System.escaping.state (s :: ss) ∧
      s.machine.conts.size = 1 ∧ s.machine.dyns.size = 1 ∧
        (∀ u ∈ ss, u.permits false = true) ∧ s.OneShot ss := by
  have hfacts : ((history (.ref .bytecode 2) #[] State.escaping 4).head?.any
        (fun s => s.machine.conts.size == 1 && s.machine.dyns.size == 1) &&
      (history (.ref .bytecode 2) #[] State.escaping 4).tail.all (·.permits false)) = true := by
    decide +kernel
  have hrun : history (.ref .bytecode 2) #[] State.escaping 4 ≠ [] → _ := run_history
  generalize history (.ref .bytecode 2) #[] State.escaping 4 = all at hfacts hrun
  cases all with
  | nil => cases hfacts
  | cons s ss =>
      simp only [List.head?_cons, Option.any_some, List.tail_cons, Bool.and_eq_true, beq_iff_eq,
        List.all_eq_true] at hfacts
      obtain ⟨⟨hconts, hdyns⟩, htame⟩ := hfacts
      have h := hrun (List.cons_ne_nil _ _)
      exact ⟨s, ss, h, hconts, hdyns, htame, h.oneShot launch_escaping htame⟩

end CellLisp
