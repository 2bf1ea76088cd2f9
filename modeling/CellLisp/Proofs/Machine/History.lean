import Mathlib.Data.List.Chain
import CellLisp.Proofs.Machine.Run

/-!
# `CellLisp.Proofs.Machine.History` — where what is in force comes from

A run changes its stacks of continuations and of dynamic bindings at the top only, so each element
has been at its place since one instruction put it there (`exists_since`), and whatever later
instructions keep as long as it is there still holds (`Since.keeps`).

Histories have the newest state first.
-/

namespace CellLisp

/-! ## Stacks that change at the top -/

/-- An element of a stack was put at its place by the step from `t` to `t'`, and has been there
since. -/
structure Since {α : Type} (stack : State → Array α) (ss : List State) (n : Nat) (x : α)
    (t t' : State) : Prop where
  split : ∃ newer older, ss = newer ++ t' :: t :: older ∧
    ∀ u ∈ newer ++ [t'], (stack u)[n]? = some x
  size : (stack t).size = n
  pushed : stack t' = (stack t).push x

section Since

variable {α : Type} {stack : State → Array α} {New : State → State → α → Prop}
  {R : State → State → Prop} {s t t' : State} {ss : List State} {n : Nat} {x : α}

theorem Since.cons (h : Since stack ss n x t t') (hs : (stack s)[n]? = some x) :
    Since stack (s :: ss) n x t t' := by
  obtain ⟨newer, older, rfl, hnewer⟩ := h.split
  refine ⟨⟨s :: newer, older, rfl, fun u hu => ?_⟩, h.size, h.pushed⟩
  rcases List.mem_cons.1 hu with rfl | hu
  · exact hs
  · exact hnewer u hu

/-- Each element of a stack that began empty was put there by a step. -/
theorem exists_since (stack : State → Array α) (h : (s :: ss).IsChain fun s' s => Shifted (New s s') (stack s) (stack s'))
    (hfirst : ∀ u ∈ (s :: ss).getLast?, stack u = #[]) (hx : (stack s)[n]? = some x) :
    ∃ t t', Since stack (s :: ss) n x t t' ∧ New t t' x := by
  induction ss generalizing s with
  | nil =>
      rw [hfirst s rfl] at hx
      cases hx
  | cons t ss ih =>
      obtain ⟨hstep, hrest⟩ := List.isChain_cons_cons.1 h
      rw [List.getLast?_cons_cons] at hfirst
      -- an element that was there before came there before
      have hold (hx' : (stack t)[n]? = some x) :
          ∃ u u', Since stack (s :: t :: ss) n x u u' ∧ New u u' x := by
        obtain ⟨u, u', hsince, hnew⟩ := ih hrest hfirst hx'
        exact ⟨u, u', hsince.cons hx, hnew⟩
      rcases hstep with ⟨m, hm⟩ | ⟨y, hy, hnew⟩
      · refine hold ?_
        rw [hm, ← Array.getElem?_toList, Array.toList_shrink, List.getElem?_take] at hx
        split at hx
        · rwa [Array.getElem?_toList] at hx
        · cases hx
      · by_cases hn : n = (stack t).size
        · subst hn
          have hxy : y = x := by
            rw [hy, Array.getElem?_push_size] at hx
            exact Option.some.inj hx
          subst hxy
          exact ⟨t, s, ⟨⟨[], ss, rfl, fun u hu => by simpa [List.mem_singleton.1 hu] using hx⟩,
            rfl, hy⟩, hnew⟩
        · refine hold ?_
          rwa [hy, Array.getElem?_push, if_neg hn] at hx

/-- What holds once an element is there, and is kept by every step that leaves it there, holds of
all states since. -/
theorem Since.keeps {P : State → Prop} (h : Since stack ss n x t t')
    (hchain : ss.IsChain fun s' s => R s s') (hnew : P t')
    (hstep : ∀ u u', u' ∈ ss → R u u' → (stack u)[n]? = some x → (stack u')[n]? = some x →
      P u → P u') :
    ∃ newer older, ss = newer ++ t' :: t :: older ∧ ∀ u ∈ newer ++ [t'],
      (stack u)[n]? = some x ∧ P u := by
  obtain ⟨newer, older, rfl, hnewer⟩ := h.split
  refine ⟨newer, older, rfl, fun u hu => ⟨hnewer u hu, ?_⟩⟩
  clear h
  induction newer generalizing u with
  | nil =>
      obtain rfl := List.mem_singleton.1 hu
      exact hnew
  | cons s newer ih =>
      have hrest := ih (fun v hv => hnewer v (List.mem_cons_of_mem _ hv)) hchain.tail
        fun u u' hu' => hstep u u' (List.mem_cons_of_mem _ hu')
      rcases List.mem_cons.1 hu with rfl | hu
      · -- the state before is the first of the others
        have hmem : u ∈ u :: (newer ++ t' :: t :: older) := List.mem_cons_self
        cases newer with
        | nil =>
            exact hstep t' u hmem (List.isChain_cons_cons.1 hchain).1 (hnewer t' (by simp))
              (hnewer u (by simp)) hnew
        | cons v newer =>
            exact hstep v u hmem (List.isChain_cons_cons.1 hchain).1 (hnewer v (by simp))
              (hnewer u (by simp)) (hrest v (by simp))
      · exact hrest u hu

end Since

/-! ## Runs -/

/-- An instruction leads from one state to the next. -/
structure Led (s s' : State) : Prop where
  step : step s = .ok false s'
  traced : ∃ ins, s.heap.instr? s.machine.code s.machine.pc = some ins ∧ Traced ins s s'

section Run

variable {m : Mode} {d : Nat} {o : System} {procedure : Value} {args : Array Value} {s : State}
  {ss newer older : List State}

theorem Run.of_append (h : Run procedure args s (newer ++ older)) (hne : older ≠ []) :
    Run procedure args s older := by
  induction newer with
  | nil => exact h
  | cons u newer ih =>
      generalize he : u :: newer ++ older = all at h
      cases h with
      | begins _ =>
          obtain ⟨-, he⟩ := List.cons.inj he
          exact absurd (List.append_eq_nil_iff.1 he).2 hne
      | goesOn h _ =>
          obtain ⟨-, he⟩ := List.cons.inj he
          refine ih ?_
          change newer ++ older = _ at he
          rw [he]
          exact h

/-- The state the next instruction leads to, if the run goes on with it. -/
def State.next? (s : State) : Option State :=
  match step s with
  | .ok false s' => some s'
  | _ => none

theorem State.next?_eq_some {s' : State} : s.next? = some s' ↔ CellLisp.step s = .ok false s' := by
  unfold State.next?
  split
  · rename_i t hstep
    rw [hstep]
    exact ⟨fun h => by rw [Option.some.inj h], fun h => by cases h; rfl⟩
  · rename_i hnone
    exact ⟨fun h => (Option.some_ne_none _ h.symm).elim, fun h => (hnone s' h).elim⟩

/-- The states of a run up to a number of instructions, the newest first, if it goes on so long. -/
def history (procedure : Value) (args : Array Value) (start : State) : Nat → List State
  | 0 =>
    match beginRun procedure args (start.setRunning true) with
    | .ok _ s => [s]
    | .error _ _ => []
  | n + 1 =>
    match history procedure args start n with
    | [] => []
    | s :: ss =>
      match step s with
      | .ok false s' => s' :: s :: ss
      | _ => []

theorem run_history {start : State} {n : Nat} (h : history procedure args start n ≠ []) :
    Run procedure args start (history procedure args start n) := by
  induction n with
  | zero =>
      unfold history at h ⊢
      cases hbegin : beginRun procedure args (start.setRunning true) with
      | error _ _ => simp [hbegin] at h
      | ok _ s => exact .begins hbegin
  | succ n ih =>
      unfold history at h ⊢
      cases hn : history procedure args start n with
      | nil => simp [hn] at h
      | cons s ss =>
          simp only [hn] at h ⊢ ih
          split at h
          · rename_i s' hstep
            exact .goesOn (ih (List.cons_ne_nil _ _)) hstep
          · exact absurd rfl h

/-- The states of a run are led to one from the other. -/
theorem Run.isChain (h : Run procedure args o.state (s :: ss))
    (hl : Launch m.pairs o procedure args) (hg : Ground m d o.launched)
    (hpermits : ∀ u ∈ ss, u.Permits m o.launched.state.machine) :
    (s :: ss).IsChain fun s' s => Led s s' := by
  generalize he : s :: ss = all at h
  induction h generalizing s ss with
  | begins _ => exact .singleton _
  | goesOn h hstep ih =>
      obtain ⟨rfl, rfl⟩ := List.cons.inj he
      have hrest := fun u hu => hpermits u (List.mem_cons_of_mem _ hu)
      obtain ⟨w, pile, rfl, hunder⟩ := h.underway hl hg hrest
      obtain ⟨ins, w', -, hins, rfl, hstepped, -⟩ :=
        hunder.next hg (hpermits _ List.mem_cons_self) hstep
      exact .cons_cons ⟨hstep, ins, hins, hstepped.toTraced⟩ (ih hrest rfl)

/-- A run begins without continuations and dynamic bindings. -/
theorem Run.first (h : Run procedure args o.state ss) (hl : Launch m.pairs o procedure args)
    (hg : Ground m d o.launched) :
    ∀ u ∈ ss.getLast?, u.machine.conts = #[] ∧ u.machine.dyns = #[] := by
  induction h with
  | begins hbegin =>
      rintro _ ⟨⟩
      obtain ⟨w, rfl, hcalm, -⟩ := (leads_beginRun (m := m) (d := d) hl hg).of_ok hbegin
      exact ⟨hcalm.conts.trans hg.conts, hcalm.dyns.trans hg.dyns⟩
  | goesOn _ _ ih => rwa [List.getLast?_cons_cons]

end Run

/-! ## Continuations -/

section Stands

variable {m : Mode} {d : Nat} {o w : System} {base : Machine} {fs fs' pile : List Frame} {f : Frame}
  {vs : List Value} {k : Cont}

/-- What a continuation goes back to does not change with a frame on top. -/
theorem Resumption.push (h : Resumption w base fs vs k fs') (f : Frame) :
    Resumption w base (f :: fs) vs k fs' := by
  obtain ⟨gs, g, hs, g', rfl, hg, hdyns, hfs'⟩ := h.frames
  refine { h with slots := h.slots.trans ?_, bindings := h.bindings.trans ?_, frames := ?_ }
  · rw [slotsOf_cons, ← List.append_assoc]
    exact List.suffix_append _ _
  · rw [bindingsOf_cons]
    exact List.suffix_append _ _
  · exact ⟨f :: gs, g, hs, g', rfl, hg, hdyns, hfs'⟩

theorem Stands.resumable (h : Stands w base pile) : Resumable w base pile := by
  rcases h with ⟨_, h⟩ | ⟨f, fs, rfl, h⟩
  · exact h.chained.resumable
  · intro us v vs he
    have hconts := h.frame.conts
    rw [h.shape] at hconts
    rw [List.flatMap_cons, established_nil hconts, List.nil_append] at he
    obtain ⟨i, k, fs', hv, hi, hc, hres⟩ := h.chained.resumable us v vs he
    exact ⟨i, k, fs', hv, hi, hc, hres.push f⟩

/-- The records of the continuations in force say where each stands, and lead further back the
older it is. -/
structure State.Ranked (s : State) : Prop where
  nonzero : ∀ i k, s.heap.cell i = .cont k → i ≠ 0
  entry : ∀ n v, s.machine.conts[n]? = some v → ∃ i k, v = .ref .object i ∧
    s.heap.cell i = .cont k ∧ k.depth.toNat = n ∧ k.sp.toNat ≤ s.machine.stack.size ∧
      k.dynDepth.toNat ≤ s.machine.dyns.size
  ordered : ∀ (n n' i j : Nat) (k l : Cont), n ≤ n' →
    s.machine.conts[n]? = some (.ref .object i) → s.heap.cell i = .cont k →
      s.machine.conts[n']? = some (.ref .object j) → s.heap.cell j = .cont l →
        k.sp.toNat ≤ l.sp.toNat ∧ k.dynDepth.toNat ≤ l.dynDepth.toNat
  live : ∀ i k, s.heap.cell i = .cont k → k.exited = false →
    s.machine.conts[k.depth.toNat]? = some (.ref .object i)

theorem Resumable.ranked (h : Resumable w base pile) (hshows : Shows w.state.machine pile base)
    (hescapes : base.escapes = []) : w.state.Ranked := by
  have hconts : w.state.machine.conts.toList.reverse = pile.flatMap Frame.conts := by
    have := hshows.escapes
    rwa [escapesOf, hescapes, List.append_nil] at this
  have hzero : base.conts.size = 0 := by rw [← Machine.length_escapes, hescapes]; rfl
  -- what an element of the stack goes back to, with the elements below it
  have hentry : ∀ {n : Nat} {v : Value}, w.state.machine.conts[n]? = some v →
      ∃ vs i k fs', v = .ref .object i ∧ w.heap.cell i = .cont k ∧ Resumption w base pile vs k fs' ∧
        vs.length = n ∧ ∀ n' < n, vs[n - 1 - n']? = w.state.machine.conts[n']? := by
    intro n v hv
    obtain ⟨us, vs, he, rfl⟩ := Machine.exists_of_getElem? hv
    obtain ⟨i, k, fs', rfl, -, hc, hres⟩ := h us v vs (hconts.symm.trans he)
    refine ⟨vs, i, k, fs', rfl, hc, hres, rfl, fun n' hn => ?_⟩
    have hlist : w.state.machine.conts.toList = vs.reverse ++ (.ref .object i :: us.reverse) := by
      rw [← List.reverse_inj, he]
      simp
    rw [← Array.getElem?_toList, hlist, List.getElem?_append_left (by simpa using hn),
      List.getElem?_reverse hn]
  refine ⟨fun i k hc => System.ne_zero_of_cont hc, fun n v hv => ?_, fun n n' i j k l hn hi hc hj hl => ?_, fun i k hc hk => ?_⟩
  · obtain ⟨vs, i, k, fs', rfl, hc, hres, hlength, -⟩ := hentry hv
    refine ⟨i, k, rfl, hc, by rw [hres.depth, hlength, hzero]; rfl, ?_, ?_⟩
    · rw [hres.sp, ← Machine.length_slots, hshows.slots]
      exact hres.slots.length_le
    · rw [hres.dynDepth, ← Machine.length_bindings, hshows.bindings]
      exact hres.bindings.length_le
  · obtain ⟨vs, j, l, fs', hj', hc', hres, rfl, hbelow⟩ := hentry hj
    obtain ⟨-, rfl⟩ := Value.ref.inj hj'
    rcases Nat.lt_or_eq_of_le hn with hn | rfl
    · -- the older one is among those of the frames that the newer one goes back to
      rw [← hbelow n hn] at hi
      obtain ⟨us, us', he⟩ := List.append_of_mem (List.mem_of_getElem? hi)
      obtain ⟨i', k', fs'', hi', -, hc'', hres'⟩ :=
        hres.chained.resumable us _ us' (hres.conts.trans he)
      obtain ⟨-, rfl⟩ := Value.ref.inj hi'
      obtain rfl := Cell.cont.inj (hc''.symm.trans hc)
      obtain rfl := Cell.cont.inj (hc'.symm.trans hl)
      rw [hres'.sp, hres.sp, hres'.dynDepth, hres.dynDepth]
      exact ⟨hres'.slots.length_le, hres'.bindings.length_le⟩
    · obtain ⟨-, rfl⟩ := Value.ref.inj (Option.some.inj (hi.symm.trans hj))
      obtain rfl := Cell.cont.inj (hc.symm.trans hl)
      exact ⟨Nat.le_refl _, Nat.le_refl _⟩
  · obtain ⟨us, vs, fs', he, hlength, -⟩ := h.exists_live hshows hescapes hc hk
    rw [← hlength]
    exact Machine.getElem?_of_reverse he

end Stands

end CellLisp
