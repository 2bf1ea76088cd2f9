import CellLisp.Proofs.Machine.Argument
import CellLisp.Proofs.State.Chain

/-!
# `CellLisp.Proofs.Machine.Collecting` — the list of the arguments past the required ones

The first instruction of a procedure that takes any number of arguments puts those past the
required ones in a list.  Each pair of it takes a cell, so there may be no room (`collectRest_ends`);
if there is, the list that comes into their place is that of these arguments, in order
(`collectRest_lists`).
-/

namespace CellLisp

/-! ## Proper lists -/

namespace Heap

/-- A value is the proper list of some values. -/
inductive Lists (h : Heap) : Value → List Value → Prop
  | nil : Lists h .nil []
  | cons {v head tail : Value} {vs : List Value} : h.pair? v = some (head, tail) →
      Lists h tail vs → Lists h v (head :: vs)

section Lists

variable {h h' : Heap} {A : List Value} {v : Value} {us vs : List Value} {n : Nat}

theorem Lists.unique (hu : h.Lists v us) (hv : h.Lists v vs) : us = vs := by
  induction hu generalizing vs with
  | nil =>
      cases hv with
      | nil => rfl
      | cons hp => cases hp
  | cons hp _ ih =>
      cases hv with
      | nil => cases hp
      | cons hp' hv =>
          obtain ⟨rfl, rfl⟩ := Prod.mk.inj (Option.some.inj (hp.symm.trans hp'))
          rw [ih hv]

theorem Lists.kept (hz : (h.cell 0).isFree = true) (hz' : (h'.cell 0).isFree = true)
    (hk : Kept A h h') (hl : h.Lists v vs) (hv : h.Reaches A v) : h'.Lists v vs := by
  induction hl with
  | nil => exact .nil
  | cons hp _ ih => exact .cons ((hk.pair? hz hz' hv).trans hp) (ih (hv.pair hz hp).2)

/-- The pairs of a list stand in cells of their own. -/
theorem Lists.exists_cell (hl : h.Lists v vs) :
    ∀ j < vs.length, ∃ i, (h.cell i).isFree = false ∧
      ∃ us, h.Lists (.ref .pair i) us ∧ us.length = j + 1 := by
  induction hl with
  | nil => nofun
  | @cons v head tail vs hp hl ih =>
      intro j hj
      rcases Nat.lt_or_eq_of_le (Nat.le_of_lt_succ hj) with hlt | rfl
      · exact ih j hlt
      · obtain ⟨i, rfl, hc⟩ := pair_of_pair? hp
        exact ⟨i, by rw [hc]; rfl, _, .cons hp hl, rfl⟩

theorem Lists.length_le (hl : h.Lists v vs) : vs.length ≤ h.cells.size := by
  cases hn : vs.length with
  | zero => exact Nat.zero_le _
  | succ n =>
      refine lt_size_of_ranked (R := fun j i => ∃ us, h.Lists (.ref .pair i) us ∧ us.length = j + 1)
        (fun j hj => hl.exists_cell j (by omega)) ?_
      rintro i j j' ⟨us, hus, hj⟩ ⟨us', hus', hj'⟩
      rw [hus.unique hus'] at hj
      omega

theorem Lists.spineFrom (hl : h.Lists v vs) (hn : vs.length ≤ n) (acc : Array Value) :
    h.spineFrom acc n v = (acc ++ vs.toArray, .nil) := by
  induction hl generalizing n acc with
  | nil => cases n <;> simp [Heap.spineFrom, pair?]
  | cons hp _ ih =>
      cases n with
      | zero => cases hn
      | succ n =>
          simp only [Heap.spineFrom, hp, ih (Nat.le_of_succ_le_succ hn)]
          simp

/-- Its elements are read back. -/
theorem Lists.items? (hl : h.Lists v vs) : h.items? v = some vs.toArray := by
  simp [Heap.items?, Heap.spine, hl.spineFrom hl.length_le, Value.isNil]

end Lists

end Heap

/-! ## Arguments on the stack -/

section Collecting

variable {s s' : State} {least : Nat} {above args lower upper xs vs : List Value}

/-- Another value in the value register is a root. -/
theorem State.WellFormed.withVal {v : Value} (hw : s.WellFormed none) (hv : s.heap.Holds v) :
    (s.withVal v).WellFormed none := by
  have hroots : ∀ u ∈ (s.withVal v).rootValues, s.heap.Holds u := by
    intro u hu
    have hold := hw.roots u
    simp only [State.mem_rootValues_iff, State.withVal, Machine.values] at hu hold
    simp only [List.mem_append, List.mem_cons, List.not_mem_nil, or_false] at hu hold
    rcases hu with hu | hu | hu | hu | (((((rfl | hu) | hu) | hu) | hu) | hu)
    case inr.inr.inr.inr.inl.inl.inl.inl.inl => exact hv
    all_goals exact hold (by simp only [hu, true_or, or_true])
  have hchanges : s.Changes (s.withVal v) := .roots rfl hroots
  exact hchanges.wellFormed hw

/-- Values on the stack are put in front of a list, unless there is no room. -/
theorem State.WellFormed.consArgs_ends (hw : s.WellFormed none)
    (hstack : s.machine.stack.toList = lower ++ (xs ++ upper))
    (hlist : s.heap.Lists s.machine.val vs) :
    (∃ s', consArgs lower.length xs.length s = .error (.fatal .cellsExhausted) s') ∨
      ∃ s', consArgs lower.length xs.length s = .ok () s' ∧
        s'.heap.Lists s'.machine.val (xs ++ vs) ∧
        (∀ i, s.machine.code.cell? = some i → s'.heap.cell i = s.heap.cell i) ∧
        ∃ val, s'.machine = { s.machine with val } := by
  induction xs using List.reverseRecOn generalizing s upper vs with
  | nil => exact .inr ⟨s, rfl, hlist, fun _ _ => rfl, _, rfl⟩
  | append_singleton xs x ih =>
      have hword : s.machine.stack[lower.length + xs.length]? = some x := by
        rw [← Array.getElem?_toList, hstack]
        simp
      have hvalue (v : Value) (hv : v = x ∨ v = s.machine.val) : v ∈ s.rootValues := by
        refine State.mem_rootValues_of_machine ?_
        rcases hv with rfl | rfl
        · simp [Machine.values, hstack]
        · simp [Machine.values]
      have hsound : s.heap.Sound (.pair x s.machine.val) := by
        refine ⟨fun v hv => hw.roots v (hvalue v ?_), fun b hb => by cases hb⟩
        simpa [Heap.references, Cell.block?, Cell.values] using hv
      have hcons : consArgs lower.length (xs ++ [x]).length s =
          (allocCell (.pair x s.machine.val) >>= fun v => do
            setVal v
            consArgs lower.length xs.length) s := by
        rw [List.length_append, List.length_singleton, consArgs]
        simp only [act_bind, act_gets, hword, require, cons, pure, EStateM.pure]
      rw [hcons, act_bind]
      have hpending := hw.with_pending hsound
      by_cases hfull : s.Full (.pair x s.machine.val)
      · obtain ⟨t, ht⟩ := hpending.allocCell_of_full hfull
        exact .inl ⟨t, by rw [ht]⟩
      obtain ⟨v, t, ht, hsupplied, hwt⟩ := hpending.allocCell_of_not_full rfl hfull
      obtain ⟨i, rfl, hi, -, -, hcell⟩ := hsupplied.fresh
      obtain ⟨heap, world, rfl⟩ := hsupplied.rest
      have hkept := hsupplied.kept
      have hstart {u : Value} (hu : u ∈ s.rootValues) :
          s.heap.Reaches (s.startValues (.pair x s.machine.val)) u :=
        Heap.reaches_of_mem (List.mem_append_right _ hu)
      have hholds : heap.Holds (.ref .pair i) := by
        rintro _ _ ⟨⟩ -
        rw [hcell]
        exact ⟨rfl, rfl⟩
      have hlist' : heap.Lists (.ref .pair i) (x :: vs) :=
        .cons (by simp only [Heap.pair?, show heap.cell i = _ from hcell])
          (hlist.kept hw.heap.pool.zero hwt.heap.pool.zero hkept (hstart (hvalue _ (.inr rfl))))
      have hvalues : s.machine.code ∈ s.machine.values := by simp [Machine.values]
      have hcode (j : Nat) (hj : s.machine.code.cell? = some j) : heap.cell j = s.heap.cell j :=
        hkept.cell j (hstart (State.mem_rootValues_of_machine hvalues) j hj)
      have hstack' : s.machine.stack.toList = lower ++ (xs ++ ([x] ++ upper)) := by
        rw [hstack, List.append_assoc]
      rw [ht]
      refine (ih (hwt.withVal hholds) hstack' hlist').imp id ?_
      rintro ⟨t', ht', hlists, hkept', val, hmachine⟩
      refine ⟨t', ht', ?_, fun j hj => (hkept' j hj).trans (hcode j hj), val, hmachine⟩
      rwa [List.append_assoc]

/-- Where the arguments are that are to be collected. -/
theorem Machine.Collects.extras (h : s.machine.Collects above args lower)
    (hleast : least ≤ args.length) :
    s.machine.fp - 3 - (s.machine.argc - least)
        = (lower.reverse ++ (args.drop (args.length - least)).reverse).length ∧
      s.machine.argc - least = (args.take (args.length - least)).reverse.length ∧
      s.machine.stack.toList = (lower.reverse ++ (args.drop (args.length - least)).reverse) ++
        ((args.take (args.length - least)).reverse ++ above.reverse) := by
  obtain ⟨hslots, hargc, hfp⟩ := h
  have hargs : args.reverse
      = (args.drop (args.length - least)).reverse ++ (args.take (args.length - least)).reverse := by
    rw [← List.reverse_append, List.take_append_drop]
  refine ⟨?_, ?_, ?_⟩
  · simp only [List.length_append, List.length_reverse, List.length_drop] at hfp ⊢
    omega
  · simp only [List.length_reverse, List.length_take]
    omega
  · rw [← List.reverse_reverse s.machine.stack.toList, ← Machine.slots, hslots]
    simp only [List.reverse_append, hargs, List.append_assoc]

/-- The list in their place is that of the arguments past the required ones. -/
theorem collectRest_lists (h : collectRest least s = .ok () s') (hw : s.WellFormed none)
    (hcollects : s.machine.Collects above args lower) :
    least ≤ args.length ∧
      s'.heap.Lists s'.machine.val (args.take (args.length - least)).reverse ∧
      (∀ i, s.machine.code.cell? = some i → s'.heap.cell i = s.heap.cell i) ∧
      s'.machine.code = s.machine.code ∧ s'.machine.pc = s.machine.pc ∧
      s'.machine.fp = lower.length + least + 4 := by
  obtain ⟨hleast, s₁, hcons, rfl⟩ := exists_consArgs_of_collectRest h
  rw [hcollects.argc] at hleast
  obtain ⟨hfirst, hextra, hstack⟩ := hcollects.extras hleast
  rw [hfirst, hextra] at hcons
  have hnil : (s.withVal .nil).WellFormed none := hw.withVal (Heap.holds_of_cell?_eq_none rfl)
  have hends := hnil.consArgs_ends hstack .nil
  rw [hcons] at hends
  obtain ⟨t, ht⟩ | ⟨t, ht, hlists, hkept, val, hmachine⟩ := hends
  · cases ht
  obtain rfl := (EStateM.Result.ok.inj ht).2
  rw [List.append_nil] at hlists
  refine ⟨hleast, hlists, hkept, ?_, ?_, ?_⟩
  · exact (congrArg Machine.code hmachine : _)
  · exact (congrArg Machine.pc hmachine : _)
  · change s.machine.fp - 3 - (s.machine.argc - least) + 4 = _
    rw [hfirst]
    simp only [List.length_append, List.length_reverse, List.length_drop]
    omega

/-- With room on the stack, collecting fails for want of cells only. -/
theorem collectRest_ends (hw : s.WellFormed none)
    (hcollects : s.machine.Collects above args lower) (hleast : least ≤ args.length)
    (hroom : args.length = least → s.machine.stack.size < s.machine.limit) :
    (∃ s', collectRest least s = .error (.fatal .cellsExhausted) s') ∨
      ∃ s', collectRest least s = .ok () s' := by
  obtain ⟨hfirst, hextra, hstack⟩ := hcollects.extras hleast
  obtain ⟨hslots, hargc, hfp⟩ := hcollects
  have hnil : (s.withVal .nil).WellFormed none := hw.withVal (Heap.holds_of_cell?_eq_none rfl)
  have hends := hnil.consArgs_ends hstack .nil
  rw [← hfirst, ← hextra] at hends
  have hsize := congrArg List.length hslots
  simp only [Machine.length_slots, List.length_append] at hsize hfp
  have hchecks : (s.machine.argc < least || s.machine.fp < 3 + (s.machine.argc - least)
      || s.machine.stack.size + 3 < s.machine.fp) = false := by
    simp only [Bool.or_eq_false_iff, decide_eq_false_iff_not]
    omega
  unfold collectRest
  rw [act_bind, act_gets]
  simp only [hchecks, Bool.false_eq_true, if_false]
  have hset : setVal .nil s = .ok () (s.withVal .nil) := rfl
  rw [act_bind, hset]
  simp only [act_bind]
  obtain ⟨t, ht⟩ | ⟨t, ht, -, -, val, hmachine⟩ := hends
  · rw [ht]
    exact .inl ⟨t, rfl⟩
  have hfull : (decide (s.machine.argc - least = 0) && t.machine.isFull) = false := by
    have hsame : t.machine.isFull = s.machine.isFull := by rw [hmachine]; rfl
    rw [hsame, Bool.and_eq_false_iff, decide_eq_false_iff_not, Machine.isFull, decide_eq_false_iff_not]
    by_cases hnone : s.machine.argc - least = 0
    · exact .inr (Nat.not_le.2 (hroom (by omega)))
    · exact .inl hnone
  rw [ht]
  simp only [act_gets, hfull, Bool.false_eq_true, if_false]
  exact .inr ⟨_, rfl⟩

end Collecting

end CellLisp
