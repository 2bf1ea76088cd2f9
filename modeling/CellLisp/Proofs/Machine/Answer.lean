import CellLisp.Proofs.Machine.Invoke
import CellLisp.Proofs.Machine.Retain

/-!
# `CellLisp.Proofs.Machine.Answer` — calls that come back

`s.Answers procedure args below Q`: called with arguments on top of some words, a procedure comes
back to where the call says, with these words left on the stack and everything that the caller
goes by as it was, and its value and the store are as `Q` says.  On the way a store may turn out
to be full; nothing else can fail, and the call cannot go on for ever (`Attains`).

| | |
| :-- | :-- |
| `Attains Q` | a state comes to one that satisfies `Q`, unless a store is full |
| `State.Presents` | the words, the continuations and the store of a state |
| `State.Back` | a call is over |
| `State.Answers` | a call comes back with a value |
| `Heap.Serves` | a value is a built-in procedure |
-/

namespace CellLisp

/-! ## Coming to a state -/

/-- Step by step a state comes to one that satisfies `Q`, unless a store is full on the way. -/
inductive Attains (Q : State → Prop) : State → Prop
  | here {s : State} : Q s → Attains Q s
  | next {s s' : State} : step s = .ok false s' → Attains Q s' → Attains Q s
  | full {s s' : State} {cause : Fatal} : step s = .error (.fatal cause) s' → cause.IsExhaustion →
      Attains Q s

section Attaining

variable {P Q : State → Prop} {s : State}

/-- What comes to where it comes to something else. -/
theorem Attains.bind (h : Attains P s) (hP : ∀ t, P t → Attains Q t) : Attains Q s := by
  induction h with
  | here h => exact hP _ h
  | next h _ ih => exact .next h ih
  | full h hc => exact .full h hc

theorem Attains.mono (h : Attains P s) (hP : ∀ t, P t → Q t) : Attains Q s :=
  h.bind fun t ht => .here (hP t ht)

theorem Attains.of_gives
    (h : Gives (fun _ => False) step s fun stop t => stop = false ∧ Attains Q t) : Attains Q s := by
  unfold Gives at h
  split at h
  · rename_i stop t hstep
    obtain ⟨rfl, ht⟩ := h
    exact .next hstep ht
  · exact h.elim
  · rename_i cause t hstep
    exact .full hstep h

end Attaining

/-! ## What is kept -/

/-- The record and the instructions of compiled code. -/
def Heap.listing? (h : Heap) (v : Value) : Option (Bytecode × Array Instr) :=
  (h.bytecode? v).map fun b => (b, h.instrs b)

section Keeping

variable {h h' : Heap} {A : List Value} {v : Value} {p : Proc} {s s' : State} {c : Cell}

theorem Heap.Retains.listing? (hr : Retains A h h') (hv : h.Reaches A v) :
    h'.listing? v = h.listing? v := by
  unfold Heap.listing?
  rw [hr.bytecode? hv]
  cases hb : h.bytecode? v with
  | none => rfl
  | some b => rw [Option.map_some, Option.map_some, hr.instrs hv hb]

/-- The operands of its instructions are references of its cell. -/
theorem Heap.exists_of_listing {b : Bytecode} {instrs : Array Instr} {i : Instr}
    (hv : h.listing? v = some (b, instrs)) (hi : i ∈ instrs) :
    ∃ j, v.cell? = some j ∧ h.cell j = .bytecode b ∧ i.operand ∈ h.references (h.cell j) := by
  obtain ⟨b', hb, he⟩ := Option.map_eq_some_iff.1 hv
  obtain ⟨rfl, rfl⟩ := Prod.mk.inj he
  unfold Heap.bytecode? at hb
  split at hb
  · rename_i j hj
    split at hb
    · rename_i b'' hc
      obtain rfl := Option.some.inj hb
      refine ⟨j, hj, hc, ?_⟩
      rw [references, hc]
      refine List.mem_append_left _ ?_
      unfold Heap.instrs Payload.instrs at hi
      split at hi
      · rename_i is hpayload
        rw [hpayload]
        exact List.mem_map_of_mem (Array.mem_toList_iff.2 hi)
      · cases Array.not_mem_empty _ hi
    · cases hb
  · cases hb

theorem Heap.Kept.cont? (hk : Kept A h h') (hv : h.Reaches A v) : h'.cont? v = h.cont? v := by
  unfold Heap.cont?
  cases hi : v.cell? with
  | none => rfl
  | some i => rw [Option.map_some, Option.map_some, hk.cell i (hv i hi)]

theorem State.WellFormed.holds_of_machine (hw : s.WellFormed none) (hv : v ∈ s.machine.values) :
    s.heap.Holds v :=
  hw.roots v (State.mem_rootValues_of_machine hv)

theorem State.WellFormed.holds_of_slots (hw : s.WellFormed none) (hv : v ∈ s.machine.slots) :
    s.heap.Holds v :=
  hw.holds_of_machine (Machine.mem_values_of_slots hv)

theorem State.WellFormed.holds_val (hw : s.WellFormed none) : s.heap.Holds s.machine.val :=
  hw.holds_of_machine (by simp [Machine.values])

theorem State.WellFormed.holds_code (hw : s.WellFormed none) : s.heap.Holds s.machine.code :=
  hw.holds_of_machine (by simp [Machine.values])

/-- A machine with the same dynamic bindings may be put in place of another, if what it has
holds. -/
theorem State.WellFormed.withMachine {m : Machine} (hw : s.WellFormed none)
    (hval : s.heap.Holds m.val) (hcode : s.heap.Holds m.code)
    (hnative : ∀ v, m.native = some v → s.heap.Holds v) (hslots : ∀ v ∈ m.slots, s.heap.Holds v)
    (hconts : ∀ v ∈ m.conts.toList, s.heap.Holds v) (hdyns : m.dyns = s.machine.dyns) :
    State.WellFormed { s with machine := m } none := by
  have hvalues : ∀ v ∈ m.values, s.heap.Holds v := by
    intro v hv
    simp only [Machine.values, List.mem_append, List.mem_cons, List.not_mem_nil, or_false,
      Option.mem_toList] at hv
    rcases hv with ((((rfl | rfl) | hv) | hv) | hv) | hv
    · exact hval
    · exact hcode
    · exact hnative v hv
    · exact hslots v (by rwa [Machine.slots, List.mem_reverse])
    · refine hw.holds_of_machine ?_
      rw [hdyns] at hv
      simp only [Machine.values, List.mem_append, hv, or_true, true_or]
    · exact hconts v hv
  have hchanges : s.Changes { s with machine := m } := by
    refine .roots rfl fun v hv => ?_
    rw [State.mem_rootValues_iff] at hv
    rcases hv with hv | hv | hv | hv | hv
    · exact hw.roots v (State.mem_rootValues_iff.2 (.inl hv))
    · exact hw.roots v (State.mem_rootValues_iff.2 (.inr (.inl hv)))
    · exact hw.roots v (State.mem_rootValues_iff.2 (.inr (.inr (.inl hv))))
    · exact hw.roots v (State.mem_rootValues_iff.2 (.inr (.inr (.inr (.inl hv)))))
    · exact hvalues v hv
  exact hchanges.wellFormed hw

theorem State.WellFormed.holds_of_conts (hw : s.WellFormed none) (hv : v ∈ s.machine.conts.toList) :
    s.heap.Holds v :=
  hw.holds_of_machine (by simp only [Machine.values, List.mem_append, hv, or_true])

/-- A continuation may be marked as left. -/
theorem State.WellFormed.markExited (hw : s.WellFormed none) (v : Value) :
    State.WellFormed { s with heap := s.heap.markExited v } none := by
  unfold Heap.markExited
  split
  · rename_i i k hi hk
    have hc : s.heap.cell i = .cont k := by
      obtain ⟨j, hj, hc⟩ := Heap.cont?_eq_some hk
      rwa [Option.some.inj (hi.symm.trans hj)]
    have hinUse : (s.heap.cell i).isFree = false := by rw [hc]; rfl
    have hsound := hw.heap.sound i hinUse
    have hchanges : s.Changes { s with heap := s.heap.set i (.cont { k with exited := true }) } := by
      refine .cell hinUse rfl (by rw [hc]; rfl) ⟨fun u hu => hsound.values u ?_, nofun⟩
      rw [hc]
      exact hu
    exact hchanges.wellFormed hw
  · exact hw

theorem State.WellFormed.markAll (hw : s.WellFormed none) (vs : List Value) :
    State.WellFormed { s with heap := vs.foldl Heap.markExited s.heap } none := by
  induction vs generalizing s with
  | nil => exact hw
  | cons v vs ih => exact ih (hw.markExited v)

theorem allocCell_rest (h : allocCell c s = .ok v s') :
    ∃ heap log, s' = { s with heap, world := { s.world with log } } := by
  rw [allocCell_eq, placeCell_eq] at h
  split at h
  · rw [← (EStateM.Result.ok.inj h).2]
    unfold State.ready
    split
    · exact ⟨_, _, rfl⟩
    · exact ⟨_, s.world.log, rfl⟩
  · cases h

/-- An allocation gives a cell that nothing led to, and keeps what the state leads to, unless the
pool is full. -/
theorem State.WellFormed.gives_allocCell (hw : s.WellFormed none) (hsound : s.heap.Sound c)
    (hc : c.isFree = false) :
    Gives (fun _ => False) (allocCell c) s fun v s' => s.Supplied c v s' ∧ s'.WellFormed none ∧
      ∃ heap log, s' = { s with heap, world := { s.world with log } } := by
  have hpending := hw.with_pending hsound
  by_cases hfull : s.Full c
  · obtain ⟨s', hs'⟩ := hpending.allocCell_of_full hfull
    unfold Gives
    rw [hs']
    trivial
  · obtain ⟨v, s', hs', hsupplied, hw'⟩ := hpending.allocCell_of_not_full hc hfull
    unfold Gives
    rw [hs']
    exact ⟨hsupplied, hw', allocCell_rest hs'⟩

theorem State.Supplied.kept_roots (h : s.Supplied c v s') :
    Heap.Kept s.rootValues s.heap s'.heap :=
  h.kept.mono (List.subset_append_right _ _)

/-- What is kept of the roots is kept of values among them. -/
theorem State.aside_of_roots (hr : Heap.Retains s.rootValues s.heap s'.heap)
    (hw : s.WellFormed none) (hw' : s'.WellFormed none)
    (hrest : ∃ heap log, s'.store = { s.store with heap, world := { s.world with log } })
    (hA : A ⊆ s.rootValues) : s.Aside A s' where
  retains := hr.mono (List.append_subset.2 ⟨s.anchors_subset_rootValues, hA⟩)
  rest := hrest
  zero := hw.heap.pool.zero
  zero' := hw'.heap.pool.zero

end Keeping

/-! ## Calls -/

/-- What a state has: words on the stack, a number of continuations in force, and a store. -/
structure State.Presents (s : State) (words : List Value) (conts : Nat) (t : State) : Prop where
  slots : s.machine.slots = words
  conts : s.machine.conts.size = conts
  store : s.store = t
  native : s.machine.native = none
  wf : s.WellFormed none

/-- A place that a call can go back to. -/
structure Return.Fits (r : Return) (s : State) : Prop where
  holds : s.heap.Holds r.code
  pc : r.pc < 2 ^ 59
  fp : r.fp < 2 ^ 59

/-- A call that was made at `s` on top of some words is over at `t`: it goes on where the call goes
back to, and what the caller goes by is as it was. -/
structure State.Back (s : State) (r : Return) (below : List Value) (t : State) : Prop where
  place : t.machine.place = r
  slots : t.machine.slots = below
  conts : t.machine.conts = s.machine.conts
  dyns : t.machine.dyns = s.machine.dyns
  limit : t.machine.limit = s.machine.limit
  native : t.machine.native = none
  wf : t.WellFormed none
  /-- The continuations in force are. -/
  records : ∀ k ∈ s.machine.conts.toList, t.heap.cont? k = s.heap.cont? k
  /-- The code of the procedures that are under way is the same. -/
  listings : ∀ v ∈ r.code :: below, t.heap.listing? v = s.heap.listing? v

/-- A call of a procedure, with the arguments on top of some words, comes back with a value. -/
def State.Answers (s : State) (procedure : Value) (args below : List Value)
    (Q : Value → State → Prop) : Prop :=
  ∀ r : Return, r.Fits s →
    Gives (fun _ => False) (enter procedure args.length r) s fun _ s₁ =>
      Attains (fun t => s.Back r below t ∧ Q t.machine.val t.store) s₁

theorem State.Answers.mono {s : State} {procedure : Value} {args below : List Value}
    {Q Q' : Value → State → Prop} (h : s.Answers procedure args below Q)
    (hQ : ∀ v t, Q v t → Q' v t) : s.Answers procedure args below Q' :=
  fun r hr => (h r hr).mono fun _ _ h => h.mono fun _ ht => ⟨ht.1, hQ _ _ ht.2⟩

/-! ## Built-in procedures -/

/-- A value is a built-in procedure. -/
def Heap.Serves (h : Heap) (v : Value) (arity : Arity) (p : Primitive) : Prop :=
  ∃ i name, v = .ref .native i ∧ h.cell i = .native ⟨name, arity, p⟩

section Serving

variable {s t : State} {procedure : Value} {args below : List Value} {arity : Arity}
  {p : Primitive} {Q : Value → State → Prop} {n : Nat}

theorem State.WellFormed.serving {r : Return} (hw : s.WellFormed none) (hr : r.Fits s)
    (hp : s.heap.Holds procedure) :
    State.WellFormed { s with machine := s.machine.serving procedure r } none := by
  refine hw.withMachine hw.holds_val hr.holds ?_ (fun v hv => hw.holds_of_slots hv)
    (fun v hv => hw.holds_of_conts hv) rfl
  rintro _ ⟨⟩
  exact hp

/-- What a built-in procedure gives is the answer of a call of it, when the work keeps what the
machine has. -/
theorem State.Presents.answers (h : s.Presents (args.reverse ++ below) n t)
    (hserves : s.heap.Serves procedure arity p) (haccepts : arity.accepts args.length = true)
    (happly : ∀ u : State, u.store = t → u.WellFormed none → args.reverse ++ below ⊆ u.rootValues →
      Gives (fun _ => False) (Builtin.apply p args) u fun v u' =>
        u'.machine = u.machine ∧ u'.WellFormed none ∧ Heap.Kept u.rootValues u.heap u'.heap ∧
          u'.heap.cells.size = u.heap.cells.size ∧ u'.heap.Holds v ∧ Q v u'.store) :
    s.Answers procedure args below Q := by
  intro r hr
  obtain ⟨i, name, rfl, hc⟩ := hserves
  have hi : i ≠ 0 := by
    rintro rfl
    have hzero := h.wf.heap.pool.zero
    rw [hc] at hzero
    cases hzero
  have hcell : (Value.ref .native i).cell? = some i := Value.cell?_eq_some_iff.2 ⟨_, rfl, hi⟩
  have hholds : s.heap.Holds (.ref .native i) := by
    rintro _ _ ⟨⟩ -
    rw [hc]
    exact ⟨rfl, rfl⟩
  have hlen : args.length = args.reverse.length := List.length_reverse.symm
  have hserving := h.wf.serving hr hholds
  have hwords : args.reverse ++ below
      ⊆ State.rootValues { s with machine := s.machine.serving (.ref .native i) r } := by
    intro v hv
    refine State.mem_rootValues_of_machine (Machine.mem_values_of_slots ?_)
    exact h.slots ▸ hv
  have henter : enter (.ref .native i) args.length r s
      = callNative (.ref .native i) args.reverse.length r s := by
    rw [← hlen]
    rfl
  refine Gives.of_eq ?_ (henter.trans (callNative_eq h.slots hcell hc (hlen ▸ haccepts)))
  rw [List.reverse_reverse]
  refine Gives.bind (happly _ h.store hserving hwords) ?_
  rintro v u ⟨hmachine, hw, hkept, hsize, hv, hQ⟩
  refine Gives.modify (.here ⟨?_, hQ⟩)
  have hslots : (u.machine.truncate below.length).slots = below :=
    Machine.slots_truncate ((congrArg Machine.slots hmachine).trans h.slots)
  have hreach {v : Value} (hv : v ∈ (s.machine.serving (.ref .native i) r).values) :
      s.heap.Reaches (State.rootValues { s with machine := s.machine.serving (.ref .native i) r }) v :=
    Heap.reaches_of_mem (State.mem_rootValues_of_machine hv)
  have hretains := hkept.retains hsize
  exact
    { place := by rw [hmachine]; rfl
      slots := hslots
      conts := by rw [hmachine]; rfl
      dyns := by rw [hmachine]; rfl
      limit := by rw [hmachine]; rfl
      native := rfl
      wf := by
        refine hw.withMachine hv hw.holds_code nofun (fun w hw' => hw.holds_of_slots ?_)
          (fun w hw' => hw.holds_of_conts hw') rfl
        change w ∈ (u.machine.truncate below.length).slots at hw'
        rw [show u.machine.slots = _ from (congrArg Machine.slots hmachine).trans h.slots]
        exact List.mem_append_right _ (hslots ▸ hw')
      records := fun k hk => hkept.cont? (hreach (by
        simp only [Machine.values, Machine.serving, List.mem_append, hk, or_true]))
      listings := fun v hv => hretains.listing? (hreach (by
        rcases List.mem_cons.1 hv with rfl | hv
        · simp [Machine.values, Machine.serving]
        · refine Machine.mem_values_of_slots ?_
          change v ∈ s.machine.slots
          rw [h.slots]
          exact List.mem_append_right _ hv)) }

end Serving

end CellLisp
