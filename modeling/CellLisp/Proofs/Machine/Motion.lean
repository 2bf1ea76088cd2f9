import CellLisp.Proofs.Machine.Frame

/-!
# `CellLisp.Proofs.Machine.Motion` — what a run leaves alone

A run changes the machine, so that what lasts during a run is found from the symbol table and
the protected values alone.  What it can always go back to is `Based`: the stacks of the machine
it began with are the lower parts of those now, and undoing the dynamic bindings above them
gives each fixed symbol the global value it had.

| | |
| :-- | :-- |
| `System.withMachine` | a typed state with another machine |
| `undone` | the global value of a symbol once dynamic bindings are undone |
| `Ran` | what lasts is the same, and what a run began with can be gone back to |
-/

namespace CellLisp

/-! ## Another machine -/

/-- A machine that a typed state may have. -/
structure System.Admits (w : System) (m : Machine) : Prop where
  values : ∀ v ∈ m.values, w.heap.Holds v
  olds : ∀ b ∈ m.dyns.toList, ∀ v, b.old = some v → Proper w.plans v
  conts : ∀ i k, w.heap.cell i = .cont k → k.exited = false → .ref .object i ∈ m.conts.toList
  limit : m.limit = w.state.machine.limit

section Machines

variable {w : System} {m : Machine} {mode : Mode} {d : Nat}

theorem State.mem_rootValues_of_machine {s : State} {v : Value} (hv : v ∈ s.machine.values) :
    v ∈ s.rootValues := by
  simp only [State.rootValues, Machine.values, List.mem_append, List.mem_cons, List.not_mem_nil,
    or_false] at hv ⊢
  grind

/-- What the roots are, the machine apart. -/
theorem State.mem_rootValues_iff {s : State} {v : Value} :
    v ∈ s.rootValues ↔ v ∈ s.symbols.buckets.toList ∨ v ∈ s.roots.toList ∨ v = s.known.halt ∨
      v = s.known.makeClosure ∨ v ∈ s.machine.values := by
  simp only [State.rootValues, Machine.values, List.mem_append, List.mem_cons, List.not_mem_nil,
    or_false]
  grind

theorem System.holds_of_machine (hv : v ∈ w.state.machine.values) : w.heap.Holds v :=
  w.typed.roots v (State.mem_rootValues_of_machine hv)

theorem Machine.mem_values_of_slots {m : Machine} {v : Value} (hv : v ∈ m.slots) :
    v ∈ m.values := by
  rw [slots, List.mem_reverse] at hv
  simp only [values, List.mem_append, hv, or_true, true_or]

theorem Machine.mem_values_of_escapes {m : Machine} {v : Value} (hv : v ∈ m.escapes) :
    v ∈ m.values := by
  rw [escapes, List.mem_reverse] at hv
  simp only [values, List.mem_append, hv, or_true]

theorem System.typed_withMachine (h : w.Admits m) :
    State.Typed w.plans { w.state with machine := m } where
  heap := w.typed.heap
  roots := by
    intro v hv
    rw [State.mem_rootValues_iff] at hv
    rcases hv with hv | hv | hv | hv | hv
    · exact w.typed.roots v (State.mem_rootValues_iff.2 (.inl hv))
    · exact w.typed.roots v (State.mem_rootValues_iff.2 (.inr (.inl hv)))
    · exact w.typed.roots v (State.mem_rootValues_iff.2 (.inr (.inr (.inl hv))))
    · exact w.typed.roots v (State.mem_rootValues_iff.2 (.inr (.inr (.inr (.inl hv)))))
    · exact h.values v hv
  cells := w.typed.cells
  buckets := w.typed.buckets
  dyns := h.olds
  known := ⟨w.typed.known.halt, w.typed.known.maker, w.typed.known.symbols⟩
  conts := h.conts

/-- The system with another machine. -/
def System.withMachine (w : System) (m : Machine) (h : w.Admits m) : System :=
  ⟨w.plans, { w.state with machine := m }, w.typed_withMachine h⟩

theorem System.stable_withMachine (h : w.Admits m) (hm : mode.machine = false)
    (hr : mode.rests = false) : Stable mode d w (w.withMachine m h) where
  known := rfl
  config := rfl
  bound := h.limit
  size := rfl
  limit := rfl
  machine := by simp [hm]
  rests := by simp [hr]
  depth := fun _ _ h => h
  anchored := by
    rintro pairs machine hmachine e - - v ⟨u, hu, hl⟩
    cases machine with
    | true => rw [hm] at hmachine; exact absurd (hmachine rfl) (by decide)
    | false => exact ⟨u, hu, hl⟩
  same := fun v i _ _ => .of_eq rfl (fun _ _ => rfl) (fun _ h _ => h) (fun _ h => h) fun _ _ _ => .rfl
  along := fun _ _ _ _ _ _ _ hp hc => ⟨hc, hp⟩
  sound := fun _ _ h => ⟨h.holds, h.proper⟩
  below := fun _ _ _ => rfl

/-- A machine that refers to nothing new, or to what holds, may be had. -/
theorem System.admits_of_values {m : Machine}
    (hvalues : ∀ v ∈ m.values, v ∈ w.state.machine.values ∨ w.heap.Holds v)
    (hdyns : m.dyns.toList ⊆ w.state.machine.dyns.toList)
    (hconts : w.state.machine.conts.toList ⊆ m.conts.toList)
    (hlimit : m.limit = w.state.machine.limit) : w.Admits m where
  values := fun v hv => (hvalues v hv).elim System.holds_of_machine id
  olds := fun b hb => w.typed.dyns b (hdyns hb)
  conts := fun i k hi hk => hconts (w.typed.conts i k hi hk)
  limit := hlimit

end Machines

/-! ## Undoing -/

/-- The global value of a symbol, if the cell is one and it is bound. -/
def Heap.valueAt (h : Heap) (i : Nat) : Option Value :=
  match h.cell i with
  | .symbol s => s.value
  | _ => none

/-- The global value of a symbol once dynamic bindings, the newest first, are undone. -/
def undone (bs : List DynBinding) (i : Nat) (now : Option Value) : Option Value :=
  bs.foldl (fun v b => if b.symbol.cell? = some i then b.old else v) now

theorem undone_cons (b : DynBinding) (bs : List DynBinding) (i : Nat) (now : Option Value) :
    undone (b :: bs) i now = undone bs i (if b.symbol.cell? = some i then b.old else now) := rfl

/-- What a bound symbol is now does not matter. -/
theorem undone_of_bound {bs : List DynBinding} {i : Nat} {b : DynBinding} (hb : b ∈ bs)
    (hi : b.symbol.cell? = some i) (now later : Option Value) :
    undone bs i now = undone bs i later := by
  induction bs generalizing now later with
  | nil => cases hb
  | cons c bs ih =>
      rw [undone_cons, undone_cons]
      rcases List.mem_cons.1 hb with rfl | hb
      · rw [if_pos hi, if_pos hi]
      · exact ih hb _ _

/-! ## Running -/

namespace Mode

/-- The mode of a run that is under way: the machine and the symbols change. -/
def loose (m : Mode) : Mode := { m with machine := false, rests := false, fixed := fun _ => False }

/-- The mode of a step that leaves both alone. -/
def rigid (m : Mode) : Mode := { m.loose with machine := true, fixed := fun _ => True }

end Mode

/-- A symbol whose global value a run leaves as it is. -/
structure Constant (m : Mode) (d : Nat) (o : System) (i : Nat) : Prop where
  fixed : m.fixed i
  pos : i ≠ 0
  anchored : Anchored m.loose d o.state (.ref .symbol i)

/-- What a run began with can be gone back to. -/
structure Based (m : Mode) (d : Nat) (o w : System) : Prop where
  slots : o.state.machine.slots <:+ w.state.machine.slots
  escapes : o.state.machine.escapes <:+ w.state.machine.escapes
  bindings : ∃ bs, w.state.machine.bindings = bs ++ o.state.machine.bindings ∧
    ∀ i, Constant m d o i → undone bs i (w.heap.valueAt i) = o.heap.valueAt i

/-- What lasts is the same, and what a run began with can still be gone back to. -/
structure Ran (m : Mode) (d : Nat) (o w w' : System) : Prop where
  stable : Stable m.loose d w w'
  based : Stable m.loose d o w → Based m d o w → Based m d o w'

section Ran

variable {m : Mode} {d : Nat} {o w w' : System}

instance : Follows (Ran m d o) where
  refl w := ⟨Follows.refl w, fun _ h => h⟩
  trans h₁ h₂ :=
    ⟨Follows.trans h₁.stable h₂.stable,
      fun hs h => h₂.based (Follows.trans hs h₁.stable) (h₁.based hs h)⟩

theorem SameCell.loosen {i : Nat} (h : SameCell m.rigid w w' i) : SameCell m.loose w w' i := by
  unfold SameCell at *
  cases hc : w.heap.cell i with
  | symbol s =>
      simp only [hc] at h ⊢
      obtain ⟨s', h, hnext, -⟩ := h
      exact ⟨s', h, hnext, nofun⟩
  | cont k =>
      simp only [hc] at h ⊢
      exact h.imp fun _ h => ⟨h.1, nofun⟩
  | free | pair | bytecode | native | closure | array | string | stringStream | fileStream =>
      simp only [hc] at h ⊢
      exact h

theorem Anchored.rigid {s : State} {v : Value} (h : Anchored m.loose d s v) :
    Anchored m.rigid d s v := by
  obtain ⟨u, hu, hl⟩ := h
  refine ⟨u, ?_, hl⟩
  simp only [State.base, Mode.loose, Mode.rigid, List.mem_append] at hu ⊢
  grind

theorem Stable.loosen (hs : Stable m.rigid d w w') : Stable m.loose d w w' where
  known := hs.known
  config := hs.config
  bound := hs.bound
  size := hs.size
  limit := hs.limit
  machine := nofun
  rests := nofun
  depth := hs.depth
  anchored := fun pairs machine hm => hs.anchored pairs machine fun h => nomatch hm h
  same := fun v i hv hi => (hs.same v i hv.rigid hi).loosen
  along := fun u hu => hs.along u hu.rigid
  sound := hs.sound
  below := hs.below

/-- The global value of a symbol that lasts is as before. -/
theorem Stable.valueAt {i : Nat} (hs : Stable m d w w') (hi : i ≠ 0) (hf : m.fixed i)
    (ha : Anchored m d w.state (.ref .symbol i)) : w'.heap.valueAt i = w.heap.valueAt i := by
  have hsame := hs.same _ i ha (Value.cell?_eq_some_iff.2 ⟨_, rfl, hi⟩)
  have htag := hsame.tag.2
  unfold SameCell at hsame
  unfold Heap.valueAt
  cases hc : w.heap.cell i with
  | symbol s =>
      simp only [hc] at hsame ⊢
      obtain ⟨s', h, -, hv⟩ := hsame
      simp only [h]
      exact hv hf
  | free | pair | bytecode | native | closure | cont | array | string | stringStream
  | fileStream =>
      rw [hc] at htag
      cases hc' : w'.heap.cell i <;> simp_all [Cell.tag]

/-- A symbol that lasts goes on to last. -/
theorem Constant.anchors {i : Nat} (hi : Constant m d o i) (hs : Stable m.loose d o w) :
    Anchored m.loose d w.state (.ref .symbol i) := hs.anchors hi.anchored

/-- A step that leaves the machine and the symbols alone. -/
theorem Ran.of_rigid (hs : Stable m.rigid d w w') : Ran m d o w w' := by
  refine ⟨hs.loosen, fun ho hb => ?_⟩
  have hmachine := hs.machine rfl
  obtain ⟨bs, hbs, hvalue⟩ := hb.bindings
  refine ⟨by rw [hmachine]; exact hb.slots, by rw [hmachine]; exact hb.escapes, bs,
    by rw [hmachine]; exact hbs, fun i hi => ?_⟩
  rw [hs.valueAt hi.pos trivial (hi.anchors ho).rigid]
  exact hvalue i hi

/-- The stacks of one machine are the lower parts of those of another. -/
structure Machine.Above (o m : Machine) : Prop where
  slots : o.slots <:+ m.slots
  escapes : o.escapes <:+ m.escapes

/-- A change of the machine that leaves the dynamic bindings alone. -/
theorem Ran.of_machine {mach : Machine} (h : w.Admits mach) (habove : o.state.machine.Above mach)
    (hdyns : mach.dyns = w.state.machine.dyns) : Ran m d o w (w.withMachine mach h) := by
  refine ⟨System.stable_withMachine h rfl rfl, fun _ hb => ⟨habove.slots, habove.escapes, ?_⟩⟩
  obtain ⟨bs, hbs, hvalue⟩ := hb.bindings
  refine ⟨bs, ?_, hvalue⟩
  rw [← hbs, System.withMachine, Machine.bindings, Machine.bindings, hdyns]

end Ran

/-! ## Quiet steps -/

/-- The continuations and dynamic bindings in force are as before, and so are the records of
the former. -/
structure Quiet (w w' : System) : Prop where
  conts : w'.state.machine.conts = w.state.machine.conts
  dyns : w'.state.machine.dyns = w.state.machine.dyns
  records : ∀ i k, .ref .object i ∈ w.state.machine.conts.toList → w.heap.cell i = .cont k →
    w'.heap.cell i = .cont k

/-- What lasts is the same, what a run began with can still be gone back to, and no continuation
and no dynamic binding came or went. -/
structure Calm (m : Mode) (d : Nat) (o w w' : System) : Prop extends Ran m d o w w', Quiet w w'

section Calm

variable {m : Mode} {d : Nat} {o w w' : System}

instance : Follows Quiet where
  refl _ := ⟨rfl, rfl, fun _ _ _ h => h⟩
  trans h₁ h₂ := ⟨h₂.conts.trans h₁.conts, h₂.dyns.trans h₁.dyns, fun i k hi hk =>
    h₂.records i k (by rw [h₁.conts]; exact hi) (h₁.records i k hi hk)⟩

instance : Follows (Calm m d o) where
  refl w := { Follows.refl (R := Ran m d o) w, Follows.refl (R := Quiet) w with }
  trans h₁ h₂ := { Follows.trans h₁.toRan h₂.toRan, Follows.trans h₁.toQuiet h₂.toQuiet with }

theorem System.ne_zero_of_cont {i : Nat} {k : Cont} (h : w.heap.cell i = .cont k) : i ≠ 0 := by
  rintro rfl
  have hzero := w.typed.heap.wf.pool.zero
  rw [show w.state.heap.cell 0 = _ from h] at hzero
  cases hzero

theorem Quiet.of_rigid (hs : Stable m.rigid d w w') : Quiet w w' := by
  have hm := hs.machine rfl
  refine ⟨by rw [hm], by rw [hm], fun i k hi hk => ?_⟩
  have hin : Anchored m.rigid d w.state (.ref .object i) := by
    refine ⟨_, ?_, .refl⟩
    simp only [State.base, Mode.rigid, Machine.values, List.mem_append, hi, or_true, if_true]
  have hsame := hs.same _ i hin (Value.cell?_eq_some_iff.2 ⟨_, rfl, System.ne_zero_of_cont hk⟩)
  unfold SameCell at hsame
  simp only [hk] at hsame
  obtain ⟨exited, h, he⟩ := hsame
  obtain rfl := he rfl
  exact h

/-- What a step that leaves the machine and the symbols alone leads to. -/
theorem Leads.rigid {α : Type} {act : Act α} {Q : α → System → Prop}
    (h : Leads (Stable m.rigid d) act w Q) :
    Leads (Calm m d o) act w fun a w' => Stable m.rigid d w w' ∧ Q a w' := by
  unfold Leads at *
  split at h
  · obtain ⟨w', hs, hr, hq⟩ := h
    exact ⟨w', hs, { Ran.of_rigid hr, Quiet.of_rigid hr with }, hr, hq⟩
  · obtain ⟨w', hs, hr⟩ := h
    exact ⟨w', hs, { Ran.of_rigid hr, Quiet.of_rigid hr with }⟩
  · trivial

theorem leads_machine {f : Machine → Machine} (h : w.Admits (f w.state.machine))
    (habove : o.state.machine.Above (f w.state.machine))
    (hdyns : (f w.state.machine).dyns = w.state.machine.dyns)
    (hconts : (f w.state.machine).conts = w.state.machine.conts) :
    Leads (Calm m d o) (modifyMachine f) w fun _ w' => w' = w.withMachine _ h :=
  .change rfl { Ran.of_machine h habove hdyns with
    conts := hconts
    dyns := hdyns
    records := fun _ _ _ hk => hk } rfl

end Calm

end CellLisp
