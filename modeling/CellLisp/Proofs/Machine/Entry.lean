import CellLisp.Proofs.Machine.Builtin
import CellLisp.Proofs.Machine.Motion

/-!
# `CellLisp.Proofs.Machine.Entry` — calls and returns

The machine of a run *stands* when it is about to carry out an instruction: `At` the place
that its frames say, or `Entering` a procedure that has yet to collect its arguments past the
required ones.  Every call leads to a machine that stands (`leads_enter`), with the saved words
of the new frame leading back to the frame that called; a call of a built-in procedure goes on
in that frame at once (`leads_callNative`).
-/

namespace CellLisp

/-! ## Moving -/

/-- Nothing but the machine is another. -/
structure System.Moves (w w' : System) (m : Machine) : Prop where
  plans : w'.plans = w.plans
  state : w'.state = { w.state with machine := m }

section Moves

variable {w w' w'' : System} {m m' : Machine} {mode : Mode} {d : Nat} {o : System} {v : Value}

theorem System.Moves.heap (h : w.Moves w' m) : w'.heap = w.heap := by rw [System.heap, h.state]

theorem System.Moves.known (h : w.Moves w' m) : w'.state.known = w.state.known := by rw [h.state]

theorem System.Moves.machine (h : w.Moves w' m) : w'.state.machine = m := by rw [h.state]

theorem System.Moves.trans (h : w.Moves w' m) (h' : w'.Moves w'' m') : w.Moves w'' m' :=
  ⟨h'.plans.trans h.plans, by rw [h'.state, h.state]⟩

theorem System.Moves.refl (w : System) : w.Moves w w.state.machine := ⟨rfl, rfl⟩

theorem System.Moves.retained (h : w.Moves w' m) (vs : List Value) : Retained w w' vs :=
  .of_heap_eq h.heap h.plans vs

theorem System.Moves.holds (h : w.Moves w' m) (hv : w.heap.Holds v) : w'.heap.Holds v := by
  rw [h.heap]
  exact hv

theorem System.Moves.good (h : w.Moves w' m) (hv : w.Good v) : w'.Good v :=
  ⟨h.holds hv.holds, by rw [h.plans]; exact hv.proper⟩

theorem System.Moves.isKind {k : Kind} (h : w.Moves w' m) (hv : w.IsKind v k) : w'.IsKind v k :=
  hv.retained (h.retained [v]) (List.mem_singleton_self v) h.known

theorem System.Moves.chained {fs : List Frame} {r : Return} {val? : Option Kind} {base : Machine}
    (h : w.Moves w' m) (hc : Chained w base fs r val?) : Chained w' base fs r val? :=
  hc.retained (h.retained (r.code :: (fs.flatMap Frame.slots ++ fs.flatMap Frame.conts))) h.known
    (by simp) (fun _ hv => by simp [hv]) fun _ hv => by simp [hv]

/-- A machine with the dynamic bindings and continuations in force, whose other values hold. -/
structure System.Takes (w : System) (u : Machine) : Prop where
  val : w.heap.Holds u.val
  code : w.heap.Holds u.code
  native : ∀ p, u.native = some p → w.heap.Holds p
  slots : ∀ v ∈ u.slots, w.heap.Holds v
  dyns : u.dyns = w.state.machine.dyns
  conts : u.conts = w.state.machine.conts
  limit : u.limit = w.state.machine.limit

theorem System.takes (w : System) : w.Takes w.state.machine where
  val := System.holds_of_machine (by simp [Machine.values])
  code := System.holds_of_machine (by simp [Machine.values])
  native := fun p hp => System.holds_of_machine (by simp [Machine.values, hp])
  slots := fun v hv => System.holds_of_machine (Machine.mem_values_of_slots hv)
  dyns := rfl
  conts := rfl
  limit := rfl

theorem System.Takes.admits {u : Machine} (h : w.Takes u) : w.Admits u := by
  refine System.admits_of_values (fun v hv => ?_) (by rw [h.dyns]; exact List.Subset.refl _)
    (by rw [h.conts]; exact List.Subset.refl _) h.limit
  have hnative := h.native
  have hslots := h.slots
  simp only [Machine.values, h.dyns, h.conts, List.mem_append, List.mem_cons, List.not_mem_nil,
    or_false, Option.mem_toList, Machine.slots, List.mem_reverse] at hv hslots ⊢
  rcases hv with ((((rfl | rfl) | hv) | hv) | hv) | hv
  · exact .inr h.val
  · exact .inr h.code
  all_goals grind

/-- A change of the machine that brings in nothing but values that hold. -/
theorem leads_move {f : Machine → Machine} {u : Machine} (hu : f w.state.machine = u)
    (htakes : w.Takes u) (habove : o.state.machine.Above u) :
    Leads (Calm mode d o) (modifyMachine f) w fun _ w' => w.Moves w' u := by
  subst hu
  refine (leads_machine htakes.admits habove htakes.dyns htakes.conts).mono ?_
  rintro _ _ - rfl
  exact ⟨rfl, rfl⟩

theorem slots_push (m : Machine) (v : Value) :
    { m with stack := m.stack.push v }.slots = v :: m.slots := by
  simp [Machine.slots]

theorem Machine.Above.push {base : Machine} (h : base.Above m) (v : Value) :
    base.Above { m with stack := m.stack.push v } :=
  ⟨by rw [slots_push]; exact h.slots.trans (List.suffix_cons _ _), h.escapes⟩

theorem System.Moves.above {base : Machine} (h : w.Moves w' m) (hb : base.Above m) :
    base.Above w'.state.machine := by
  rw [h.machine]
  exact hb

theorem leads_push (hv : w.heap.Holds v) (habove : o.state.machine.Above w.state.machine) :
    Leads (Calm mode d o) (push v) w fun _ w' =>
      w.Moves w' { w.state.machine with stack := w.state.machine.stack.push v } ∧
        w.state.machine.stack.size < w.state.machine.limit := by
  unfold push
  refine Leads.bind (Leads.gets (Q := fun full w' => w = w' ∧ full = w.state.machine.isFull)
    ⟨rfl, rfl⟩) ?_
  rintro full _ - ⟨rfl, hfull⟩
  have hgo : Leads (Calm mode d o)
      (modifyMachine fun m => { m with stack := m.stack.push v }) w fun _ w' =>
        w.Moves w' { w.state.machine with stack := w.state.machine.stack.push v } := by
    refine leads_move rfl { w.takes with slots := ?_ } (habove.push v)
    intro u hu
    rw [slots_push, List.mem_cons] at hu
    rcases hu with rfl | hu
    · exact hv
    · exact w.takes.slots u hu
  cases full with
  | true => exact Leads.bind (Leads.fail _ (Q := fun _ _ => False)) fun _ _ _ h => h.elim
  | false =>
      refine hgo.mono fun _ _ _ h => ⟨h, ?_⟩
      simpa [Machine.isFull] using hfull.symm

theorem leads_setVal (hv : w.heap.Holds v) (habove : o.state.machine.Above w.state.machine) :
    Leads (Calm mode d o) (setVal v) w fun _ w' =>
      w.Moves w' { w.state.machine with val := v } := by
  exact leads_move rfl { w.takes with val := hv } ⟨habove.slots, habove.escapes⟩

end Moves

/-! ## Standing -/

/-- The stacks of a machine are those of frames on what was there before, and the operands have
not outgrown their limit. -/
structure Shows (m : Machine) (fs : List Frame) (o : Machine) : Prop where
  slots : m.slots = slotsOf fs o
  escapes : m.escapes = escapesOf fs o
  bindings : m.bindings = bindingsOf fs o
  room : m.stack.size ≤ m.limit

/-- Where a machine goes on. -/
def Machine.place (m : Machine) : Return := ⟨m.code, m.pc, m.fp⟩

/-- The machine is about to go on where its frames say. -/
structure At (w : System) (o : Machine) (fs : List Frame) (val? : Option Kind) : Prop where
  shows : Shows w.state.machine fs o
  chained : Chained w o fs w.state.machine.place val?
  value : ∀ k, val? = some k → w.IsKind w.state.machine.val k
  native : w.state.machine.native = none

/-- The machine has yet to collect the arguments of a procedure past the required ones. -/
structure Entering (w : System) (o : Machine) (f : Frame) (fs : List Frame) (pc : Nat) : Prop where
  shows : Shows w.state.machine (f :: fs) o
  frame : FrameOk w o fs ⟨w.state.machine.code, 0, w.state.machine.fp⟩ f
  chained : Chained w o fs f.back (some .any)
  shape : f.shape = ⟨some .saved, [], [], 0⟩
  pc : w.state.machine.pc = pc
  argc : f.args.length = w.state.machine.argc
  arity : ∃ b, w.heap.cell f.cell = .bytecode b ∧ b.arity.isVariadic = true ∧
    b.arity.required ≤ f.args.length
  native : w.state.machine.native = none

/-- The machine is about to carry out an instruction, in the first of some frames. -/
def Stands (w : System) (o : Machine) (fs : List Frame) : Prop :=
  (∃ val?, At w o fs val?) ∨ ∃ f gs, fs = f :: gs ∧ Entering w o f gs 0

/-- The frame of a call that goes on, with no more than one new dynamic binding. -/
structure Frame.Becomes (f f' : Frame) : Prop where
  cell : f'.cell = f.cell
  proc : f'.proc = f.proc
  back : f'.back = f.back
  args : f'.args.length = f.args.length
  dyns : f'.dyns <:+ f.dyns ∨ ∃ b, f'.dyns = b :: f.dyns

theorem Frame.Becomes.refl (f : Frame) : f.Becomes f := ⟨rfl, rfl, rfl, rfl, .inl List.suffix_rfl⟩

section Standing

variable {w w' : System} {mode : Mode} {d : Nat} {o : Machine} {fs : List Frame} {f : Frame}
  {val? : Option Kind}

theorem Shows.above {m : Machine} (h : Shows m fs o) : o.Above m :=
  ⟨by rw [h.slots]; exact List.suffix_append _ _, by rw [h.escapes]; exact List.suffix_append _ _⟩

theorem Shows.slots_subset {m : Machine} (h : Shows m fs o) :
    fs.flatMap Frame.slots ⊆ m.values := fun v hv =>
  Machine.mem_values_of_slots (by rw [h.slots]; exact List.mem_append_left _ hv)

theorem Shows.escapes_subset {m : Machine} (h : Shows m fs o) :
    fs.flatMap Frame.conts ⊆ m.values := fun v hv =>
  Machine.mem_values_of_escapes (by rw [h.escapes]; exact List.mem_append_left _ hv)

theorem SameCell.weaken {i : Nat} (ht : mode.target = none) (h : SameCell mode w w' i) :
    SameCell { machine := false, pairs := false } w w' i := by
  unfold SameCell at *
  cases hc : w.heap.cell i with
  | symbol s =>
      simp only [hc] at h ⊢
      obtain ⟨s', h, hnext, -⟩ := h
      exact ⟨s', h, hnext, by rintro ⟨⟩⟩
  | pair a b =>
      simp only [hc] at h ⊢
      obtain ⟨a', b', h, hp, he⟩ := h
      exact ⟨a', b', h, hp, fun hk => he (.inr (hk.resolve_left Bool.false_ne_true))⟩
  | bytecode b =>
      simp only [hc] at h ⊢
      exact ⟨h.1, h.2.1, fun sites hs _ => h.2.2 sites hs (by simp [ht])⟩
  | cont k =>
      simp only [hc] at h ⊢
      exact h.imp fun _ h => ⟨h.1, by rintro ⟨⟩⟩
  | free | native | closure | array | string | stringStream | fileStream =>
      simp only [hc] at h ⊢
      exact h

theorem System.anchored_of_machine {v : Value} (hm : mode.machine = true)
    (hv : v ∈ w.state.machine.values) : Anchored mode d w.state v := by
  refine ⟨v, ?_, .refl⟩
  rw [State.base, hm]
  exact List.mem_append_right _ hv

/-- What the machine refers to is kept by a step that leaves it alone. -/
theorem Stable.retained (hs : Stable mode.rigid d w w') (ht : mode.target = none) :
    Retained w w' w.state.machine.values := fun v hv i hi =>
  (hs.same v i (System.anchored_of_machine rfl hv) hi).weaken (by simpa [Mode.rigid, Mode.loose] using ht)

theorem At.rigid (h : At w o fs val?) (hs : Stable mode.rigid d w w') (ht : mode.target = none) :
    At w' o fs val? := by
  have hm := hs.machine rfl
  have hr := hs.retained ht
  refine ⟨by rw [hm]; exact h.shows, ?_, fun k hk => ?_, by rw [hm]; exact h.native⟩
  · rw [hm]
    exact h.chained.retained hr hs.known (by simp [Machine.place, Machine.values])
      h.shows.slots_subset h.shows.escapes_subset
  · rw [hm]
    exact (h.value k hk).retained hr (by simp [Machine.values]) hs.known

theorem Entering.rigid {pc : Nat} (h : Entering w o f fs pc) (hs : Stable mode.rigid d w w')
    (ht : mode.target = none) : Entering w' o f fs pc := by
  have hm := hs.machine rfl
  have hr := hs.retained ht
  have hslots := h.shows.slots_subset
  have hescapes := h.shows.escapes_subset
  rw [List.flatMap_cons, List.append_subset] at hslots hescapes
  have hcode : w.state.machine.place.code ∈ w.state.machine.values := by
    simp [Machine.place, Machine.values]
  obtain ⟨b, hb, hv, hle⟩ := h.arity
  obtain ⟨⟨b', hb', harity⟩, -⟩ := hr.bytecode hcode h.frame.exists_bytecode.1 hb
  refine ⟨by rw [hm]; exact h.shows, ?_, ?_, h.shape, by rw [hm]; exact h.pc,
    by rw [hm]; exact h.argc, ⟨b', hb', by rw [harity]; exact hv, by rw [harity]; exact hle⟩,
    by rw [hm]; exact h.native⟩
  · rw [hm]
    exact h.frame.retained hr hs.known hcode hslots.1 hescapes.1
  · exact h.chained.retained hr hs.known (hslots.1 (by simp [Frame.slots, Frame.below, Frame.saved]))
      hslots.2 hescapes.2

/-- Collecting arguments does not depend on the value register. -/
theorem Entering.moved {pc pc' : Nat} {v : Value} {m : Machine} (h : Entering w o f fs pc)
    (hm : w.Moves w' m) (he : m = { w.state.machine with val := v, pc := pc' }) :
    Entering w' o f fs pc' := by
  subst he
  have hmachine := hm.machine
  obtain ⟨b, hb, harity⟩ := h.arity
  refine ⟨?_, ?_, hm.chained h.chained, h.shape, ?_, ?_, ⟨b, by rw [hm.heap]; exact hb, harity⟩, ?_⟩
  · rw [hmachine]
    exact ⟨h.shows.slots, h.shows.escapes, h.shows.bindings, h.shows.room⟩
  · rw [hmachine]
    exact h.frame.retained (hm.retained (w.state.machine.code :: (f.slots ++ f.conts))) hm.known
      (by simp) (fun _ hu => by simp [hu]) fun _ hu => by simp [hu]
  · rw [hmachine]
  · rw [hmachine]
    exact h.argc
  · rw [hmachine]
    exact h.native

end Standing

/-! ## Compiled code -/

/-- Arguments, the last first, are on the stack for a call that goes back to a frame. -/
structure Calling (w : System) (o : Machine) (args : List Value) (fs : List Frame) (r : Return) :
    Prop where
  slots : w.state.machine.slots = args ++ slotsOf fs o
  escapes : w.state.machine.escapes = escapesOf fs o
  bindings : w.state.machine.bindings = bindingsOf fs o
  room : w.state.machine.stack.size ≤ w.state.machine.limit
  chained : Chained w o fs r (some .any)
  holds : w.heap.Holds r.code
  fits : r.pc < 2 ^ 59 ∧ r.fp < 2 ^ 59
  native : w.state.machine.native = none

/-- A call that goes back to `r` has put frames on top of others, one at most: the one of what it
called; or it has come back at once. -/
structure Entered (w : System) (o : Machine) (fs : List Frame) (r : Return) (gs : List Frame) :
    Prop where
  few : gs.length ≤ 1
  back : ∀ g ∈ gs, g.back = r
  place : gs = [] → w.state.machine.place = r
  stands : Stands w o (gs ++ fs)

theorem Entered.atOnce {w : System} {o : Machine} {fs : List Frame} {r : Return}
    {val? : Option Kind} (h : At w o fs val?) (hplace : w.state.machine.place = r) :
    Entered w o fs r [] :=
  ⟨Nat.zero_le 1, by simp, fun _ => hplace, .inl ⟨val?, h⟩⟩

/-- Compiled code that may be entered with an environment or without one. -/
def Enterable (w : System) (code : Value) (env : Option Value) : Prop :=
  w.heap.Holds code ∧ ∃ i p, code = .ref .bytecode i ∧ i ≠ 0 ∧ w.plans i = some (.done p) ∧
    w.AreKinds env.toList (if p.copies = 0 then [] else [.env p.copies])

section Calls

variable {w w' : System} {mode : Mode} {d : Nat} {o : System} {fs : List Frame} {r : Return}
  {args : List Value} {procedure code : Value} {argc : Nat}

theorem Calling.above {base : Machine} (h : Calling w base args fs r) :
    base.Above w.state.machine :=
  ⟨by rw [h.slots, slotsOf, ← List.append_assoc]; exact List.suffix_append _ _,
    by rw [h.escapes]; exact List.suffix_append _ _⟩

theorem Heap.bytecode?_ref {h : Heap} {i : Nat} {b : Bytecode} (hi : i ≠ 0)
    (hb : h.cell i = .bytecode b) : h.bytecode? (.ref .bytecode i) = some b := by
  unfold bytecode?
  rw [Value.cell?_eq_some_iff.2 ⟨_, rfl, hi⟩]
  simp only [hb]

/-- An instruction of a finished procedure is that of its site. -/
theorem System.instr?_of_plan {i n : Nat} {p : Proc} {b : Bytecode} {site : Site} (hi : i ≠ 0)
    (hp : w.plans i = some (.done p)) (hb : w.heap.cell i = .bytecode b)
    (hsite : p.sites[n]? = some site) : w.heap.instr? (.ref .bytecode i) n = some site.instr := by
  obtain ⟨-, hinstrs⟩ := System.code_of_plan hp hb
  unfold Heap.instr?
  simp only [Heap.bytecode?_ref hi hb, hinstrs]
  rw [List.getElem?_toArray, Proc.instrs, List.getElem?_map, hsite]
  rfl

theorem looks_checkArity {s : State} (a : Arity) (n : Nat) (name : Heap → String) :
    Looks (checkArity a n name) s fun _ => a.accepts n = true := by
  unfold checkArity
  cases h : a.accepts n with
  | true => exact Looks.pure rfl
  | false =>
      refine Looks.bind (Q := fun _ => True) (Looks.gets trivial) fun _ _ => ?_
      exact Looks.fail _

/-- The machine that a call of compiled code leads to. -/
def Machine.entered (m : Machine) (code : Value) (env : Option Value) (argc : Nat) (r : Return) :
    Machine :=
  let stack := ((m.stack.push r.code).push (.ofInt r.pc)).push (.ofInt r.fp)
  { m with
    stack := stack ++ env.toArray
    fp := stack.size
    code
    pc := 0
    argc }

theorem slots_entered (m : Machine) (code : Value) (env : Option Value) (argc : Nat) (r : Return) :
    (m.entered code env argc r).slots
      = env.toList ++ ([.ofInt r.fp, .ofInt r.pc, r.code] ++ m.slots) := by
  cases env <;> simp [Machine.entered, Machine.slots]

theorem leads_enterCode_moves {env : Option Value} (hcall : Calling w o.state.machine args fs r)
    (hcode : w.heap.Holds code) (henv : ∀ e, env = some e → w.heap.Holds e) :
    Leads (Calm mode d o) (enterCode procedure code env argc r) w fun _ w' =>
      w.Moves w' (w.state.machine.entered code env argc r) ∧
        (w.state.machine.entered code env argc r).stack.size ≤ w.state.machine.limit ∧
        ∃ b, w.heap.bytecode? code = some b ∧ b.arity.accepts argc = true := by
  unfold enterCode
  refine Leads.bind (looks_bytecodeOf (s := w.state) code).leads ?_
  rintro b _ - ⟨rfl, hb⟩
  refine Leads.bind (looks_checkArity b.arity argc _).leads ?_
  rintro _ _ - ⟨rfl, haccepts⟩
  have habove := hcall.above
  refine Leads.bind (leads_push hcall.holds habove) ?_
  rintro _ w₁ - ⟨h₁, -⟩
  have habove₁ := h₁.above (habove.push _)
  refine Leads.bind (leads_push (holds_ofInt _ _) habove₁) ?_
  rintro _ w₂ - ⟨h₂, -⟩
  have habove₂ := h₂.above (habove₁.push _)
  refine Leads.bind (leads_push (holds_ofInt _ _) habove₂) ?_
  rintro _ w₃ - ⟨h₃, hroom₃⟩
  have habove₃ := h₃.above (habove₂.push _)
  have h₁₃ := (h₁.trans h₂).trans h₃
  refine Leads.bind (leads_move rfl { w₃.takes with } ⟨habove₃.slots, habove₃.escapes⟩) ?_
  rintro _ w₄ - h₄
  have h₁₄ := h₁₃.trans h₄
  have habove₄ : o.state.machine.Above w₄.state.machine := h₄.above ⟨habove₃.slots, habove₃.escapes⟩
  -- the environment, if there is one, comes last
  have hlast : ∀ {w₅ : System}, w₄.Moves w₅ { w₄.state.machine with
        stack := w₄.state.machine.stack ++ env.toArray } →
      Leads (Calm mode d o) (modifyMachine fun m => { m with code, pc := 0, argc }) w₅ fun _ w' =>
        w.Moves w' (w.state.machine.entered code env argc r) := by
    intro w₅ h₅
    have h₁₅ := h₁₄.trans h₅
    have hstate : { w₅.state.machine with code, pc := 0, argc }
        = w.state.machine.entered code env argc r := by
      rw [h₅.machine, h₄.machine, h₃.machine, h₂.machine, h₁.machine]
      rfl
    refine (leads_move (u := w.state.machine.entered code env argc r) hstate ?_
      ⟨?_, habove.escapes⟩).mono fun _ _ _ h => h₁₅.trans h
    · rw [← hstate]
      exact { w₅.takes with code := h₁₅.holds hcode }
    · rw [slots_entered, ← List.append_assoc]
      exact habove.slots.trans (List.suffix_append _ _)
  cases env with
  | none =>
      refine (hlast ?_).mono fun _ _ _ h => ⟨h, ?_, b, hb, haccepts⟩
      · simpa using System.Moves.refl w₄
      · rw [h₂.machine, h₁.machine] at hroom₃
        simpa [Machine.entered] using Nat.succ_le_of_lt hroom₃
  | some e =>
      refine Leads.bind (leads_push (h₁₄.holds (henv e rfl)) habove₄) ?_
      rintro _ w₅ - ⟨h₅, hroom₅⟩
      refine (hlast ?_).mono fun _ _ _ h => ⟨h, ?_, b, hb, haccepts⟩
      · simpa using h₅
      · rw [h₄.machine, h₃.machine, h₂.machine, h₁.machine] at hroom₅
        simpa [Machine.entered] using Nat.succ_le_of_lt hroom₅

/-- A call of compiled code. -/
theorem leads_enterCode {env : Option Value} (hcall : Calling w o.state.machine args fs r)
    (hargs : ∀ v ∈ args, w.Good v) (hcode : Enterable w code env) :
    Leads (Calm mode d o) (enterCode procedure code env args.length r) w fun _ w' =>
      ∃ gs, Entered w' o.state.machine fs r gs := by
  obtain ⟨hholds, i, p, rfl, hi, hp, henv⟩ := hcode
  refine (leads_enterCode_moves hcall hholds ?_).mono ?_
  · rintro e rfl
    split at henv <;> cases henv
    rename_i h _
    exact h.holds
  rintro _ w' - ⟨hm, hroom, b', hb, haccepts⟩
  obtain ⟨b, hcell⟩ := Cell.exists_of_tag_bytecode (hholds _ i rfl hi).2
  rw [Heap.bytecode?_ref hi hcell] at hb
  obtain rfl := Option.some.inj hb
  have hmachine := hm.machine
  have hplace : w'.state.machine.place
      = ⟨.ref .bytecode i, 0, args.length + (slotsOf fs o.state.machine).length + 3⟩ := by
    have := congrArg List.length hcall.slots
    simp only [Machine.length_slots, List.length_append] at this
    rw [hmachine]
    simp [Machine.place, Machine.entered, this]
  have hshows (f : Frame) (hslots : f.slots = env.toList ++ ([.ofInt r.fp, .ofInt r.pc, r.code] ++ args))
      (hconts : f.conts = []) (hdyns : f.dyns = []) :
      Shows w'.state.machine (f :: fs) o.state.machine := by
    refine ⟨?_, ?_, ?_, by rw [hmachine]; exact hroom⟩
    · rw [hmachine, slots_entered, hcall.slots]
      simp [slotsOf, hslots]
    · rw [hmachine, escapesOf_cons, hconts]
      exact hcall.escapes
    · rw [hmachine, bindingsOf_cons, hdyns]
      exact hcall.bindings
  have hfits := (System.code_of_plan hp hcell).1
  let f (val : Option Kind) : Frame := ⟨i, p, ⟨val, [], [], 0⟩, [], env.toList, r, args, [], []⟩
  have hentered (val : Option Kind) (h : Stands w' o.state.machine (f val :: fs)) :
      ∃ gs, Entered w' o.state.machine fs r gs :=
    ⟨[f val], Nat.le_refl 1, fun g hg => by rw [List.mem_singleton.1 hg], by rintro ⟨⟩, h⟩
  have hok (val : Option Kind) (harr : Arrives p.sites 0 ⟨val, [], [], 0⟩) :
      FrameOk w' o.state.machine fs w'.state.machine.place (f val) := by
    rw [hplace]
    exact ⟨hi, by rw [hm.plans]; exact hp, rfl, hm.holds hholds, harr, .nil,
      henv.imp fun _ _ => hm.isKind, fun v hv => hm.good (hargs v hv), hcall.fits, rfl, trivial, rfl⟩
  have hstart := (Proc.verified hfits.conts hfits.body).start
  have hcell' : w'.heap.cell i = .bytecode b := by rw [hm.heap, hcell]
  cases hleast : p.least? with
  | none =>
      have hvariadic := hfits.exact hleast
      rw [hleast] at hstart
      refine hentered none (.inl ⟨none, hshows _ (by simp [f, Frame.slots, Frame.below, Frame.saved])
        rfl rfl, ⟨hok none hstart, ⟨b, hcell', ?_⟩, rfl, hm.chained hcall.chained⟩, by simp,
        by rw [hmachine]; exact hcall.native⟩)
      unfold Arity.isVariadic at hvariadic
      unfold Arity.accepts at haccepts
      rw [Arity.slots]
      split at haccepts
      · rename_i hlt
        simp [hlt] at hvariadic
      · rename_i hlt
        rw [if_neg hlt]
        simpa using haccepts
  | some n =>
      obtain ⟨hvariadic, hrequired⟩ := hfits.least n hleast
      rw [hleast] at hstart
      refine hentered (some .saved) (.inr ⟨_, fs, rfl,
        hshows _ (by simp [f, Frame.slots, Frame.below, Frame.saved]) rfl rfl, ?_,
        hm.chained hcall.chained, rfl, congrArg Return.pc hplace, by rw [hmachine]; rfl,
        ⟨b, hcell', hvariadic, ?_⟩, by rw [hmachine]; exact hcall.native⟩)
      · have hok := hok _ hstart
        rwa [show w'.state.machine.place = ⟨w'.state.machine.code, 0, w'.state.machine.fp⟩ by
          rw [Machine.place, show w'.state.machine.pc = 0 from congrArg Return.pc hplace]] at hok
      unfold Arity.isVariadic at hvariadic
      unfold Arity.accepts at haccepts
      split at haccepts
      · simpa using haccepts
      · rename_i hlt
        simp [hlt] at hvariadic

end Calls

end CellLisp
