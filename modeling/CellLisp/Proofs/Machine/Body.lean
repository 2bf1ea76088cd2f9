import CellLisp.Proofs.Machine.Backtrace
import CellLisp.Proofs.Machine.Collecting

/-!
# `CellLisp.Proofs.Machine.Body` — what the body of a procedure begins with

A call of compiled code comes to the body of it in one step, or in two if that collects arguments
first (`State.Begins`).  The frame of the body lies on what was below the arguments, the top first:

    environment     for a closure
    saved words     where the call goes back to
    parameters      the arguments, those past the required ones in one list

That this is so, whatever was called, is `Calling.begun`; `Calling.enters` says when a call gets so
far.
-/

namespace CellLisp

/-! ## What is called -/

/-- Compiled code that is called, with its environment if a closure is. -/
structure Callee where
  code : Value
  env? : Option Value
  arity : Arity

/-- The compiled code that a call of a value enters. -/
def Heap.callee? (h : Heap) (v : Value) : Option Callee :=
  (h.entry? v).bind fun e => (h.bytecode? e.1).map fun b => ⟨e.1, e.2, b.arity⟩

/-- Words of its frame when the body begins. -/
def Callee.words (c : Callee) : Nat := c.arity.slots + 3 + c.env?.toList.length

/-- Words that a call with so many arguments takes until then. -/
def Callee.room (c : Callee) (argc : Nat) : Nat := max argc c.arity.slots + 3 + c.env?.toList.length

/-- Parameters are the arguments, those past the required ones in a proper list. -/
def Arity.Receives (a : Arity) (h : Heap) (args params : List Value) : Prop :=
  if a.isVariadic then ∃ rest, params = args.take a.required ++ [rest] ∧
    h.items? rest = some (args.drop a.required).toArray
  else params = args

/-- Saved words and base of the frame at work. -/
def State.frame? (s : State) : Option (Return × Nat) :=
  (s.heap.bytecode? s.machine.code).bind fun b => s.machine.frame? b.arity.slots

/-- The body of what was called with some arguments begins, in a frame on some words that goes back
to `r`. -/
structure Callee.Begun (c : Callee) (r : Return) (below args : List Value) (s : State) : Prop where
  code : s.machine.code = c.code
  pc : s.machine.pc = if c.arity.isVariadic then 1 else 0
  frame : s.frame? = some (r, below.length)
  size : s.machine.stack.size = below.length + c.words
  stack : ∃ params, c.arity.Receives s.heap args params ∧
    s.machine.stack.toList = below ++ (params ++ (r.words ++ c.env?.toList))

/-- A step of a run in which programs call no procedure that is not for them. -/
structure State.Next (s s' : State) : Prop where
  permits : s.permits false = true
  step : step s = .ok false s'

/-- The call at `s` comes to the body of what it calls. -/
inductive State.Begins (s : State) (c : Callee) : State → Prop
  | atOnce {s' : State} : c.arity.isVariadic = false → s.Next s' → Begins s c s'
  | collecting {s₁ s' : State} : c.arity.isVariadic = true → s.Next s₁ → s₁.Next s' → Begins s c s'

section Callees

variable {h : Heap} {v : Value} {c : Callee}

theorem Heap.callee?_eq_some (hc : h.callee? v = some c) :
    h.entry? v = some (c.code, c.env?) ∧ ∃ b, h.bytecode? c.code = some b ∧ b.arity = c.arity := by
  obtain ⟨⟨code, env?⟩, hentry, hmap⟩ := Option.bind_eq_some_iff.1 hc
  obtain ⟨b, hb, rfl⟩ := Option.map_eq_some_iff.1 hmap
  exact ⟨hentry, b, hb, rfl⟩

theorem Heap.isVariadic_of_callee (hc : h.callee? v = some c) :
    h.isVariadic v = c.arity.isVariadic := by
  obtain ⟨hentry, b, hb, ha⟩ := h.callee?_eq_some hc
  rw [isVariadic, hentry, Option.bind_some, hb, Option.any_some, ha]

/-- The code of a procedure is laid out for what it takes. -/
theorem Heap.fits_of_callee {p : Proc} (hc : h.callee? v = some c) (hof : h.IsCodeOf c.code p) :
    p.Fits c.arity := by
  obtain ⟨-, b, hb, ha⟩ := h.callee?_eq_some hc
  obtain ⟨b', hb', hfits, -⟩ := hof
  obtain rfl := Option.some.inj (hb.symm.trans hb')
  exact ha ▸ hfits

/-- What a call of compiled code does that goes through. -/
theorem Heap.entered_of_callee {s s' : State} {r : Return} {argc : Nat}
    (hc : s.heap.callee? v = some c) (henter : CellLisp.enter v argc r s = .ok () s') :
    s' = { s with machine := s.machine.entered c.code c.env? argc r } ∧
      c.arity.accepts argc = true := by
  obtain ⟨hentry, b, hb, ha⟩ := Heap.callee?_eq_some hc
  rw [enter_eq_enterCode hentry] at henter
  obtain ⟨rfl, b', hb', haccepts⟩ := enterCode_ok henter
  obtain rfl := Option.some.inj (hb.symm.trans hb')
  exact ⟨rfl, ha ▸ haccepts⟩

theorem Heap.bytecode?_congr {h h' : Heap} {v : Value}
    (hcell : ∀ i, v.cell? = some i → h'.cell i = h.cell i) : h'.bytecode? v = h.bytecode? v := by
  unfold bytecode?
  cases hi : v.cell? with
  | none => rfl
  | some i => simp only [hcell i hi]

/-- Arguments that are taken fill the slots. -/
theorem Arity.Receives.length_eq {a : Arity} {args params : List Value}
    (hr : a.Receives h args params) (haccepts : a.accepts args.length = true) :
    params.length = a.slots := by
  unfold Receives at hr
  split at hr
  · rename_i hv
    obtain ⟨hle, hslots⟩ := slots_of_variadic hv haccepts
    obtain ⟨rest, rfl, -⟩ := hr
    rw [hslots, List.length_append, List.length_take, List.length_singleton, Nat.min_eq_left hle]
  · rename_i hv
    rw [hr, slots_of_fixed (by simpa using hv) haccepts]

end Callees

/-! ## Coming to a body -/

section Calling

variable {w : System} {o : System} {fs : List Frame} {r : Return} {args : List Value}
  {procedure : Value} {c : Callee} {s' : State}

theorem System.wellFormed (w : System) : w.state.WellFormed none :=
  ⟨w.typed.heap.wf, w.typed.roots, fun _ hc => by cases hc⟩

/-- A call of compiled code takes the environment and the words that it saves from the system. -/
theorem Calling.takes_entered {base : Machine} (hcall : Calling w base args fs r)
    (hproc : w.Good procedure) (hc : w.heap.callee? procedure = some c) (argc : Nat) :
    w.Takes (w.state.machine.entered c.code c.env? argc r) := by
  obtain ⟨hentry, b, hb, -⟩ := Heap.callee?_eq_some hc
  obtain ⟨hcode, i, p, -, -, -, henv⟩ := hproc.enterable hentry hb
  refine ⟨w.takes.val, hcode, w.takes.native, fun v hv => ?_, rfl, rfl, rfl⟩
  rw [slots_entered, List.mem_append] at hv
  rcases hv with hv | hv
  · generalize c.env? = env? at hv henv
    cases env? with
    | none => cases hv
    | some e =>
        obtain rfl := List.mem_singleton.1 hv
        split at henv <;> cases henv
        rename_i hkind _
        exact hkind.holds
  · simp only [List.cons_append, List.nil_append, List.mem_cons] at hv
    rcases hv with rfl | rfl | rfl | hv
    · exact holds_ofInt _ _
    · exact holds_ofInt _ _
    · exact hcall.holds
    · exact w.takes.slots v hv

theorem Calling.wellFormed_entered {base : Machine} (hcall : Calling w base args fs r)
    (hproc : w.Good procedure) (hc : w.heap.callee? procedure = some c) (argc pc : Nat) :
    State.WellFormed { w.state with
      machine := { w.state.machine.entered c.code c.env? argc r with pc } } none := by
  obtain ⟨w₁, hm⟩ := (hcall.takes_entered hproc hc argc).exists_moves
  have hw := w₁.wellFormed
  rw [hm.state] at hw
  exact ⟨hw.heap, hw.roots, fun _ hc => by cases hc⟩

/-- What a body begins with, but for the stack. -/
structure Callee.Arrived (c : Callee) (p : Proc) (args : List Value) (depth : Nat) (s : State) :
    Prop where
  code : s.machine.code = c.code
  pc : s.machine.pc = if c.arity.isVariadic then 1 else 0
  fp : s.machine.fp = c.arity.slots + depth + 3
  bytecode : ∃ b, s.heap.bytecode? c.code = some b ∧ b.arity = c.arity
  receives : c.arity.Receives s.heap args.reverse (p.collected args s.machine.val).reverse

variable {base : Machine} {p : Proc} {s₁ : State}

theorem Calling.arrived_atOnce (hcall : Calling w base args fs r)
    (hc : w.heap.callee? procedure = some c) (hof : w.heap.IsCodeOf c.code p)
    (hfixed : c.arity.isVariadic = false)
    (henter : enter procedure args.length r w.state = .ok () s') :
    c.Arrived p args (slotsOf fs base).length s' := by
  obtain ⟨-, hbytecode⟩ := Heap.callee?_eq_some hc
  obtain ⟨rfl, haccepts⟩ := Heap.entered_of_callee hc henter
  have hsize := congrArg List.length hcall.slots
  rw [Machine.length_slots, List.length_append] at hsize
  have hslots := Arity.slots_of_fixed hfixed haccepts
  have hleast := (Heap.fits_of_callee hc hof).least?_eq_none hfixed
  refine ⟨rfl, by rw [hfixed]; rfl, ?_, hbytecode, ?_⟩
  · rw [← hslots]
    simp [Machine.entered, hsize]
  · rw [Arity.Receives, hfixed, Proc.collected, hleast]
    rfl

theorem Calling.arrived_collecting (hcall : Calling w base args fs r) (hproc : w.Good procedure)
    (hc : w.heap.callee? procedure = some c) (hof : w.heap.IsCodeOf c.code p)
    (hvariadic : c.arity.isVariadic = true)
    (henter : enter procedure args.length r w.state = .ok () s₁) (hstep : step s₁ = .ok false s') :
    c.Arrived p args (slotsOf fs base).length s' := by
  obtain ⟨-, b, hb, harity⟩ := Heap.callee?_eq_some hc
  obtain ⟨rfl, haccepts⟩ := Heap.entered_of_callee hc henter
  obtain ⟨least, hleast, hrequired⟩ := (Heap.fits_of_callee hc hof).exists_least hvariadic
  obtain ⟨hle, hslotted⟩ := Arity.slots_of_variadic hvariadic haccepts
  rw [hof.step_entered hleast] at hstep
  have hw := hcall.wellFormed_entered hproc hc args.length 1
  obtain ⟨-, hlists, hkept, hcode, hpc, hfp⟩ :=
    collectRest_lists (ok_of_return hstep) hw (Machine.collects_entered hcall.slots 1)
  refine ⟨hcode, by rw [hvariadic]; exact hpc, ?_, ⟨b, ?_, harity⟩, ?_⟩
  · rw [hfp, hslotted, hrequired]
    omega
  · exact (Heap.bytecode?_congr hkept).trans hb
  · rw [Arity.Receives, hvariadic, Proc.collected, hleast, hrequired]
    refine ⟨s'.machine.val, ?_, ?_⟩
    · simp [List.take_reverse]
    · rw [hlists.items?, List.drop_reverse]

/-- Whatever is called, its body begins in a frame with the arguments on what was below them. -/
theorem Calling.begun (hcall : Calling w base args fs r) (hproc : w.Good procedure)
    (hc : w.heap.callee? procedure = some c) (h : Comes procedure args.length r w.state s') :
    c.Begun r (slotsOf fs base).reverse args.reverse s' := by
  obtain ⟨hentry, b, hb, harity⟩ := Heap.callee?_eq_some hc
  obtain ⟨i, p, -, -, -, hof, -⟩ := hproc.isCodeOf hentry hb
  obtain ⟨b', hb', -, hlength, hslots⟩ := h.slots hentry hof hcall.slots
  obtain rfl := Option.some.inj (hb.symm.trans hb')
  have hvariadic := Heap.isVariadic_of_callee hc
  have harrived : c.Arrived p args (slotsOf fs base).length s' := by
    cases h with
    | atOnce hfixed henter =>
        exact hcall.arrived_atOnce hc hof (hvariadic.symm.trans hfixed) henter
    | collecting hv henter hstep =>
        exact hcall.arrived_collecting hproc hc hof (hvariadic.symm.trans hv) henter hstep
  obtain ⟨b₁, hb₁, harity₁⟩ := harrived.bytecode
  have hframe : s'.machine.frame? (p.collected args s'.machine.val).length
      = some (r, (slotsOf fs base).length) := by
    refine Machine.frame?_of_slots (u := c.env?.toList) ?_ ?_ hcall.fits
    · rw [hslots, frameWords]
      simp [Return.words]
    · rw [harrived.fp, hlength, harity]
  refine ⟨harrived.code, harrived.pc, ?_, ?_, (p.collected args s'.machine.val).reverse,
    harrived.receives, ?_⟩
  · rw [State.frame?, harrived.code, hb₁, Option.bind_some, harity₁, ← harity, ← hlength, hframe,
      List.length_reverse]
  · rw [← Machine.length_slots, hslots, Callee.words, ← harity, ← hlength]
    simp [frameWords, Return.words]
    omega
  · rw [← List.reverse_reverse s'.machine.stack.toList, ← Machine.slots, hslots, frameWords]
    cases c.env? <;> simp

theorem bytecodeOf_of_some {s : State} {code : Value} {b : Bytecode}
    (hb : s.heap.bytecode? code = some b) : bytecodeOf code s = .ok b s := by
  unfold bytecodeOf
  rw [act_bind, act_gets]
  simp only [hb]
  rfl

/-- With room for the words that it pushes, a call of compiled code goes through. -/
theorem enterCode_of_room {s : State} {code : Value} {env? : Option Value} {b : Bytecode} {argc : Nat}
    (hb : s.heap.bytecode? code = some b) (haccepts : b.arity.accepts argc = true)
    (hroom : s.machine.stack.size + 3 + env?.toList.length ≤ s.machine.limit) :
    enterCode procedure code env? argc r s
      = .ok () { s with machine := s.machine.entered code env? argc r } := by
  have hpush {t : State} (v : Value) (hlt : t.machine.stack.size < t.machine.limit) :
      push v t = .ok () (t.withWords [v]) :=
    push_of_room (decide_eq_false (Nat.not_le.2 hlt))
  have h₁ := hpush (t := s) r.code (by omega)
  have h₂ := hpush (t := s.withWords [r.code]) (.ofInt r.pc) (by simp [State.withWords]; omega)
  rw [State.withWords_withWords] at h₂
  have h₃ := hpush (t := s.withWords ([r.code] ++ [.ofInt r.pc])) (.ofInt r.fp)
    (by simp [State.withWords]; omega)
  rw [State.withWords_withWords] at h₃
  have hframe : modifyMachine (fun m => { m with fp := m.stack.size })
      (s.withWords ([r.code] ++ [.ofInt r.pc] ++ [.ofInt r.fp])) = .ok () (s.framed r) := by
    simp [modifyMachine, act_modify, State.framed, State.withWords, Return.words]
  unfold enterCode
  rw [act_bind, bytecodeOf_of_some hb]
  simp only [act_bind, checkArity_of_accepts haccepts, h₁, h₂, h₃, hframe]
  rw [State.entered_eq_framed]
  cases env? with
  | none => simp [modifyMachine, act_modify]
  | some e =>
      have h₄ := hpush (t := s.framed r) e (by
        simp only [State.framed, State.withWords, Array.size_append, List.size_toArray]
        exact hroom)
      simp only [act_bind, h₄]
      simp [modifyMachine, act_modify, State.withWords]

/-- With room on the stack for its frame, whatever takes the call is entered; to collect arguments
there may be too few cells. -/
theorem Calling.enters (hcall : Calling w base args fs r) (hproc : w.Good procedure)
    (hc : w.heap.callee? procedure = some c) (haccepts : c.arity.accepts args.length = true)
    (hroom : (slotsOf fs base).length + c.room args.length ≤ w.state.machine.limit) :
    ∃ s₁, enter procedure args.length r w.state = .ok () s₁ ∧
      (c.arity.isVariadic = true → s₁.permits false = true ∧
        ((∃ s', step s₁ = .ok false s') ∨
          ∃ s', step s₁ = .error (.fatal .cellsExhausted) s')) := by
  obtain ⟨hentry, b, hb, harity⟩ := Heap.callee?_eq_some hc
  obtain ⟨i, p, -, -, -, hof, -⟩ := hproc.isCodeOf hentry hb
  have hsize := congrArg List.length hcall.slots
  rw [Machine.length_slots, List.length_append] at hsize
  unfold Callee.room at hroom
  refine ⟨{ w.state with machine := w.state.machine.entered c.code c.env? args.length r }, ?_, ?_⟩
  · rw [enter_eq_enterCode hentry]
    exact enterCode_of_room hb (harity ▸ haccepts) (by omega)
  intro hvariadic
  obtain ⟨least, hcollects, hrequired⟩ := (Heap.fits_of_callee hc hof).exists_least hvariadic
  obtain ⟨hle, hslotted⟩ := Arity.slots_of_variadic hvariadic haccepts
  have hins : w.heap.instr? c.code 0 = some ⟨.varargs, least, .nil⟩ := hof.instr?_zero hcollects
  refine ⟨?_, ?_⟩
  · unfold State.permits
    have hins' : w.state.heap.instr? (w.state.machine.entered c.code c.env? args.length r).code
      (w.state.machine.entered c.code c.env? args.length r).pc = _ := hins
    simp only [hins']
  have hleast : least ≤ args.length := hrequired ▸ hle
  have hends := collectRest_ends (hcall.wellFormed_entered hproc hc args.length 1)
    (Machine.collects_entered hcall.slots 1) hleast fun hnone => ?_
  · rw [hof.step_entered hcollects]
    simp only [act_bind]
    obtain ⟨t, ht⟩ | ⟨t, ht⟩ := hends
    · exact .inr ⟨t, by rw [ht]⟩
    · exact .inl ⟨t, by rw [ht]; rfl⟩
  · have hentered := congrArg List.length (slots_entered w.state.machine c.code c.env? args.length r)
    simp only [Machine.length_slots, List.length_append, List.length_cons, List.length_nil] at hentered
    change (w.state.machine.entered c.code c.env? args.length r).stack.size < w.state.machine.limit
    omega

end Calling

end CellLisp
