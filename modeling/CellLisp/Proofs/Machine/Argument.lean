import CellLisp.Proofs.Machine.Fault
import CellLisp.Proofs.Machine.OneShot
import CellLisp.Session
import CellLisp.Proofs.Machine.Loading

namespace CellLisp

/-! ## Names of words -/

/-- Names of the words that an entry stands for. -/
def Entry.names : Entry → List (Option Value)
  | .var x => [some x]
  | .env | .temp => [none]
  | .frame => [none, none, none]
  | .dynamic _ => []

/-- A variable is found at the first word of its name. -/
theorem Scope.findEntry_eq_idxOf {x : Value} {es : List Entry} {offset k : Nat}
    (h : findEntry x offset es = some (.stack k)) :
    some x ∈ es.flatMap Entry.names ∧ k = offset + (es.flatMap Entry.names).idxOf (some x) := by
  induction es generalizing offset with
  | nil => cases h
  | cons e es ih =>
      cases e with
      | var y =>
          by_cases hy : y = x
          · subst hy
            simp only [findEntry, if_true, Option.some.injEq, VarPlace.stack.injEq] at h
            simp [Entry.names, h]
          · simp only [findEntry, if_neg hy] at h
            obtain ⟨hmem, hk⟩ := ih h
            refine ⟨List.mem_append_right _ hmem, ?_⟩
            simp only [List.flatMap_cons, Entry.names]
            rw [List.idxOf_append_of_notMem (by simpa using Ne.symm hy), hk, List.length_singleton]
            omega
      | env | temp | frame =>
          simp only [findEntry] at h
          obtain ⟨hmem, hk⟩ := ih h
          refine ⟨List.mem_append_right _ hmem, ?_⟩
          simp only [List.flatMap_cons, Entry.names]
          rw [List.idxOf_append_of_notMem (by simp), hk]
          simp only [List.length_cons, List.length_nil]
          omega
      | dynamic y =>
          by_cases hy : y = x
          · simp [findEntry, hy] at h
          · simp only [findEntry, if_neg hy] at h
            exact ih h

/-- Words of a frame between the arguments and the operands. -/
def Proc.saves (p : Proc) : Nat := if p.copies = 0 then 3 else 4

/-- Names of the arguments of a procedure, the last first. -/
def Proc.params (p : Proc) : List (Option Value) :=
  (p.scope.entries.flatMap Entry.names).drop p.saves

/-- The argument that a name stands for; the last argument is the first. -/
def Proc.argument (p : Proc) (args : List Value) (x : Value) : Option Value :=
  args[p.params.idxOf (some x)]?

section Params

variable {p : Proc} {a : Arity} {x : Value} {n offset : Nat}

/-- Below the operands of a frame only the arguments are values that programs may set. -/
theorem Proc.Fits.bounds_of_any (h : p.Fits a) (hn : p.fixed[n]? = some .any) :
    p.saves ≤ n ∧ n < p.saves + a.slots := by
  obtain ⟨args, hfixed, hargs⟩ := h.fixed
  have hle : args ≤ a.slots := by omega
  let above : List Kind :=
    (if p.copies = 0 then [] else [.env p.copies]) ++ [.saved, .saved, .saved]
  have hlength : above.length = p.saves := by
    simp only [above, Proc.saves]
    split <;> rfl
  rw [hfixed, frameKinds, ← List.append_assoc] at hn
  have hlt := (List.getElem?_eq_some_iff.1 hn).1
  rw [List.length_append, List.length_replicate, hlength] at hlt
  refine ⟨Nat.le_of_not_lt fun hfew => ?_, by omega⟩
  rw [List.getElem?_append_left (by rwa [hlength])] at hn
  have hmem : Kind.any ∈ above := List.mem_of_getElem? hn
  simp only [above] at hmem
  split at hmem <;> simp at hmem

theorem Scope.findEntry_of_resolve {s : Scope} (h : s.resolve x = .stack offset) :
    findEntry x 0 s.entries = some (.stack offset) := by
  unfold resolve at h
  split at h
  · rename_i hfound
    rw [hfound, h]
  · split at h
    · cases h
    · split at h <;> cases h

/-- A variable that lies on the stack when the body of a procedure begins is an argument. -/
theorem Proc.Fits.offset_eq (h : p.Fits a) (hx : p.scope.resolve x = .stack offset) :
    p.params.idxOf (some x) < a.slots ∧ offset = p.saves + p.params.idxOf (some x) := by
  obtain ⟨hmem, hoffset⟩ := Scope.findEntry_eq_idxOf (Scope.findEntry_of_resolve hx)
  rw [Nat.zero_add] at hoffset
  obtain ⟨hle, hlt⟩ := h.bounds_of_any ((Proc.coherent_ctx h.conts []).stack hx)
  have hnot : some x ∉ (p.scope.entries.flatMap Entry.names).take p.saves := by
    rw [List.mem_take_iff_idxOf_lt hmem]
    omega
  have hlength := List.idxOf_lt_length_of_mem hmem
  rw [← hoffset] at hlength
  have hsplit : (p.scope.entries.flatMap Entry.names).take p.saves ++ p.params
      = p.scope.entries.flatMap Entry.names := List.take_append_drop _ _
  rw [← hsplit, List.idxOf_append_of_notMem hnot, List.length_take] at hoffset
  omega

end Params

/-! ## Words of a new frame -/

/-- The words of a frame when its body begins, the top first. -/
def frameWords (env : Option Value) (r : Return) (args : List Value) : List Value :=
  env.toList ++ (r.words.reverse ++ args)

section Reads

variable {p : Proc} {a : Arity} {m : Machine} {x env : Value} {offset : Nat} {r : Return}
  {args below : List Value}

/-- Code that is called by itself reads its arguments if it copies nothing. -/
theorem Proc.Fits.reads_code (h : p.Fits a) (hcopies : p.copies = 0)
    (hx : p.scope.resolve x = .stack offset) (hargs : args.length = a.slots)
    (hslots : m.slots = frameWords none r args ++ below) :
    m.top? offset = p.argument args x := by
  obtain ⟨hlt, rfl⟩ := h.offset_eq hx
  rw [Machine.top?_eq, hslots, Proc.saves, if_pos hcopies, Proc.argument]
  have hskip : frameWords none r args ++ below = r.words.reverse ++ (args ++ below) := by
    simp [frameWords]
  rw [hskip, List.getElem?_append_right (Nat.le_add_right 3 _)]
  change (args ++ below)[3 + _ - 3]? = _
  rw [Nat.add_sub_cancel_left, List.getElem?_append_left (by omega)]

/-- Code that is called with an environment reads its arguments if it copies something; otherwise
each is taken for the one before, and the code to return to for the last. -/
theorem Proc.Fits.reads_closure (h : p.Fits a) (hx : p.scope.resolve x = .stack offset)
    (hargs : args.length = a.slots) (hslots : m.slots = frameWords (some env) r args ++ below) :
    m.top? offset = p.argument (if p.copies = 0 then r.code :: args else args) x := by
  obtain ⟨hlt, rfl⟩ := h.offset_eq hx
  have hwords : m.slots = [env, .ofInt r.fp, .ofInt r.pc] ++ ((r.code :: args) ++ below) := by
    rw [hslots]
    simp [frameWords, Return.words]
  rw [Machine.top?_eq, hwords, Proc.saves, Proc.argument]
  by_cases hcopies : p.copies = 0
  · rw [if_pos hcopies, if_pos hcopies, List.getElem?_append_right (Nat.le_add_right 3 _)]
    change (r.code :: args ++ below)[3 + _ - 3]? = _
    rw [Nat.add_sub_cancel_left, List.getElem?_append_left]
    rw [List.length_cons]
    omega
  · rw [if_neg hcopies, if_neg hcopies, List.getElem?_append_right (by simp; omega)]
    change (r.code :: args ++ below)[4 + _ - 3]? = _
    rw [show 4 + p.params.idxOf (some x) - 3 = p.params.idxOf (some x) + 1 by omega,
      List.cons_append, List.getElem?_cons_succ, List.getElem?_append_left (by omega)]

end Reads

/-! ## Calls -/

section Calls

variable {s s' : State} {procedure code : Value} {env : Option Value} {argc least : Nat}
  {r : Return} {args below : List Value}

theorem push_ok {v : Value} (h : push v s = .ok () s') : s' = s.withWords [v] := by
  cases hfull : s.machine.isFull with
  | true =>
      unfold push at h
      rw [act_bind, act_gets] at h
      simp only [hfull] at h
      cases h
  | false =>
      rw [push_of_room hfull] at h
      exact (EStateM.Result.ok.inj h).2.symm

theorem State.entered_eq_framed (s : State) (code : Value) (env : Option Value) (argc : Nat)
    (r : Return) :
    { s with machine := s.machine.entered code env argc r }
      = { s.framed r with machine := { (s.framed r).machine with
            stack := (s.framed r).machine.stack ++ env.toArray, code, pc := 0, argc } } := by
  have hstack : s.machine.stack ++ r.words.toArray
      = ((s.machine.stack.push r.code).push (.ofInt r.pc)).push (.ofInt r.fp) :=
    Array.ext' (by simp [Return.words])
  simp only [State.framed, State.withWords, Machine.entered, hstack, Array.size_push]

/-- What a call of compiled code leads to. -/
theorem enterCode_ok (h : enterCode procedure code env argc r s = .ok () s') :
    s' = { s with machine := s.machine.entered code env argc r } ∧
      ∃ b, s.heap.bytecode? code = some b ∧ b.arity.accepts argc = true := by
  unfold enterCode at h
  obtain ⟨b, s₁, hbytecode, h₁⟩ := exists_of_bind_eq_ok h
  obtain ⟨hs₁, hb⟩ := (looks_bytecodeOf code).of_ok hbytecode
  subst hs₁
  obtain ⟨⟨⟩, s₂, harity, h₂⟩ := exists_of_bind_eq_ok h₁
  obtain ⟨hs₂, haccepts⟩ := (looks_checkArity b.arity argc _).of_ok harity
  subst hs₂
  obtain ⟨⟨⟩, s₃, hpush₃, h₃⟩ := exists_of_bind_eq_ok h₂
  obtain ⟨⟨⟩, s₄, hpush₄, h₄⟩ := exists_of_bind_eq_ok h₃
  obtain ⟨⟨⟩, s₅, hpush₅, h₅⟩ := exists_of_bind_eq_ok h₄
  have hsaved : s₅ = s₂.withWords r.words := by
    rw [push_ok hpush₅, push_ok hpush₄, push_ok hpush₃, State.withWords_withWords,
      State.withWords_withWords]
    rfl
  subst hsaved
  obtain ⟨⟨⟩, s₆, hmove, h₆⟩ := exists_of_bind_eq_ok h₅
  have hframed : s₆ = s₂.framed r := by
    rw [← (EStateM.Result.ok.inj hmove).2]
    simp [State.framed, State.withWords, Return.words]
  subst hframed
  refine ⟨?_, b, hb, haccepts⟩
  rw [State.entered_eq_framed]
  cases env with
  | none =>
      rw [← (EStateM.Result.ok.inj h₆).2]
      simp
  | some e =>
      obtain ⟨⟨⟩, s₇, hpush₇, h₇⟩ := exists_of_bind_eq_ok h₆
      rw [← (EStateM.Result.ok.inj h₇).2, push_ok hpush₇]
      simp [State.withWords]

theorem allocCell_ok {c : Cell} {v : Value} (h : allocCell c s = .ok v s') :
    s'.machine = s.machine := by
  rw [allocCell_eq, placeCell_eq] at h
  have hready : (s.ready c).machine = s.machine := by
    unfold State.ready
    split <;> rfl
  split at h
  · rw [← (EStateM.Result.ok.inj h).2]
    exact hready
  · cases h

/-- Putting arguments in a list changes nothing of the machine but the value register. -/
theorem consArgs_ok {first n : Nat} (h : consArgs first n s = .ok () s') :
    ∃ val, s'.machine = { s.machine with val } := by
  induction n generalizing s with
  | zero =>
      obtain ⟨-, rfl⟩ := EStateM.Result.ok.inj h
      exact ⟨_, rfl⟩
  | succ n ih =>
      unfold consArgs at h
      rw [act_bind, act_gets] at h
      obtain ⟨v, s₁, hv, h₁⟩ := exists_of_bind_eq_ok h
      obtain ⟨hs₁, -⟩ := (looks_require _).of_ok hv
      subst hs₁
      rw [act_bind, act_gets] at h₁
      obtain ⟨list, s₂, hcons, h₂⟩ := exists_of_bind_eq_ok h₁
      obtain ⟨⟨⟩, s₃, hset, h₃⟩ := exists_of_bind_eq_ok h₂
      obtain ⟨val, hval⟩ := ih h₃
      have hmachine : s₃.machine = { s₁.machine with val := list } := by
        rw [← (EStateM.Result.ok.inj hset).2, ← allocCell_ok hcons]
      exact ⟨val, by rw [hval, hmachine]⟩

/-- To collect arguments past the required ones is to put them in a list, and that in their place. -/
theorem exists_consArgs_of_collectRest (h : collectRest least s = .ok () s') :
    least ≤ s.machine.argc ∧ ∃ s₁,
      consArgs (s.machine.fp - 3 - (s.machine.argc - least)) (s.machine.argc - least)
        (s.withVal .nil) = .ok () s₁ ∧
      s' = { s₁ with
        machine := s₁.machine.replaceRest (s.machine.fp - 3 - (s.machine.argc - least))
          s₁.machine.val } := by
  unfold collectRest at h
  rw [act_bind, act_gets] at h
  simp only at h
  split at h
  · cases h
  rename_i hchecks
  simp only [Bool.or_eq_true, decide_eq_true_eq, not_or] at hchecks
  obtain ⟨⟨⟩, s₁, hset, h₁⟩ := exists_of_bind_eq_ok h
  obtain ⟨⟨⟩, s₂, hcons, h₂⟩ := exists_of_bind_eq_ok h₁
  have hnil : s₁ = s.withVal .nil := (EStateM.Result.ok.inj hset).2.symm
  subst hnil
  refine ⟨by omega, s₂, hcons, ?_⟩
  rw [act_bind, act_gets] at h₂
  simp only at h₂
  split at h₂
  · cases h₂
  · exact (EStateM.Result.ok.inj h₂).2.symm

/-- The arguments of a call lie below the words that it has saved, and those are below the frame
pointer. -/
structure Machine.Collects (m : Machine) (above args lower : List Value) : Prop where
  slots : m.slots = above ++ (args ++ lower)
  argc : m.argc = args.length
  fp : m.fp = (args ++ lower).length + 3

/-- Collecting the arguments past the required ones leaves them in one list. -/
theorem collectRest_ok {above args lower : List Value} (h : collectRest least s = .ok () s')
    (hcollects : s.machine.Collects above args lower) :
    s'.machine.slots
      = above ++ (s'.machine.val :: args.drop (args.length - least) ++ lower) := by
  obtain ⟨hslots, hargc, hfp⟩ := hcollects
  obtain ⟨hleast, s₁, hcons, rfl⟩ := exists_consArgs_of_collectRest h
  rw [hargc] at hleast
  obtain ⟨val, hmachine⟩ := consArgs_ok hcons
  -- the arguments past the required ones lie above the others
  have hparted : s.machine.slots = above ++ (args.take (args.length - least) ++
      (args.drop (args.length - least) ++ lower)) := by
    rw [hslots, ← List.append_assoc (args.take _), List.take_append_drop]
  have hlower : s.machine.fp - 3 - (s.machine.argc - least)
      = (args.drop (args.length - least) ++ lower).length := by
    rw [List.length_append] at hfp
    rw [List.length_append, List.length_drop]
    omega
  have hslots₁ : s₁.machine.slots = _ := (congrArg Machine.slots hmachine).trans hparted
  have hfp₁ : s₁.machine.fp - 3 = (args.take (args.length - least) ++
      (args.drop (args.length - least) ++ lower)).length := by
    rw [← List.append_assoc, List.take_append_drop, hmachine]
    exact Nat.sub_eq_of_eq_add hfp
  rw [hlower]
  exact slots_replaceRest hslots₁ hfp₁

/-- A value that is called is code, or a closure of it and an environment. -/
theorem enter_eq_enterCode (he : s.heap.entry? procedure = some (code, env)) :
    enter procedure argc r s = enterCode procedure code env argc r s := by
  unfold Heap.entry? at he
  split at he
  · obtain ⟨rfl, rfl⟩ := Prod.mk.inj (Option.some.inj he)
    rfl
  · split at he
    · rename_i hcell
      obtain ⟨rfl, rfl⟩ := Prod.mk.inj (Option.some.inj he)
      simp only [enter]
      rw [act_bind, act_gets]
      simp only [hcell]
    · cases he
  · cases he

/-- Whether a value is code, or a closure of it, that takes any number of arguments. -/
def Heap.isVariadic (h : Heap) (v : Value) : Bool :=
  ((h.entry? v).bind fun e => h.bytecode? e.1).any (·.arity.isVariadic)

/-- A call comes to the body of what is called, with the arguments past the required ones in a list
if it takes any number of them. -/
inductive Comes (procedure : Value) (argc : Nat) (r : Return) (s : State) : State → Prop
  | atOnce {s' : State} : s.heap.isVariadic procedure = false →
      enter procedure argc r s = .ok () s' → Comes procedure argc r s s'
  | collecting {s₁ s' : State} : s.heap.isVariadic procedure = true →
      enter procedure argc r s = .ok () s₁ → step s₁ = .ok false s' → Comes procedure argc r s s'

end Calls

/-! ## Bodies -/

/-- The code is that of a procedure. -/
def Heap.IsCodeOf (h : Heap) (code : Value) (p : Proc) : Prop :=
  ∃ b, h.bytecode? code = some b ∧ p.Fits b.arity ∧ h.instrs b = p.instrs.toArray

/-- The arguments that the body of a procedure finds; those past the required ones are in a list. -/
def Proc.collected (p : Proc) (args : List Value) (rest : Value) : List Value :=
  match p.least? with
  | none => args
  | some least => rest :: args.drop (args.length - least)

section Arities

variable {a : Arity} {n : Nat}

theorem Arity.slots_of_fixed (h : a.isVariadic = false) (haccepts : a.accepts n = true) :
    n = a.slots := by
  have hcode : ¬ a.code < 0 := by simpa [isVariadic] using h
  simpa [accepts, slots, hcode] using haccepts

theorem Arity.slots_of_variadic (h : a.isVariadic = true) (haccepts : a.accepts n = true) :
    a.required ≤ n ∧ a.slots = a.required + 1 := by
  have hcode : a.code < 0 := by simpa [isVariadic] using h
  simpa [accepts, slots, hcode] using haccepts

/-- A procedure collects arguments just if its arity says so. -/
theorem Proc.Fits.exists_least {p : Proc} (h : p.Fits a) (hv : a.isVariadic = true) :
    ∃ least, p.least? = some least ∧ a.required = least := by
  cases hl : p.least? with
  | none => rw [h.exact hl] at hv; cases hv
  | some least => exact ⟨least, rfl, (h.least least hl).2⟩

theorem Proc.Fits.least?_eq_none {p : Proc} (h : p.Fits a) (hv : a.isVariadic = false) :
    p.least? = none := by
  cases hl : p.least? with
  | none => rfl
  | some n => rw [(h.least n hl).1] at hv; cases hv

end Arities

section Bodies

variable {s s₁ s' : State} {p : Proc} {b : Bytecode} {procedure code x env : Value}
  {env? : Option Value} {r : Return} {args below : List Value} {offset least : Nat}

theorem Heap.isVariadic_of_entry (hentry : s.heap.entry? procedure = some (code, env?))
    (hb : s.heap.bytecode? code = some b) :
    s.heap.isVariadic procedure = b.arity.isVariadic := by
  rw [isVariadic, hentry, Option.bind_some, hb, Option.any_some]

/-- The first instruction of a procedure that takes any number of arguments collects them. -/
theorem Heap.IsCodeOf.instr?_zero (h : s.heap.IsCodeOf code p) (hleast : p.least? = some least) :
    s.heap.instr? code 0 = some ⟨.varargs, least, .nil⟩ := by
  obtain ⟨b, hb, -, hinstrs⟩ := h
  unfold Heap.instr?
  simp only [hb, hinstrs]
  rw [List.getElem?_toArray, Proc.instrs, List.getElem?_map, Proc.sites_zero hleast]
  rfl

/-- A call leaves its arguments below the words that it saves. -/
theorem Machine.collects_entered {m : Machine} (hslots : m.slots = args ++ below) (pc : Nat) :
    Machine.Collects { m.entered code env? args.length r with pc } (env?.toList ++ r.words.reverse)
      args below := by
  refine ⟨?_, rfl, ?_⟩
  · have hentered := slots_entered m code env? args.length r
    rw [hslots, ← List.append_assoc] at hentered
    exact hentered
  · rw [← hslots, Machine.length_slots]
    simp [Machine.entered]

/-- The first step in a procedure that takes any number of arguments. -/
theorem Heap.IsCodeOf.step_entered (h : s.heap.IsCodeOf code p) (hleast : p.least? = some least)
    (argc : Nat) :
    step { s with machine := s.machine.entered code env? argc r } = (do
      collectRest least
      return false) { s with machine := { s.machine.entered code env? argc r with pc := 1 } } := by
  have hins : s.heap.instr? (s.machine.entered code env? argc r).code
      (s.machine.entered code env? argc r).pc = some ⟨.varargs, least, .nil⟩ :=
    h.instr?_zero hleast
  rw [step_eq hins]
  rfl

/-- What is on the stack when the body begins. -/
theorem Comes.slots (h : Comes procedure args.length r s s')
    (hentry : s.heap.entry? procedure = some (code, env?)) (hcode : s.heap.IsCodeOf code p)
    (hslots : s.machine.slots = args ++ below) :
    ∃ b, s.heap.bytecode? code = some b ∧ p.Fits b.arity ∧
      (p.collected args s'.machine.val).length = b.arity.slots ∧
        s'.machine.slots = frameWords env? r (p.collected args s'.machine.val) ++ below := by
  obtain ⟨b, hb, hfits, hinstrs⟩ := id hcode
  refine ⟨b, hb, hfits, ?_⟩
  cases h with
  | atOnce hfixed henter =>
      rw [enter_eq_enterCode hentry] at henter
      obtain ⟨hs', b', hb', haccepts⟩ := enterCode_ok henter
      obtain rfl := Option.some.inj (hb.symm.trans hb')
      rw [Heap.isVariadic_of_entry hentry hb] at hfixed
      have hleast := hfits.least?_eq_none hfixed
      have hcollected : p.collected args s'.machine.val = args := by
        simp only [Proc.collected, hleast]
      refine ⟨?_, ?_⟩
      · rw [hcollected]
        exact Arity.slots_of_fixed hfixed haccepts
      · rw [hcollected, hs']
        simp only [slots_entered, hslots, frameWords, Return.words]
        simp
  | @collecting s₁ _ hvariadic henter hstep =>
      rw [enter_eq_enterCode hentry] at henter
      obtain ⟨hs₁, b', hb', haccepts⟩ := enterCode_ok henter
      obtain rfl := Option.some.inj (hb.symm.trans hb')
      rw [Heap.isVariadic_of_entry hentry hb] at hvariadic
      obtain ⟨least, hleast, hrequired⟩ := hfits.exists_least hvariadic
      obtain ⟨hle, hslotted⟩ := Arity.slots_of_variadic hvariadic haccepts
      rw [hs₁, hcode.step_entered hleast] at hstep
      have hcollect := ok_of_return hstep
      have hcollected : p.collected args s'.machine.val
          = s'.machine.val :: args.drop (args.length - least) := by
        simp only [Proc.collected, hleast]
      refine ⟨?_, ?_⟩
      · rw [hcollected, hslotted, hrequired, List.length_cons, List.length_drop]
        omega
      · rw [collectRest_ok hcollect (Machine.collects_entered hslots 1), hcollected, frameWords]
        simp

/-- The body reads its arguments, if code without copies is called by itself and code with copies
through a closure. -/
theorem Comes.reads_argument (h : Comes procedure args.length r s s')
    (hentry : s.heap.entry? procedure = some (code, env?)) (hcode : s.heap.IsCodeOf code p)
    (hjoined : env?.isSome = true ↔ p.copies ≠ 0) (hslots : s.machine.slots = args ++ below)
    (hx : p.scope.resolve x = .stack offset) :
    s'.machine.top? offset = p.argument (p.collected args s'.machine.val) x := by
  obtain ⟨b, -, hfits, hlength, hwords⟩ := h.slots hentry hcode hslots
  cases env? with
  | none =>
      have hcopies : p.copies = 0 := by simpa using hjoined
      exact hfits.reads_code hcopies hx hlength hwords
  | some env =>
      have hcopies : p.copies ≠ 0 := hjoined.1 rfl
      have hreads := hfits.reads_closure hx hlength hwords
      rwa [if_neg hcopies] at hreads

/-- A closure of code without copies reads the neighbour of each argument, and the code to return to
for the last one. -/
theorem Comes.reads_neighbour (h : Comes procedure args.length r s s')
    (hentry : s.heap.entry? procedure = some (code, some env)) (hcode : s.heap.IsCodeOf code p)
    (hcopies : p.copies = 0) (hslots : s.machine.slots = args ++ below)
    (hx : p.scope.resolve x = .stack offset) :
    s'.machine.top? offset = p.argument (r.code :: p.collected args s'.machine.val) x := by
  obtain ⟨b, -, hfits, hlength, hwords⟩ := h.slots hentry hcode hslots
  have hreads := hfits.reads_closure hx hlength hwords
  rwa [if_pos hcopies] at hreads

end Bodies

/-! ## Procedures that programs may hold -/

section Holding

variable {w : System} {t s' : State} {v code x : Value} {env? : Option Value} {r : Return}
  {args below : List Value} {offset : Nat} {b : Bytecode}

theorem System.Good.enterable (hv : w.Good v) (hentry : w.heap.entry? v = some (code, env?))
    (hb : w.heap.bytecode? code = some b) : Enterable w code env? := by
  unfold Heap.entry? at hentry
  split at hentry
  · obtain ⟨rfl, rfl⟩ := Prod.mk.inj (Option.some.inj hentry)
    obtain ⟨j, hj, -⟩ := Heap.exists_of_bytecode? hb
    obtain ⟨tag, he, hne⟩ := Value.cell?_eq_some_iff.1 hj
    obtain ⟨rfl, rfl⟩ := Value.ref.inj he
    obtain ⟨p, hp, hcopies⟩ := hv.proper.code _ rfl hne
    refine ⟨hv.holds, _, p, rfl, hne, hp, ?_⟩
    rw [if_pos hcopies]
    exact .nil
  · split at hentry
    · rename_i hcell
      obtain ⟨rfl, rfl⟩ := Prod.mk.inj (Option.some.inj hentry)
      exact enterable_closure hcell
    · cases hentry
  · cases hentry

theorem Comes.exists_bytecode (h : Comes v args.length r t s')
    (hentry : t.heap.entry? v = some (code, env?)) : ∃ b, t.heap.bytecode? code = some b := by
  cases h with
  | atOnce _ henter | collecting _ henter _ =>
      rw [enter_eq_enterCode hentry] at henter
      obtain ⟨-, b, hb, -⟩ := enterCode_ok henter
      exact ⟨b, hb⟩

/-- What the call of a value that programs may hold comes to is the code of a procedure, under an
environment just if that copies something. -/
theorem System.Good.isCodeOf (hv : w.Good v) (hentry : w.heap.entry? v = some (code, env?))
    (hb : w.heap.bytecode? code = some b) :
    ∃ i p, code = .ref .bytecode i ∧ i ≠ 0 ∧ w.plans i = some (.done p) ∧
      w.heap.IsCodeOf code p ∧ (env?.isSome = true ↔ p.copies ≠ 0) := by
  obtain ⟨-, i, p, rfl, hi, hp, henv⟩ := hv.enterable hentry hb
  obtain ⟨_, hj, hcell⟩ := Heap.exists_of_bytecode? hb
  rw [Value.cell?_eq_some_iff.2 ⟨_, rfl, hi⟩] at hj
  obtain rfl := Option.some.inj hj
  obtain ⟨hfits, hinstrs⟩ := System.code_of_plan hp hcell
  refine ⟨i, p, rfl, hi, hp, ⟨b, hb, hfits, hinstrs⟩, ?_⟩
  have hlength := henv.length_eq
  split at hlength <;> cases env? <;> simp_all

/-- The body of a procedure that programs may hold reads its arguments. -/
theorem System.Good.reads_argument (hv : w.Good v) (hheap : t.heap = w.heap)
    (hentry : w.heap.entry? v = some (code, env?)) (hslots : t.machine.slots = args ++ below)
    (h : Comes v args.length r t s') :
    ∃ i p, code = .ref .bytecode i ∧ w.plans i = some (.done p) ∧
      ∀ x offset, p.scope.resolve x = .stack offset →
        s'.machine.top? offset = p.argument (p.collected args s'.machine.val) x := by
  rw [← hheap] at hentry
  obtain ⟨b, hb⟩ := h.exists_bytecode hentry
  rw [hheap] at hb
  obtain ⟨i, p, hcode, -, hp, hof, hjoined⟩ := hv.isCodeOf (by rw [← hheap]; exact hentry) hb
  refine ⟨i, p, hcode, hp, fun x offset hx => ?_⟩
  rw [← hheap] at hof
  exact h.reads_argument hentry hof hjoined hslots hx

end Holding

/-! ## Variables of a frame -/

section Variables

variable {w : System} {base : Machine} {f : Frame} {fs : List Frame} {i k n j : Nat} {s : Site}

/-- A value that an instruction may set is no word that the call of the frame has saved. -/
theorem Poised.exists_place (h : Poised w base f fs i s)
    (hk : (s.shape.ops ++ f.proc.fixed)[k]? = some .any) :
    ∃ b place, w.heap.bytecode? w.state.machine.code = some b ∧
      place + k + 1 = w.state.machine.stack.size ∧
        w.state.machine.fp ≤ place + 3 + b.arity.slots ∧
          (place + 3 < w.state.machine.fp ∨ w.state.machine.fp ≤ place) := by
  obtain ⟨b, hb, hargs⟩ := h.full
  have hfits := h.frame.fitting hb
  have hcode : w.state.machine.code = .ref .bytecode f.cell := h.frame.code
  have hfp : w.state.machine.fp = f.args.length + (slotsOf fs base).length + 3 := h.frame.fp
  have hops := h.frame.length_ops
  rw [h.shape] at hops
  have henv : f.env.length + 3 = f.proc.saves := by
    have hlength := h.frame.env.length_eq
    rw [hlength, Proc.saves]
    split <;> rfl
  have hsize := congrArg List.length h.shows.slots
  rw [slotsOf_cons] at hsize
  simp only [Machine.length_slots, List.length_append, Frame.below, Frame.saved, List.length_cons,
    List.length_nil] at hsize
  refine ⟨b, w.state.machine.stack.size - 1 - k, ?_, ?_⟩
  · rw [hcode]
    exact Heap.bytecode?_ref h.frame.pos hb
  · rcases Nat.lt_or_ge k s.shape.ops.length with hlt | hge
    · omega
    · rw [List.getElem?_append_right hge] at hk
      have hbounds := hfits.bounds_of_any hk
      omega

/-- A copy that an instruction refers to is in the array of the environment. -/
theorem Poised.exists_copy (h : Poised w base f fs i s) (ha : Addressable w)
    (hk : (s.shape.ops ++ f.proc.fixed)[k]? = some (.env n)) (hj : j < n) :
    ∃ env block, w.state.machine.top? k = some env ∧ w.heap.array? env = some block ∧
      (Value.ofInt j).word < (w.heap.payload block).items.size := by
  obtain ⟨env, htop, -, c, block, rfl, hc, hcell, hsize⟩ := h.exists_top hk nofun
  refine ⟨_, block, htop, ?_, ?_⟩
  · unfold Heap.array?
    simp only [Value.object?, hcell]
  · have hroom : w.heap.arena.capacity block ≤ 8 * w.heap.arena.limit :=
      w.typed.heap.wf.capacity_le block
    have hfits : (w.heap.payload block).size ≤ w.heap.arena.capacity block :=
      w.typed.heap.fits c block (by rw [hcell]; rfl)
    have hlimit := ha.words
    have hwords : 8 * (w.heap.payload block).items.size ≤ (w.heap.payload block).size := by
      cases w.heap.payload block <;> simp [Payload.items, Payload.size]
    rw [Value.word_ofInt] <;> omega

end Variables

/-- An instruction that refers to a variable of the frame. -/
def Opcode.accesses : Opcode → Bool
  | .stackRef | .stackSet | .envRef | .envSet => true
  | _ => false

/-- Where an instruction finds variables. -/
structure System.FindsVariables (w : System) (ins : Instr) : Prop where
  /-- The body of what is called, with whatever arguments, reads them. -/
  arguments : ins.op = .call ∨ ins.op = .tailCall → ∀ (code : Value) (env? : Option Value)
    (t s' : State) (args below : List Value) (r : Return),
      w.heap.entry? w.state.machine.val = some (code, env?) → t.heap = w.heap →
        t.machine.slots = args ++ below → Comes w.state.machine.val args.length r t s' →
          ∃ i p, code = .ref .bytecode i ∧ w.plans i = some (.done p) ∧
            ∀ x offset, p.scope.resolve x = .stack offset →
              s'.machine.top? offset = p.argument (p.collected args s'.machine.val) x
  /-- A variable on the stack is in the frame at work, and no word that its call has saved. -/
  place : ins.op = .stackRef ∨ ins.op = .stackSet →
    ∃ b place, w.heap.bytecode? w.state.machine.code = some b ∧
      place + ins.modifier + 1 = w.state.machine.stack.size ∧
        w.state.machine.fp ≤ place + 3 + b.arity.slots ∧
          (place + 3 < w.state.machine.fp ∨ w.state.machine.fp ≤ place)
  /-- A copy is in the array of the environment. -/
  copy : ins.op = .envRef ∨ ins.op = .envSet ∨ ins.op = .envExit →
    ∃ env block, w.state.machine.top? ins.modifier = some env ∧
      w.heap.array? env = some block ∧
        ins.operand.word < (w.heap.payload block).items.size
  /-- It does not fail to find them. -/
  goesOn : ins.op.accesses = true → ∃ s', step w.state = .ok false s'

section Accesses

variable {w w₁ : System} {s : State} {base : Machine} {pile : List Frame} {f : Frame}
  {fs : List Frame} {i offset index : Nat} {site : Site} {ins : Instr} {env : Value} {block : Block}

theorem envSlot_ok (htop : s.machine.top? offset = some env)
    (harray : s.heap.array? env = some block) (hlt : index < (s.heap.payload block).items.size) :
    envSlot offset index s = .ok (block, index) s := by
  simp [envSlot, act_bind, act_gets, htop, harray, hlt, require, pure, EStateM.pure]

theorem exists_execute_of_place (place : Nat) (hop : ins.op = .stackRef ∨ ins.op = .stackSet)
    (hplace : place + ins.modifier + 1 = s.machine.stack.size) :
    ∃ s', execute ins s = .ok false s' := by
  have hlt : ins.modifier < s.machine.stack.size := by omega
  have htop : ∃ v, s.machine.top? ins.modifier = some v := by
    rw [Machine.top?_eq]
    exact ⟨_, List.getElem?_eq_getElem (by rwa [Machine.length_slots])⟩
  obtain ⟨v, hv⟩ := htop
  rcases hop with hop | hop
  · refine ⟨{ s with machine := { s.machine with val := v } }, ?_⟩
    simp only [execute, hop]
    simp [act_bind, act_gets, hv, require, pure, EStateM.pure, setVal, modifyMachine, act_modify]
  · refine ⟨{ s with machine := s.machine.setTop ins.modifier s.machine.val }, ?_⟩
    simp only [execute, hop]
    simp [act_bind, act_gets, Nat.not_le.2 hlt, pure, EStateM.pure, modifyMachine, act_modify]

theorem exists_execute_of_copy (hop : ins.op = .envRef ∨ ins.op = .envSet)
    (htop : s.machine.top? ins.modifier = some env) (harray : s.heap.array? env = some block)
    (hlt : ins.operand.word < (s.heap.payload block).items.size) :
    ∃ s', execute ins s = .ok false s' := by
  have hslot := envSlot_ok htop harray hlt
  rcases hop with hop | hop
  · refine ⟨{ s with machine := { s.machine with
      val := (s.heap.payload block).items.getD ins.operand.word .nil } }, ?_⟩
    simp only [execute, hop]
    simp [envRef, act_bind, act_gets, hslot, pure, EStateM.pure, setVal, modifyMachine, act_modify]
  · refine ⟨{ s with
      heap := s.heap.modifyPayload block (Builtin.setItem ins.operand.word s.machine.val) }, ?_⟩
    simp only [execute, hop]
    simp [act_bind, act_gets, hslot, pure, EStateM.pure, act_modifyHeap]

/-- Compiled code that is called is a value that programs may hold: the procedure that makes closures
is no code. -/
theorem Poised.good_of_entry {code : Value} {env? : Option Value} (h : Poised w base f fs i site)
    (hop : site.instr.op = .call ∨ site.instr.op = .tailCall)
    (hentry : w.heap.entry? w.state.machine.val = some (code, env?)) :
    w.Good w.state.machine.val := by
  have hsafe := h.safe
  unfold Site.Safe at hsafe
  have hval : site.shape.val = some .any ∨ site.shape.val = some .maker := by
    rcases hop with hop | hop <;> simp only [hop] at hsafe
    · exact hsafe.imp And.left And.left
    · exact .inl hsafe.1
  rcases hval with hany | hmaker
  · exact h.value _ hany
  · have hmaker : w.state.machine.val = w.state.known.makeClosure := h.value _ hmaker
    rw [hmaker] at hentry
    rcases w.typed.known.maker with hnil | ⟨j, _, hnative, -⟩
    · rw [hnil] at hentry
      cases hentry
    · rw [hnative] at hentry
      cases hentry

/-- An instruction finds variables where the compiler has said that they are. -/
theorem Poised.finds (h : Poised w₁ base f fs i site) (ha : Addressable w₁)
    (hm : w.Moves w₁ { w.state.machine with pc := i + 1 }) (hi : w.state.machine.pc = i)
    (hins : w.heap.instr? w.state.machine.code i = some site.instr) :
    w.FindsVariables site.instr := by
  have hsafe := h.frame.verified.safe i site h.site
  have hplace : site.instr.op = .stackRef ∨ site.instr.op = .stackSet →
      ∃ b place, w.heap.bytecode? w.state.machine.code = some b ∧
        place + site.instr.modifier + 1 = w.state.machine.stack.size ∧
          w.state.machine.fp ≤ place + 3 + b.arity.slots ∧
            (place + 3 < w.state.machine.fp ∨ w.state.machine.fp ≤ place) := by
    intro hop
    have hk : (site.shape.ops ++ f.proc.fixed)[site.instr.modifier]? = some .any := by
      rcases hop with hop | hop <;> simp only [Site.Safe, hop] at hsafe <;> exact hsafe.1
    have hplace := h.exists_place hk
    rwa [hm.heap, hm.machine] at hplace
  have hcopy : site.instr.op = .envRef ∨ site.instr.op = .envSet ∨ site.instr.op = .envExit →
      ∃ env block, w.state.machine.top? site.instr.modifier = some env ∧
        w.heap.array? env = some block ∧
          site.instr.operand.word < (w.heap.payload block).items.size := by
    intro hop
    obtain ⟨n, j, hk, hx, hj⟩ : ∃ n j : Nat,
        (site.shape.ops ++ f.proc.fixed)[site.instr.modifier]? = some (.env n) ∧
          site.instr.operand = .ofInt j ∧ j < n := by
      rcases hop with hop | hop | hop <;> simp only [Site.Safe, hop] at hsafe <;> exact hsafe.1
    have hcopy := h.exists_copy ha hk hj
    rwa [hm.heap, hm.machine, ← hx] at hcopy
  refine ⟨?_, hplace, hcopy, fun hop => ?_⟩
  · intro hop code env? t s' args below r hentry hheap hslots hcomes
    have hval : w₁.state.machine.val = w.state.machine.val := by rw [hm.machine]
    rw [← hm.heap] at hentry hheap
    have hgood : w₁.Good w.state.machine.val := hval ▸ h.good_of_entry hop (hval ▸ hentry)
    obtain ⟨j, p, hcode, hp, hreads⟩ := hgood.reads_argument hheap hentry hslots hcomes
    exact ⟨j, p, hcode, by rw [← hm.plans]; exact hp, hreads⟩
  · subst hi
    rw [step_eq hins, show w.state.atPc (w.state.machine.pc + 1) = w₁.state from hm.state.symm]
    cases hcase : site.instr.op with
    | stackRef | stackSet =>
        obtain ⟨-, place, -, hsize, -⟩ := hplace (by simp [hcase])
        refine exists_execute_of_place place (by simp [hcase]) ?_
        rw [hm.machine]
        exact hsize
    | envRef | envSet =>
        obtain ⟨env, block, htop, harray, hlt⟩ := hcopy (by simp [hcase])
        have htop₁ : w₁.state.machine.top? site.instr.modifier = some env := by
          rw [hm.machine]
          exact htop
        have hheap : w₁.state.heap = w.heap := hm.heap
        rw [← hheap] at harray hlt
        exact exists_execute_of_copy (by simp [hcase]) htop₁ harray hlt
    | _ =>
        rw [hcase] at hop
        cases hop

/-- An instruction that refers to no variable and calls nothing finds all of them. -/
theorem System.finds_of_op (hop : ins.op = .halt ∨ ins.op = .varargs) :
    w.FindsVariables ins := by
  constructor <;> rcases hop with hop | hop <;> simp [hop, Opcode.accesses]

/-- Whatever instruction comes next finds its variables. -/
theorem Stands.finds (h : Stands w base pile) (hhalts : w.Halts) (ha : Addressable w)
    (hins : w.heap.instr? w.state.machine.code w.state.machine.pc = some ins) :
    w.FindsVariables ins := by
  cases pile with
  | nil =>
      rcases h.exists_site hhalts hins with ⟨-, hop⟩ | ⟨_, _, _, he, -⟩
      · exact System.finds_of_op (.inl hop)
      · cases he
  | cons f fs =>
      rcases h with ⟨val?, hat⟩ | ⟨g, gs, he, hentering⟩
      · obtain ⟨site, hins', hpoised⟩ := hat.poised
        obtain rfl := Option.some.inj (hins'.symm.trans hins)
        have htakes : w.Takes { w.state.machine with pc := w.state.machine.pc + 1 } :=
          { w.takes with }
        obtain ⟨w₁, hm⟩ := htakes.exists_moves
        exact (hpoised w₁ hm).finds (ha.moved hm rfl) hm rfl hins
      · obtain ⟨rfl, rfl⟩ := List.cons.inj he
        obtain ⟨least, -, hsite⟩ := hentering.exists_least
        have hvarargs := hentering.frame.instr? hsite
        rw [← hentering.pc] at hvarargs
        obtain rfl := Option.some.inj (hvarargs.symm.trans hins)
        exact System.finds_of_op (.inr rfl)

end Accesses

section Runs

variable {o : System} {procedure : Value} {args : Array Value} {s : State} {ss : List State}
  {ins : Instr}

/-- As long as compiled code alone joins code to copies, what is called reads the arguments that it
is called with, and each variable of the procedure at work is in its frame or its environment. -/
theorem Run.findsVariables (h : Run procedure args o.state (s :: ss))
    (hl : Launch false o procedure args) (htame : ∀ u ∈ ss, u.permits false = true)
    (hins : s.heap.instr? s.machine.code s.machine.pc = some ins) :
    ∃ w, w.state = s ∧ Stable { machine := false, pairs := false } o.state.roots.size o.launched w ∧
      w.FindsVariables ins := by
  obtain ⟨w, pile, rfl, hstands, hhalts, ha, hstable⟩ := h.exists_stands hl (Nat.le_refl _) htame
  exact ⟨w, rfl, hstable, hstands.finds hhalts ha hins⟩

/-- The procedure that is called with another one reads that, and then calls it. -/
theorem Run.findsVariables_nested :
    ∃ (o : System) (procedure : Value) (args : Array Value) (s t : State),
      Run procedure args o.state [s, t] ∧
        (∃ w : System, w.state = t ∧ w.FindsVariables ⟨.stackRef, 3, .nil⟩) ∧
          ∃ w : System, w.state = s ∧ w.FindsVariables ⟨.call, 0, .nil⟩ := by
  let nexts (s : State) (ss : List State) : Bool :=
    (s :: ss).map (fun u => u.heap.instr? u.machine.code u.machine.pc)
      == [some ⟨.call, 0, .nil⟩, some ⟨.stackRef, 3, .nil⟩]
  obtain ⟨o, procedure, args, s, ss, hlaunch, hrun, htame, hnexts⟩ :=
    exists_run_loadCalls false 1 nexts (by decide +kernel)
  simp only [nexts, beq_iff_eq, List.map_cons, List.cons.injEq] at hnexts
  obtain ⟨hcall, hrest⟩ := hnexts
  obtain ⟨t, rfl⟩ : ∃ t, ss = [t] :=
    List.length_eq_one_iff.1 (by simpa using congrArg List.length hrest)
  have href : t.heap.instr? t.machine.code t.machine.pc = some ⟨.stackRef, 3, .nil⟩ := by
    simpa using hrest
  have hbefore : Run procedure args o.state [t] :=
    Run.of_append (show Run procedure args o.state ([s] ++ [t]) from hrun) (List.cons_ne_nil _ _)
  obtain ⟨w, hw, -, hfinds⟩ := Run.findsVariables hbefore hlaunch
    (fun _ hu => absurd hu List.not_mem_nil) href
  obtain ⟨w', hw', -, hfinds'⟩ := Run.findsVariables hrun hlaunch
    (fun u hu => htame u (List.mem_cons_of_mem _ hu)) hcall
  exact ⟨o, procedure, args, s, t, hrun, ⟨w, hw, hfinds⟩, w', hw', hfinds'⟩

end Runs

/-! ## Closures that programs build -/

/-- Starts a system with the built-in procedures that it takes to join code to an array. -/
def bootJoining : Act Unit := do
  internKnown
  register "make-closure" .makeClosure ⟨2⟩
  register "make-array" .makeArray ⟨-2⟩
  makeHalt

/-- A state with room for it. -/
def State.joining : State :=
  .initial { cells := 80, payloadBytes := 1536, stackSize := 16, lowWater := 0, symbolBuckets := 1 }
    { input := [], output := .empty, log := #[], files := [] }

/-- A closure that a program builds of a procedure that copies nothing reads the second argument for
the first. -/
theorem evalText_reads_neighbour :
    ∃ s s', bootJoining State.joining = .ok () s ∧
      evalText "((make-closure (named-lambda f (a b) a) (make-array 0)) 1 2)" s
        = .ok (.int 2) s' := by
  have hfacts : (match bootJoining State.joining with
      | .error _ _ => false
      | .ok _ s =>
        match evalText "((make-closure (named-lambda f (a b) a) (make-array 0)) 1 2)" s with
        | .ok v _ => v == .int 2
        | .error _ _ => false) = true := by
    decide +kernel
  generalize bootJoining State.joining = booted at hfacts ⊢
  cases booted with
  | error => cases hfacts
  | ok _ s =>
      simp only at hfacts
      generalize heval : evalText _ s = evaluated at hfacts
      cases evaluated with
      | error => cases hfacts
      | ok v s' =>
          obtain rfl : v = .int 2 := eq_of_beq hfacts
          exact ⟨s, s', rfl, heval⟩

end CellLisp
