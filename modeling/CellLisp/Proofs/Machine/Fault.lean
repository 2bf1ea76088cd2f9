import CellLisp.Machine.Step
import CellLisp.Proofs.Machine.Call
import CellLisp.Proofs.State.Placing

/-!
# `CellLisp.Proofs.Machine.Fault` — what a failing instruction leaves behind

`Breaks act s P` says that an action that fails with an error from `s` leaves a state that `P`
admits.  Most instructions fail before they have changed anything; calls do not:

| | |
| :-- | :-- |
| `breaks_execute` | any other instruction has changed nothing but the value register |
| `breaks_enterCode` | a call of compiled code may have pushed some of the words it saves (`Stranded`) |
| `breaks_callNative` | a built-in procedure has gone back to where it was called |
| `breaks_enter` | a call is turned down, stranded, or fails in a built-in procedure (`Balked`) |
-/

namespace CellLisp

/-! ## Actions that fail -/

/-- Where an action fails with an error, it leaves a state that `P` admits. -/
def Breaks {α : Type} (act : Act α) (s : State) (P : State → Prop) : Prop :=
  ∀ cause s', act s = .error (.error cause) s' → P s'

theorem Looks.breaks {α : Type} {act : Act α} {s : State} {Q : α → Prop} (h : Looks act s Q) :
    Breaks act s (· = s) := by
  intro cause t ht
  unfold Looks at h
  rw [ht] at h
  exact h

theorem Leads.breaks {α : Type} {R : System → System → Prop} {act : Act α} {w : System}
    {Q : α → System → Prop} (h : Leads R act w Q) :
    Breaks act w.state fun s' => ∃ w' : System, w'.state = s' ∧ R w w' := by
  intro cause t ht
  unfold Leads at h
  rw [ht] at h
  exact h

namespace Breaks

section

variable {α β : Type} {s : State} {P P' : State → Prop} {act x : Act α} {f : α → Act β}

theorem mono (h : Breaks act s P) (hp : ∀ t, P t → P' t) : Breaks act s P' :=
  fun cause t ht => hp t (h cause t ht)

theorem pure {a : α} : Breaks (pure a) s P := fun _ _ h => by cases h

theorem halt {cause : Fatal} : Breaks (CellLisp.halt cause : Act α) s P := fun _ _ h => by cases h

theorem fail {cause : Error} (hp : P s) : Breaks (CellLisp.fail cause : Act α) s P := by
  intro _ t h
  obtain ⟨-, rfl⟩ := EStateM.Result.error.inj h
  exact hp

theorem gets {g : State → α} : Breaks (CellLisp.gets g) s P := fun _ _ h => by cases h

theorem modify {g : State → State} : Breaks (modify g) s P := fun _ _ h => by cases h

theorem bind (hx : Breaks x s P) (hf : ∀ a t, x s = .ok a t → Breaks (f a) t P) :
    Breaks (x >>= f) s P := by
  intro cause s' h
  rw [act_bind] at h
  cases hact : x s with
  | ok a t =>
      rw [hact] at h
      exact hf a t hact cause s' h
  | error c t =>
      rw [hact] at h
      obtain ⟨rfl, rfl⟩ := EStateM.Result.error.inj h
      exact hx cause t hact

theorem bindOk {a : α} {t : State} (hx : x s = .ok a t) (h : Breaks (f a) t P) :
    Breaks (x >>= f) s P := by
  intro cause s' hs
  rw [act_bind, hx] at hs
  exact h cause s' hs

theorem bindGets {g : State → α} (h : Breaks (f (g s)) s P) : Breaks (CellLisp.gets g >>= f) s P := by
  refine .bind .gets fun a t ht => ?_
  obtain ⟨rfl, rfl⟩ := EStateM.Result.ok.inj ht
  exact h

theorem bindMachine {g : Machine → Machine} {f : Unit → Act β}
    (h : Breaks (f ()) { s with machine := g s.machine } P) :
    Breaks (modifyMachine g >>= f) s P := by
  refine .bind .modify fun a t ht => ?_
  obtain ⟨-, rfl⟩ := EStateM.Result.ok.inj ht
  exact h

/-- What an action that only looks leaves to break. -/
theorem bindLooks {Q : α → Prop} (hx : Looks x s Q) (hp : P s) (hf : ∀ a, Q a → Breaks (f a) s P) :
    Breaks (x >>= f) s P := by
  refine .bind (hx.breaks.mono fun t ht => ht ▸ hp) fun a t ht => ?_
  obtain ⟨rfl, hq⟩ := hx.of_ok ht
  exact hf a hq

/-- A check. -/
theorem check {c : Prop} [Decidable c] {cause : Error} (hp : c → P s) (h : ¬c → Breaks act s P) :
    Breaks (do
      if c then CellLisp.fail cause
      act) s P := by
  dsimp only
  split
  · rename_i hc
    exact .bind (.fail (hp hc)) fun _ _ h => by cases h
  · rename_i hc
    exact h hc

/-- A check that stops for good. -/
theorem checkFatal {c : Prop} [Decidable c] {cause : Fatal} (h : ¬c → Breaks act s P) :
    Breaks (do
      if c then CellLisp.halt cause
      act) s P := by
  dsimp only
  split
  · exact .bind .halt fun _ _ h => by cases h
  · rename_i hc
    exact h hc

theorem bindRequire {g : State → Option α} (hf : ∀ a, g s = some a → Breaks (f a) s P) :
    Breaks (do
      let x ← CellLisp.gets g
      let a ← require x
      f a) s P := by
  refine .bindGets ?_
  cases hg : g s with
  | none => exact .bind .halt fun _ _ h => by cases h
  | some a => exact hf a hg

end

end Breaks

/-- An action that fails with no error. -/
def Unfailing {α : Type} (act : Act α) : Prop := ∀ s, Breaks act s fun _ => False

namespace Unfailing

section

variable {α β : Type} {s : State} {P : State → Prop} {act x : Act α} {f : α → Act β}

theorem breaks (h : Unfailing act) : Breaks act s P := (h s).mono fun _ => False.elim

theorem pure {a : α} : Unfailing (pure a) := fun _ => .pure

theorem halt {cause : Fatal} : Unfailing (CellLisp.halt cause : Act α) := fun _ => .halt

theorem gets {g : State → α} : Unfailing (CellLisp.gets g) := fun _ => .gets

theorem modify {g : State → State} : Unfailing (modify g) := fun _ => .modify

theorem modifyGet {g : State → α × State} : Unfailing (modifyGet g : Act α) := fun _ _ _ h => by cases h

theorem bind (hx : Unfailing x) (hf : ∀ a, Unfailing (f a)) : Unfailing (x >>= f) :=
  fun s => .bind (hx s) fun a t _ => hf a t

end

end Unfailing

section Stores

theorem unfailing_require {α : Type} (a? : Option α) : Unfailing (require a?) := by
  cases a? with
  | none => exact .halt
  | some a => exact .pure

theorem unfailing_bytecodeOf (v : Value) : Unfailing (bytecodeOf v) := by
  refine .bind .gets fun b? => ?_
  cases b? with
  | none => exact .halt
  | some b => exact .pure

theorem unfailing_currentFrame : Unfailing currentFrame :=
  .bind .gets fun _ => .bind (unfailing_bytecodeOf _) fun _ => .bind .gets fun _ => unfailing_require _

theorem unfailing_exhausted {α : Type} (what : String) (cause : Fatal) :
    Unfailing (exhausted what cause : Act α) := .bind .modify fun _ => .halt

theorem unfailing_allocCell (c : Cell) : Unfailing (allocCell c) := by
  intro s cause s' h
  rw [allocCell_eq, placeCell_eq] at h
  split at h <;> cases h

theorem unfailing_makeArray (items : Array Value) : Unfailing (makeArray items) := by
  have hclaim : Unfailing (claimBlock (8 * items.size)) := .modifyGet
  have hblock : Unfailing (allocBlock (8 * items.size)) := by
    refine .bind hclaim fun block => ?_
    cases block with
    | some b => exact .pure
    | none =>
        refine .bind .modify fun _ => .bind hclaim fun block => ?_
        cases block with
        | some b => exact .pure
        | none => exact unfailing_exhausted _ _
  refine .bind (.bind hblock fun b => .bind .modify fun _ => .pure) fun b => ?_
  exact unfailing_allocCell _

theorem unfailing_consArgs (first n : Nat) : Unfailing (consArgs first n) := by
  induction n with
  | zero => exact .pure
  | succ n ih =>
      unfold consArgs
      refine .bind .gets fun v? => .bind ?_ fun v => .bind .gets fun rest => ?_
      · cases v? with
        | none => exact .halt
        | some v => exact .pure
      · exact .bind (unfailing_allocCell _) fun _ => .bind .modify fun _ => ih

theorem unfailing_dropConts (depth : Nat) : Unfailing (dropConts depth) :=
  .bind .gets fun _ => .bind .modify fun _ => .modify

theorem unfailing_unwindFrom (depth n : Nat) : Unfailing (unwindFrom depth n) := by
  induction n with
  | zero => exact .pure
  | succ n ih =>
      unfold unwindFrom
      refine .bind (fun _ _ _ h => by cases h) fun s => ?_
      split
      · split
        · exact .bind .modify fun _ => .bind .modify fun _ => ih
        · exact .pure
      · exact .pure

theorem unfailing_unwind (depth : Nat) : Unfailing (unwind depth) :=
  .bind .gets fun _ => unfailing_unwindFrom depth _

end Stores

/-! ## Instructions other than calls -/

section Instructions

variable {s : State} {P : State → Prop}

theorem breaks_typeError {α : Type} (expected : Expected) (v : Value) :
    Breaks (typeError expected v : Act α) s (· = s) := .bindGets (.fail rfl)

theorem breaks_push (v : Value) : Breaks (push v) s (· = s) :=
  .bindGets (.check (fun _ => rfl) fun _ => .modify)

theorem looks_require {α : Type} (a? : Option α) : Looks (require a?) s fun _ => True := by
  cases a? with
  | none => exact .halt _
  | some a => exact .pure trivial

theorem looks_operandSymbol (v : Value) : Looks (operandSymbol v) s fun _ => True :=
  .bind (.gets trivial) fun _ (_ : True) => looks_require _

theorem looks_envSlot (offset index : Nat) : Looks (envSlot offset index) s fun _ => True := by
  unfold envSlot
  refine .bind (.gets trivial) fun env? (_ : True) => .bind (looks_require env?) fun env _ => ?_
  refine .bind (.gets trivial) fun data? (_ : True) => ?_
  split
  · refine .bind (.gets trivial) fun size (_ : True) => ?_
    split
    · exact .pure trivial
    · exact looks_typeError _ _
  · exact looks_typeError _ _

theorem looks_envRef (offset index : Nat) : Looks (envRef offset index) s fun _ => True :=
  .bind (looks_envSlot _ _) fun _ _ => .gets trivial

theorem breaks_exitTo (target value : Value) : Breaks (exitTo target value) s (· = s) := by
  unfold exitTo
  refine .bindGets ?_
  split
  · exact breaks_typeError _ _
  · refine .check (fun _ => rfl) fun _ => .bindGets (.check (fun _ => rfl) fun _ => ?_)
    exact .bind (unfailing_dropConts _).breaks fun _ _ _ =>
      .bind (unfailing_unwind _).breaks fun _ _ _ => .modify

/-- The state with another value in the value register. -/
def State.withVal (s : State) (val : Value) : State :=
  { s with machine := { s.machine with val } }

theorem breaks_collectRest (least : Nat) :
    Breaks (collectRest least) s fun s' => ∃ val, s' = s.withVal val := by
  unfold collectRest
  refine .bindGets (.checkFatal fun _ => .bindMachine ?_)
  cases s.machine.argc - least with
  | zero =>
      refine .bind .pure fun _ t ht => ?_
      obtain ⟨-, rfl⟩ := EStateM.Result.ok.inj ht
      exact .bindGets (.check (fun _ => ⟨_, rfl⟩) fun _ => .modify)
  | succ n =>
      refine .bind (unfailing_consArgs _ _).breaks fun _ t _ => .bindGets (.check (fun h => ?_) fun _ => .modify)
      simp at h

/-- An instruction other than a call that fails has changed nothing but the value register. -/
theorem breaks_execute {ins : Instr} (hcall : ins.op ≠ .call) (htail : ins.op ≠ .tailCall) :
    Breaks (execute ins) s fun s' => ∃ val, s' = s.withVal val := by
  have hstill {act : Act Bool} (h : Breaks act s (· = s)) :
      Breaks act s fun s' => ∃ val, s' = s.withVal val := h.mono fun t ht => ⟨s.machine.val, ht⟩
  have hdone {act : Act Unit} {u : State} {P : State → Prop} (h : Breaks act u P) :
      Breaks (do
        act
        return false) u P := .bind h fun _ _ _ => .pure
  unfold execute
  cases hop : ins.op with
  | call => exact absurd hop hcall
  | tailCall => exact absurd hop htail
  | halt => exact .pure
  | const => exact hdone .modify
  | push => exact hstill (.bindGets (hdone (breaks_push _)))
  | drop => exact .bindGets (.checkFatal fun _ => hdone .modify)
  | stackRef => exact .bindRequire fun _ _ => hdone .modify
  | stackSet => exact .bindGets (.checkFatal fun _ => hdone .modify)
  | envRef => exact hstill (.bindLooks (looks_envRef _ _) rfl fun _ _ => hdone .modify)
  | envSet =>
      exact hstill (.bindLooks (looks_envSlot _ _) rfl fun _ _ => .bindGets (hdone .modify))
  | globalRef =>
      refine hstill (.bindLooks (looks_operandSymbol ins.operand) rfl fun r _ => ?_)
      split
      · exact hdone .modify
      · exact .bindGets (hdone (.fail rfl))
  | globalSet => exact .bindGets (hdone .modify)
  | jump => exact hdone .modify
  | jumpIfFalse =>
      refine .bindGets ?_
      split
      · exact hdone .modify
      · exact .pure
  | ret =>
      exact hdone (.bind unfailing_currentFrame.breaks fun _ _ _ => .modify)
  | varargs => exact hdone (breaks_collectRest _)
  | makeArray =>
      refine hdone (.bindGets (.checkFatal fun _ => .bindGets ?_))
      exact .bind (unfailing_makeArray _).breaks fun _ _ _ => .modify
  | withCont =>
      refine hdone (.bindGets (.bind (unfailing_allocCell _).breaks fun _ _ _ => .modify))
  | popCont => exact .bindGets (hdone (unfailing_dropConts _).breaks)
  | contRef => exact .bindRequire fun _ _ => hdone .modify
  | exit => exact hstill (.bindRequire fun _ _ => .bindGets (hdone (breaks_exitTo _ _)))
  | envExit =>
      refine hstill (.bindLooks (looks_envRef _ _) rfl fun k _ => ?_)
      exact .bindGets (hdone (breaks_exitTo _ _))
  | dynBind =>
      refine .bindGets (hdone ?_)
      refine .bindRequire fun r _ => .bind .modify fun _ _ _ => .modify
  | dynUnbind =>
      exact .bindGets (.checkFatal fun _ => hdone (unfailing_unwind _).breaks)

end Instructions

/-! ## Calls of compiled code -/

section Calls

variable {s : State} {P : State → Prop} {procedure code : Value} {env : Option Value} {argc : Nat}
  {r : Return}

/-- The words that a call saves, the lowest first. -/
def Return.words (r : Return) : List Value := [r.code, .ofInt r.pc, .ofInt r.fp]

/-- The state with words on top of the operand stack. -/
def State.withWords (s : State) (words : List Value) : State :=
  { s with machine := { s.machine with stack := s.machine.stack ++ words.toArray } }

/-- The state in a new frame, of which only the words that a call saves have been pushed. -/
def State.framed (s : State) (r : Return) : State :=
  { s with machine := { (s.withWords r.words).machine with fp := s.machine.stack.size + 3 } }

/-- Where a call of compiled code leaves off for want of room. -/
inductive Stranded (s : State) (env : Option Value) (r : Return) : State → Prop
  /-- There is no room for another of the words to save. -/
  | saving {words : List Value} : words <+: r.words → words.length < 3 →
      s.machine.limit ≤ s.machine.stack.size + words.length →
        Stranded s env r (s.withWords words)
  /-- There is none for the environment, and the frame pointer is that of the new frame. -/
  | entered : env.isSome → s.machine.limit ≤ s.machine.stack.size + 3 →
      Stranded s env r (s.framed r)

theorem State.withWords_withWords (s : State) (us vs : List Value) :
    (s.withWords us).withWords vs = s.withWords (us ++ vs) := by
  simp [withWords]

theorem slots_withWords (s : State) (words : List Value) :
    (s.withWords words).machine.slots = words.reverse ++ s.machine.slots := by
  simp [State.withWords, Machine.slots]

theorem slots_framed (s : State) (r : Return) :
    (s.framed r).machine.slots = r.words.reverse ++ s.machine.slots := slots_withWords s r.words

theorem push_of_room {v : Value} (h : s.machine.isFull = false) :
    push v s = .ok () (s.withWords [v]) := by
  have hpushed : s.withWords [v] = { s with
      machine := { s.machine with stack := s.machine.stack.push v } } := by simp [State.withWords]
  rw [hpushed]
  unfold push
  rw [act_bind, act_gets]
  simp only [h]
  rfl

theorem Breaks.bindPush {β : Type} {v : Value} {f : Unit → Act β}
    (hfull : s.machine.limit ≤ s.machine.stack.size → P s)
    (h : Breaks (f ()) (s.withWords [v]) P) : Breaks (push v >>= f) s P := by
  cases hf : s.machine.isFull with
  | true =>
      have hp : P s := hfull (by simpa [Machine.isFull] using hf)
      refine .bind ((breaks_push v).mono fun t ht => ht ▸ hp) fun _ t ht => ?_
      have hno : push v s = .error (.error .stackExhausted) s := by
        unfold push
        rw [act_bind, act_gets]
        simp only [hf]
        rfl
      rw [hno] at ht
      cases ht
  | false =>
      intro cause s' hs
      rw [act_bind, push_of_room hf] at hs
      exact h cause s' hs

theorem checkArity_of_accepts {a : Arity} (haccepts : a.accepts argc = true)
    (name : Heap → String) : checkArity a argc name s = .ok () s := by
  unfold checkArity
  simp only [haccepts]
  rfl

theorem checkArity_of_refuses {a : Arity} (hrefuses : a.accepts argc = false)
    (name : Heap → String) :
    checkArity a argc name s = .error (.error (.arity (name s.heap) a argc)) s := by
  unfold checkArity
  simp only [hrefuses]
  rfl

/-- A call of compiled code fails because that does not take so many arguments, before anything has
changed, or for want of room. -/
theorem breaks_enterCode :
    Breaks (enterCode procedure code env argc r) s fun s' => ∃ b, s.heap.bytecode? code = some b ∧
      (b.arity.accepts argc = false ∧ s' = s ∨
        b.arity.accepts argc = true ∧ Stranded s env r s') := by
  unfold enterCode
  refine .bind (unfailing_bytecodeOf code).breaks fun b t ht => ?_
  obtain ⟨rfl, hb⟩ := (looks_bytecodeOf code).of_ok ht
  cases haccepts : b.arity.accepts argc with
  | false =>
      have hlooks := looks_checkArity (s := t) b.arity argc (·.procName procedure)
      refine .bind (hlooks.breaks.mono fun u hu => ⟨b, hb, .inl ⟨haccepts, hu⟩⟩) fun _ u hu => ?_
      obtain ⟨-, hyes⟩ := hlooks.of_ok hu
      rw [haccepts] at hyes
      cases hyes
  | true =>
      refine .bindOk (checkArity_of_accepts haccepts _) ?_
      refine Breaks.mono ?_ fun u hu => ⟨b, hb, .inr ⟨haccepts, hu⟩⟩
      have hsaving (words : List Value) (hw : words <+: r.words) (hlt : words.length < 3)
          (hfull : (t.withWords words).machine.limit ≤ (t.withWords words).machine.stack.size) :
          Stranded t env r (t.withWords words) :=
        .saving hw hlt (by simpa [State.withWords] using hfull)
      refine .bindPush (fun hfull => ?_) ?_
      · have hnone := hsaving [] List.nil_prefix (by simp)
          (by simpa [State.withWords] using hfull)
        simpa [State.withWords] using hnone
      refine .bindPush (hsaving [r.code] ⟨[.ofInt r.pc, .ofInt r.fp], rfl⟩ (by simp)) ?_
      rw [State.withWords_withWords]
      refine .bindPush (hsaving [r.code, .ofInt r.pc] ⟨[.ofInt r.fp], rfl⟩ (by simp)) ?_
      rw [State.withWords_withWords]
      refine .bindMachine ?_
      cases env with
      | none => exact .modify
      | some e =>
          refine .bindPush (fun hfull => ?_) .modify
          have hentered : Stranded t (some e) r (t.framed r) :=
            .entered rfl (by simpa [State.withWords] using hfull)
          simpa [State.framed, State.withWords, Return.words] using hentered

end Calls

/-! ## Calls of any procedure -/

/-- Code and environment that a procedure is entered with, unless it is built in. -/
def Heap.entry? (h : Heap) : Value → Option (Value × Option Value)
  | .ref .bytecode i => some (.ref .bytecode i, none)
  | .ref .closure i =>
    match h.cell i with
    | .closure code env => some (code, some env)
    | _ => none
  | _ => none

/-- Whether a call of a value with so many arguments goes through to a procedure.  A built-in one
checks its arguments itself. -/
def Heap.enters (h : Heap) (procedure : Value) (argc : Nat) : Bool :=
  match procedure with
  | .ref .native _ => true
  | v =>
    match h.entry? v with
    | some (code, _) => (h.bytecode? code).any (·.arity.accepts argc)
    | none => false

section Enters

variable {h : Heap} {procedure code : Value} {env : Option Value} {argc : Nat}

theorem Heap.enters_of_entry (he : h.entry? procedure = some (code, env)) :
    h.enters procedure argc = (h.bytecode? code).any (·.arity.accepts argc) := by
  unfold enters
  split
  · cases he
  · rw [he]

theorem Heap.enters_of_no_entry (he : h.entry? procedure = none)
    (hnative : ∀ i, procedure ≠ .ref .native i) : h.enters procedure argc = false := by
  unfold enters
  split
  · exact absurd rfl (hnative _)
  · rw [he]

end Enters

/-- Where a call that fails leaves off. -/
inductive Balked (s : State) (procedure : Value) (argc : Nat) (r : Return) : State → Prop
  /-- What is called takes no such call. -/
  | turnedDown : s.heap.enters procedure argc = false → Balked s procedure argc r s
  /-- There is no room for the new frame. -/
  | crowded {code : Value} {env : Option Value} {s' : State} :
      s.heap.entry? procedure = some (code, env) → s.heap.enters procedure argc = true →
        Stranded s env r s' → Balked s procedure argc r s'
  /-- A built-in procedure fails, where it was called from. -/
  | builtIn {s' : State} {native : Option Value} : s.heap.enters procedure argc = true →
      s'.known = s.known → s'.machine = { s.machine.resume r with native } →
        Balked s procedure argc r s'

section Procedures

variable {w : System} {base : Machine} {fs : List Frame} {r : Return} {args : List Value}
  {procedure : Value}

theorem System.Takes.exists_moves {u : Machine} (h : w.Takes u) : ∃ w', w.Moves w' u :=
  ⟨w.withMachine u h.admits, rfl, rfl⟩

variable (mode : Mode) (d : Nat)

/-- A built-in procedure that fails has gone back to where it was called. -/
theorem breaks_callNative (hcall : Calling w base args fs r) (hproc : w.heap.Holds procedure)
    (happly : ∀ i n w', procedure.cell? = some i → w.heap.cell i = .native n →
      w.Moves w' (w.state.machine.serving procedure r) →
      Leads (Stable mode.rigid d) (Builtin.apply n.procedure args.reverse) w' fun v u => u.Good v) :
    Breaks (callNative procedure args.length r) w.state fun s' =>
      s'.known = w.state.known ∧ ∃ native, s'.machine = { w.state.machine.resume r with native } := by
  unfold callNative
  refine .bindMachine (.bindGets ?_)
  split
  · rename_i n hn
    obtain ⟨i, hi, hcell⟩ := Option.map_eq_some_iff.1 hn
    refine .bindLooks (looks_checkArity n.arity args.length _) ⟨rfl, _, rfl⟩ fun _ _ => ?_
    refine .bindGets (.checkFatal fun _ => .bindGets (.bindMachine ?_))
    have htakes : w.Takes (w.state.machine.serving procedure r) := by
      refine { w.takes with code := hcall.holds, native := fun p hp => ?_ }
      obtain rfl := Option.some.inj hp
      exact hproc
    obtain ⟨w', hm⟩ := htakes.exists_moves
    have hargs : (w.state.machine.stack.extract (w.state.machine.stack.size - args.length)
        w.state.machine.stack.size).toList = args.reverse := by
      have hsize := congrArg List.length hcall.slots
      rw [Machine.length_slots, List.length_append] at hsize
      rw [show w.state.machine.stack.size - args.length = (slotsOf fs base).length by omega]
      exact Machine.extract_of_reverse hcall.slots
    have hbreaks := (happly i n w' hi hcell hm).breaks
    rw [hm.state, ← hargs] at hbreaks
    refine .bind (hbreaks.mono ?_) fun _ _ _ => .modify
    rintro s' ⟨w'', rfl, hstable⟩
    exact ⟨hstable.known.trans hm.known, _, (hstable.machine rfl).trans hm.machine⟩
  · exact .bindGets (.fail ⟨rfl, _, rfl⟩)

/-- A call of any procedure. -/
theorem breaks_enter (hcall : Calling w base args fs r) (hproc : w.heap.Holds procedure)
    (happly : ∀ i n w', procedure.cell? = some i → w.heap.cell i = .native n →
      w.Moves w' (w.state.machine.serving procedure r) →
      Leads (Stable mode.rigid d) (Builtin.apply n.procedure args.reverse) w' fun v u => u.Good v) :
    Breaks (enter procedure args.length r) w.state (Balked w.state procedure args.length r) := by
  have hcode {code : Value} {env : Option Value}
      (hentry : w.heap.entry? procedure = some (code, env)) :
      Breaks (enterCode procedure code env args.length r) w.state
        (Balked w.state procedure args.length r) := by
    refine breaks_enterCode.mono fun s' hs => ?_
    obtain ⟨b, hb, ⟨hno, rfl⟩ | ⟨haccepts, hstranded⟩⟩ := hs
    · refine .turnedDown ((Heap.enters_of_entry hentry).trans ?_)
      rw [show w.state.heap.bytecode? code = some b from hb, Option.any_some, hno]
    · refine .crowded hentry ((Heap.enters_of_entry hentry).trans ?_) hstranded
      rw [show w.state.heap.bytecode? code = some b from hb, Option.any_some, haccepts]
  unfold enter
  split
  · exact hcode rfl
  · rename_i i
    refine .bindGets ?_
    split
    · rename_i code env hc
      exact hcode (by simp only [Heap.entry?, hc])
    · rename_i hc
      exact .bindGets (.fail (.turnedDown (Heap.enters_of_no_entry (by simp only [Heap.entry?]) nofun)))
  · refine (breaks_callNative mode d hcall hproc happly).mono fun s' hs => ?_
    obtain ⟨hknown, native, hmachine⟩ := hs
    exact .builtIn rfl hknown hmachine
  · rename_i hbytecode hclosure hnative
    refine .bindGets (.fail (.turnedDown (Heap.enters_of_no_entry ?_ hnative)))
    unfold Heap.entry?
    split
    · exact absurd rfl (hbytecode _)
    · exact absurd rfl (hclosure _)
    · rfl

end Procedures

end CellLisp
