import CellLisp.Proofs.Reference.Environment

/-!
# `CellLisp.Proofs.Reference.Evaluation` — what a form comes to

`Evals σ (.form tail e) E t Q`: however the choices that are left open are made, the form `e` comes
to an end in the environment `E` and the state `t`, and `Q` says of how it ends.  Nothing is said
of a stack, of code, or of where an instruction stands.  Left open is

* where a closure, a continuation or a list of arguments is put: somewhere new;
* what becomes of what nothing leads to any more (`State.Drifts`).

| form | |
| :-- | :-- |
| constant | itself |
| variable | what its name stands for; the global value if it has one |
| assignment | another value for what the name stands for |
| branch | nil is false, and nothing else is |
| let | all initial forms, and then the body |
| dynamic let | one initial form and its binding after the other; undone at the end, and by exits |
| procedure | its code, or a closure with the values of the names that it copies |
| `with-cont` | the body; also what an exit to its continuation brings |
| `exit` | an exit, if the continuation is in force |
| loop | its parts over and over again |
| call | the arguments from the left, the operator, and then the procedure |

The procedures that are built in do what `Builtin.apply` does.
-/

namespace CellLisp

/-! ## What may become of a state by itself -/

/-- What the values `A` lead to is kept; beyond that cells may have been taken or given back. -/
structure State.Drifts (t : State) (A : List Value) (t' : State) : Prop where
  aside : t.Aside A t'
  store : t'.store = t'

/-- A cell that neither the state nor the values `A` lead to. -/
def State.Unseen (t : State) (A : List Value) (v : Value) : Prop :=
  t.heap.Unseen (t.anchors ++ A) v

/-- A closure has been made of code and copied values. -/
structure State.Encloses (t : State) (A : List Value) (code : Value) (copied : List Value)
    (f : Value) (t' : State) : Prop where
  drifts : t.Drifts A t'
  new : t.Unseen A f
  array : ∃ a, t'.heap.entry? f = some (code, some a) ∧ t.Unseen A a ∧
    ∀ i, t'.heap.item? a i = copied[i]?

/-- A continuation has been made. -/
structure State.Establishes (t : State) (A : List Value) (k : Value) (t' : State) : Prop where
  drifts : t.Drifts A t'
  new : t.Unseen A k
  record : (t'.heap.cont? k).isSome

namespace Reference

/-! ## How an evaluation ends -/

/-- How an evaluation ends. -/
inductive Outcome where
  | value (v : Value)
  /-- An exit to a continuation. -/
  | exit (cont v : Value)
  | error (cause : Error)

/-- What is to be of how an evaluation ends, of the variables and of the state. -/
abbrev Goal := Outcome → Env → State → Prop

namespace Goal

/-- A value is to be passed on to what comes next. -/
def after (Q : Goal) (P : Value → Env → State → Prop) : Goal
  | .value v, E, t => P v E t
  | o, E, t => Q o E t

/-- What has been made since there was `E₀` is gone at the end. -/
def cut (Q : Goal) (E₀ : Env) : Goal := fun o E t => Q o (E.cut E₀) t

/-- So are the newest `n` dynamic bindings; an exit leaves that to where it leads to, and an error
to the end of the run. -/
def undone (Q : Goal) (E₀ : Env) (n : Nat) : Goal
  | .value v, E, t => Q (.value v) (E.cut E₀) (t.unwound (t.machine.dyns.size - n))
  | o, E, t => Q o (E.cut E₀) t

/-- A value, or what an exit to the continuation `k` brings, is the value of `with-cont`, which
gives up its continuation; the exit undoes the dynamic bindings from a depth on. -/
def caught (Q : Goal) (σ : Self) (E₀ : Env) (depth : Nat) (k : Value) : Goal := fun o E t =>
  let arrives v t := ∀ t', State.Drifts t (v :: σ.keeps (E.cut E₀)) t' →
    Q (.value v) (E.cut E₀) t'
  match o with
  | .value v => arrives v t
  | .exit c v => if c = k then arrives v (t.unwound depth) else Q o (E.cut E₀) t
  | .error _ => Q o (E.cut E₀) t

/-- What a procedure ends with is what its call ends with. -/
def back (Q : Goal) (E : Env) : Goal := fun o _ t => Q o E t

end Goal

/-! ## Evaluation -/

/-- What is to be done. -/
inductive Task where
  /-- A form is to be evaluated. -/
  | form (tail : Bool) (e : Core)
  /-- So are parts one after the other, each with what comes after it. -/
  | parts (posts : List Post) (es : List Core)
  /-- The newest `n` operands are to be passed to a procedure. -/
  | enter (tail : Bool) (f : Value) (n : Nat)

/-- What comes after a part of a form, as far as it has a meaning. -/
def follow (v : Value) (E : Env) (t : State) : Post → Option (Env × State)
  | .next => some (E, t)
  | .push => some (E.push (.temp v), t)
  | .bind x => (t.heap.symbol? x).map fun r => (E.push (.dynamic x), t.bound x v r.value)

/-- What a global name ends with. -/
def globalOutcome (h : Heap) (x : Value) (value : Option Value) : Outcome :=
  match value with
  | some v => .value v
  | none => .error (.unbound (h.symbolName x))

/-- What a built-in procedure ends with, unless it finds a store full. -/
def nativeGoal (Q : Goal) (E : Env) : EStateM.Result Stop State Value → Prop
  | .ok v u => Q (.value v) E u.store
  | .error (.error cause) u => Q (.error cause) E u.store
  | .error (.fatal cause) _ => cause.IsExhaustion

/-- The procedure `p` has been called: its code, its copies, and who waits for it. -/
def Self.callee (σ : Self) (tail : Bool) (E : Env) (code : Value) (array : Option Value)
    (p : Lambda) : Self :=
  ⟨code, p.copies, array, σ.below tail E, σ.liveBelow tail E⟩

/-- The values of its parameters have been put together. -/
structure Lambda.Receives (p : Lambda) (t : State) (σ : Self) (args : List Value) (E : Env)
    (t' : State) : Prop where
  drifts : t.Drifts (args ++ σ.keeps .empty) t'
  /-- Those past the required ones are in a list of new pairs. -/
  bound : if p.rest.isSome
    then ∃ list, E = p.bound args list ∧ t.heap.Strung (t.anchors ++ (args ++ σ.keeps .empty))
      t'.heap list (args.drop p.fixed.length)
    else t' = t ∧ E = p.bound args .nil

/-- Value `v` is the procedure `p`, with its copies in an array if it has any. -/
structure Lambda.At (p : Lambda) (h : Heap) (v code : Value) (array : Option Value)
    (arity : Arity) : Prop where
  entry : h.entry? v = some (code, array)
  array : array.isSome = (p.copies.count != 0)
  carries : h.Carries code arity (p.proc code)
  arity : Comp.ArityFor arity p.fixed.length p.rest.isSome

/-- Whatever is left open, the task comes to an end of which `Q` is true. -/
inductive Evals : Self → Task → Env → State → Goal → Prop
  | const {σ E t Q tail v} : Q (.value v) E t → Evals σ (.form tail (.const v)) E t Q
  | refLocal {σ E t Q tail x inlined v} : σ.local? E t x = some v → Q (.value v) E t →
      Evals σ (.form tail (.ref x inlined)) E t Q
  | refInlined {σ E t Q tail x v} : σ.meant E x = .global → Q (.value v) E t →
      Evals σ (.form tail (.ref x (some v))) E t Q
  | refGlobal {σ E t Q tail x r} : σ.meant E x = .global → t.heap.symbol? x = some r →
      Q (globalOutcome t.heap x r.value) E t → Evals σ (.form tail (.ref x none)) E t Q
  | assign {σ E t Q tail x e} : Evals σ (.form false e) E t (Q.after fun v E t =>
        ∃ E' t', σ.assign? E t x v = some (E', t') ∧ Q (.value v) E' t') →
      Evals σ (.form tail (.assign x e)) E t Q
  | cond {σ E t Q P tail test yes no} : Evals σ (.form false test) E t (Q.after P) →
      (∀ v E t, P v E t → Evals σ (.form tail (if v.isNil then no else yes)) E t Q) →
      Evals σ (.form tail (.cond test yes no)) E t Q
  | seq {σ E t Q P tail init last} :
      Evals σ (.parts (init.map fun _ => .next) init) E t (Q.after P) →
      (∀ v E t, P v E t → Evals σ (.form tail last) E t Q) →
      Evals σ (.form tail (.seq init last)) E t Q
  | bind {σ E t Q P tail names inits body} : names.length = inits.length →
      Evals σ (.parts (names.map fun _ => .push) inits) E t ((Q.cut E).after P) →
      (∀ v E' t, P v E' t → Evals σ (.form tail body) (E'.name names) t (Q.cut E)) →
      Evals σ (.form tail (.bind names inits body)) E t Q
  | dynBind {σ E t Q P tail names inits body} : names.length = inits.length →
      Evals σ (.parts (names.map .bind) inits) E t ((Q.cut E).after P) →
      (∀ v E' t', P v E' t' → Evals σ (.form false body) E' t' (Q.undone E names.length)) →
      Evals σ (.form tail (.dynBind names inits body)) E t Q
  | lambda {σ E t Q tail code copies maker} : copies.count = 0 → Q (.value code) E t →
      Evals σ (.form tail (.lambda code copies maker)) E t Q
  | closure {σ E t Q tail code copies maker vs} : copies.count ≠ 0 →
      σ.copied? E t copies = some vs →
      (∀ f t', t.Encloses (code :: (vs ++ σ.keeps E)) code vs f t' → Q (.value f) E t') →
      Evals σ (.form tail (.lambda code copies maker)) E t Q
  | withCont {σ E t Q tail name body} :
      (∀ k t', t.Establishes (σ.keeps E) k t' →
        Evals σ (.form false body) (E.establish name k) t'
          (Q.caught σ E t.machine.dyns.size k)) →
      Evals σ (.form tail (.withCont name body)) E t Q
  | exit {σ E t Q tail name e} : Evals σ (.form false e) E t (Q.after fun v E t =>
        ∃ k, σ.cont? E t name = some k ∧ (t.heap.cont? k).isSome ∧
          (k ∈ σ.inForce E → Q (.exit k v) E t) ∧
          (k ∉ σ.inForce E → Q (.error .exitedCont) E t)) →
      Evals σ (.form tail (.exit name e)) E t Q
  | loop {σ E t Q P tail body} : Evals σ (.parts (body.map fun _ => .next) body) E t (Q.after P) →
      (∀ v E t, P v E t → Evals σ (.form tail (.loop body)) E t Q) →
      Evals σ (.form tail (.loop body)) E t Q
  | call {σ E t Q P R tail args operator} :
      Evals σ (.parts (args.map fun _ => .push) args) E t ((Q.cut E).after P) →
      (∀ v E' t, P v E' t → Evals σ (.form false operator) E' t ((Q.cut E).after R)) →
      (∀ f E' t, R f E' t → Evals σ (.enter tail f args.length) E' t (Q.cut E)) →
      Evals σ (.form tail (.call args operator)) E t Q
  | done {σ E t Q posts} : Q (.value .nil) E t → Evals σ (.parts posts []) E t Q
  | part {σ E t Q P post posts e es} : Evals σ (.form false e) E t (Q.after P) →
      (∀ v E t, P v E t → (follow v E t post).isSome) →
      (∀ v E t E' t', P v E t → follow v E t post = some (E', t') →
        Evals σ (.parts posts es) E' t' Q) →
      Evals σ (.parts (post :: posts) (e :: es)) E t Q
  | enterCode {σ E t Q tail f n code array arity} {p : Lambda} : p.At t.heap f code array arity →
      arity.accepts n = true →
      (∀ E' t', p.Receives t (σ.callee tail (E.drop n) code array p) (E.operands n).reverse E' t' →
        Evals (σ.callee tail (E.drop n) code array p) (.form true p.body) E' t' (Q.back E)) →
      Evals σ (.enter tail f n) E t Q
  | enterWrong {σ E t Q tail f n code array arity} {p : Lambda} : p.At t.heap f code array arity →
      arity.accepts n = false → Q (.error (.arity (t.heap.procName f) arity n)) E t →
      Evals σ (.enter tail f n) E t Q
  | enterNative {σ E t Q tail i n r} : t.heap.cell i = .native r → r.procedure.isTame false = true →
      r.arity.accepts n = true →
      (∀ u : State, u.store = t → u.WellFormed none →
        E.operands n ++ σ.below tail (E.drop n) ++ σ.liveBelow tail (E.drop n) ⊆ u.rootValues →
        nativeGoal Q E (Builtin.apply r.procedure (E.operands n).reverse u)) →
      Evals σ (.enter tail (.ref .native i) n) E t Q
  | nativeWrong {σ E t Q tail i n r} : t.heap.cell i = .native r → r.procedure.isTame false = true →
      r.arity.accepts n = false →
      Q (.error (.arity (t.heap.symbolName r.name) r.arity n)) E t →
      Evals σ (.enter tail (.ref .native i) n) E t Q
  | notProcedure {σ E t Q tail f n} : f.isProcedure = false →
      Q (.error (.notProcedure (t.heap.print f))) E t → Evals σ (.enter tail f n) E t Q

end Reference
end CellLisp
