import CellLisp.Compile.Captures
import CellLisp.Proofs.Code.Site

/-!
# `CellLisp.Proofs.Code.Core` — forms after expansion, and their code

A `Core` is a form as the compiler understood it: expansions made, constants computed,
special forms told apart, the names of each binding form in a list.  Its code depends on
nothing else than the scope it stands in.

    gen      the code of a form, each instruction with what is known there
    Ok       the continuations that a form refers to are in scope

Code leaves operands, continuations and dynamic bindings as it found them, and its value in
the value register.  Parts of a form that are compiled one behind the other differ in what
comes after each: nothing, a push, or a dynamic binding (`Post`).
-/

namespace CellLisp

/-- A form after expansion. -/
inductive Core where
  | const (v : Value)
  /-- A variable, or the value of a constant that it names. -/
  | ref (x : Value) (inlined : Option Value)
  | assign (x : Value) (e : Core)
  | cond (test yes no : Core)
  /-- Forms in sequence, the last apart. -/
  | seq (init : List Core) (last : Core)
  | bind (names : List Value) (inits : List Core) (body : Core)
  | dynBind (names : List Value) (inits : List Core) (body : Core)
  /-- A procedure, compiled apart, with the names it copies and the procedure that joins them. -/
  | lambda (code : Value) (copies : Captures) (maker : Value)
  | withCont (name : Value) (body : Core)
  | exit (name : Value) (e : Core)
  | loop (body : List Core)
  | call (args : List Core) (operator : Core)
  deriving Inhabited

/-- What comes after a part of a form. -/
inductive Post where
  | next
  | push
  | bind (name : Value)
  deriving DecidableEq, Inhabited, Repr

/-- Instruction after a part. -/
def Post.instrs : Post → List Instr
  | .next => []
  | .push => [⟨.push, 0, .nil⟩]
  | .bind x => [⟨.dynBind, 0, x⟩]

/-- Operands that it leaves. -/
def Post.ops : Post → List Kind
  | .push => [.any]
  | _ => []

/-- Dynamic bindings that it leaves. -/
def Post.dyns : Post → Nat
  | .bind _ => 1
  | _ => 0

/-- What it does to the scope. -/
def Scope.post (s : Scope) : Post → Scope
  | .next => s
  | .push => s.push .temp
  | .bind x => s.push (.dynamic x)

/-- What parts one behind the other do to the scope. -/
def Scope.posts (s : Scope) (ps : List Post) : Scope := ps.foldl post s

/-- Instructions of a procedure that is joined to its copies. -/
def closureLength (copies : Nat) : Nat := if copies = 0 then 1 else 2 * copies + 6

mutual

/-- Number of instructions of a form. -/
def Core.length : Core → Nat
  | .const _ | .ref _ _ => 1
  | .assign _ e | .exit _ e => e.length + 1
  | .cond a b d => a.length + b.length + d.length + 2
  | .seq init last => Core.lengthOf (init.map fun _ => .next) init + last.length
  | .bind names inits body =>
    Core.lengthOf (names.map fun _ => .push) inits + body.length
      + if names.isEmpty then 0 else 1
  | .dynBind names inits body =>
    Core.lengthOf (names.map .bind) inits + body.length + if names.isEmpty then 0 else 1
  | .lambda _ copies _ => closureLength copies.count
  | .withCont _ body => body.length + 2
  | .loop body => Core.lengthOf (body.map fun _ => .next) body + 1
  | .call args operator => Core.lengthOf (args.map fun _ => .push) args + operator.length + 1

/-- Number of instructions of parts one behind the other. -/
def Core.lengthOf (posts : List Post) : List Core → Nat
  | [] => 0
  | e :: es =>
    match posts with
    | [] => 0
    | p :: posts => e.length + p.instrs.length + Core.lengthOf posts es

end

/-- Where a form is compiled: the scope, and the machine that will come there. -/
structure Ctx where
  /-- The compiler's scope. -/
  scope : Scope
  /-- Operands. -/
  ops : List Kind
  /-- Continuations of the procedure. -/
  labels : List Label
  /-- Dynamic bindings of the procedure. -/
  dyns : Nat

namespace Ctx

/-- The machine there, with a value in the value register. -/
def shape (c : Ctx) (val : Option Kind) : Shape := ⟨val, c.ops, c.labels, c.dyns⟩

/-- An instruction emitted there. -/
def site (c : Ctx) (val : Option Kind) (i : Instr) : Site :=
  ⟨i, c.scope, c.shape val, .any⟩

/-- An operand more. -/
def push (c : Ctx) (k : Kind) : Ctx := { c with scope := c.scope.push .temp, ops := k :: c.ops }

/-- The top operands become variables. -/
def nameTop (c : Ctx) (names : List Value) : Ctx := { c with scope := c.scope.nameTop names }

/-- What a part and what comes after it lead to. -/
def post (c : Ctx) (p : Post) : Ctx :=
  { c with
    scope := c.scope.post p
    ops := p.ops ++ c.ops
    dyns := c.dyns + p.dyns }

/-- What parts one behind the other lead to. -/
def posts (c : Ctx) (ps : List Post) : Ctx := ps.foldl post c

/-- A continuation more, which resumes at an instruction. -/
def establish (c : Ctx) (name : Value) (target : Nat) : Ctx :=
  { c with
    scope := { c.scope with conts := name :: c.scope.conts }
    labels := ⟨target, c.ops, c.dyns⟩ :: c.labels }

end Ctx

/-! ## References -/

/-- A reference to a variable. -/
def refInstr (s : Scope) (x : Value) (inlined : Option Value) : Instr :=
  match s.resolve x with
  | .stack offset => ⟨.stackRef, offset, .nil⟩
  | .env offset index => ⟨.envRef, offset, .ofInt index⟩
  | .global =>
    match inlined with
    | some v => ⟨.const, 0, v⟩
    | none => ⟨.globalRef, 0, x⟩

/-- An assignment to a variable. -/
def setInstr (s : Scope) (x : Value) : Instr :=
  match s.resolve x with
  | .stack offset => ⟨.stackSet, offset, .nil⟩
  | .env offset index => ⟨.envSet, offset, .ofInt index⟩
  | .global => ⟨.globalSet, 0, x⟩

/-- A reference to a continuation in scope. -/
def contInstr (s : Scope) (k : Value) : Instr :=
  match s.resolveCont k with
  | some (.stack offset) => ⟨.contRef, offset, .nil⟩
  | some (.env offset index) => ⟨.envRef, offset, .ofInt index⟩
  | none => ⟨.halt, 0, .nil⟩

/-- An exit to a continuation in scope. -/
def exitInstr (s : Scope) (k : Value) : Instr :=
  match s.resolveCont k with
  | some (.stack offset) => ⟨.exit, offset, .nil⟩
  | some (.env offset index) => ⟨.envExit, offset, .ofInt index⟩
  | none => ⟨.halt, 0, .nil⟩

/-! ## Procedures -/

/-- How each copy is fetched, continuations first. -/
def Captures.fetches (copies : Captures) : List (Scope → Instr) :=
  copies.conts.map (fun k s => contInstr s k) ++ copies.vars.map fun x s => refInstr s x none

/-- Fetches copies and pushes them. -/
def genFetches (c : Ctx) : List (Scope → Instr) → List Site
  | [] => []
  | f :: fs =>
    c.site none (f c.scope) :: c.site (some .any) ⟨.push, 0, .nil⟩ :: genFetches (c.push .any) fs

/-- Joins compiled code to its copies. -/
def genJoin (c : Ctx) (code : Value) (copies : Captures) (maker : Value) : List Site :=
  let inner := c.push (.code copies.count)
  let joined := inner.push (.env copies.count)
  (c.site none ⟨.const, 0, code⟩).giving (.code copies.count) ::
    c.site (some (.code copies.count)) ⟨.push, 0, .nil⟩ ::
    (genFetches inner copies.fetches ++
      [(inner.posts (copies.fetches.map fun _ => .push)).site none ⟨.makeArray, copies.count, .nil⟩,
        inner.site (some (.env copies.count)) ⟨.push, 0, .nil⟩,
        (joined.site none ⟨.const, 0, maker⟩).giving .maker,
        joined.site (some .maker) ⟨.call, 2, .nil⟩])

/-- A procedure: its code, joined to its copies if there are any. -/
def genLambda (c : Ctx) (code : Value) (copies : Captures) (maker : Value) : List Site :=
  if copies.count = 0 then [c.site none ⟨.const, 0, code⟩] else genJoin c code copies maker

/-! ## Forms -/

mutual

/-- The code of a form, from an instruction on. -/
def Core.gen (c : Ctx) (start : Nat) (tail : Bool) : Core → List Site
  | .const v => [c.site none ⟨.const, 0, v⟩]
  | .ref x inlined => [c.site none (refInstr c.scope x inlined)]
  | .assign x e => e.gen c start false ++ [c.site (some .any) (setInstr c.scope x)]
  | .cond a b d =>
    let no := start + a.length + b.length + 2
    a.gen c start false ++ c.site (some .any) ⟨.jumpIfFalse, 0, .ofInt no⟩ ::
      (b.gen c (start + a.length + 1) tail ++
        c.site (some .any) ⟨.jump, 0, .ofInt (no + d.length : Nat)⟩ :: d.gen c no tail)
  | .seq init last =>
    let posts := init.map fun _ => Post.next
    Core.genAll c start posts init ++ last.gen c (start + Core.lengthOf posts init) tail
  | .bind names inits body =>
    let posts := names.map fun _ => Post.push
    let inner := (c.posts posts).nameTop names
    Core.genAll c start posts inits ++
      (body.gen inner (start + Core.lengthOf posts inits) tail ++
        if names.isEmpty then [] else [inner.site (some .any) ⟨.drop, names.length, .nil⟩])
  | .dynBind names inits body =>
    let posts := names.map Post.bind
    let inner := c.posts posts
    Core.genAll c start posts inits ++
      (body.gen inner (start + Core.lengthOf posts inits) false ++
        if names.isEmpty then []
        else [inner.site (some .any) ⟨.dynUnbind, names.length, .nil⟩])
  | .lambda code copies maker => genLambda c code copies maker
  | .withCont k body =>
    let inner := c.establish k (start + body.length + 2)
    c.site none ⟨.withCont, 0, .ofInt (start + body.length + 2)⟩ ::
      (body.gen inner (start + 1) false ++
        [{ inner.site (some .any) ⟨.popCont, 0, .nil⟩ with scope := c.scope }])
  | .exit k e => e.gen c start false ++ [c.site (some .any) (exitInstr c.scope k)]
  | .loop body =>
    Core.genAll c start (body.map fun _ => .next) body ++ [c.site none ⟨.jump, 0, .ofInt start⟩]
  | .call args operator =>
    let posts := args.map fun _ => Post.push
    let inner := c.posts posts
    Core.genAll c start posts args ++
      (operator.gen inner (start + Core.lengthOf posts args) false ++
        [inner.site (some .any) ⟨if tail then .tailCall else .call, args.length, .nil⟩])

/-- The code of parts one behind the other. -/
def Core.genAll (c : Ctx) (start : Nat) (posts : List Post) : List Core → List Site
  | [] => []
  | e :: es =>
    match posts with
    | [] => []
    | p :: posts =>
      e.gen c start false ++ (p.instrs.map (c.site (some .any) ·) ++
        Core.genAll (c.post p) (start + e.length + p.instrs.length) posts es)

end

mutual

/-- The continuations that a form refers to are in scope, and each binding form has as
many initial forms as names. -/
def Core.Ok (s : Scope) : Core → Prop
  | .const _ | .ref _ _ => True
  | .assign _ e => e.Ok s
  | .cond a b d => a.Ok s ∧ b.Ok s ∧ d.Ok s
  | .seq init last => Core.OkAll s (init.map fun _ => .next) init ∧ last.Ok s
  | .bind names inits body =>
    names.length = inits.length ∧ Core.OkAll s (names.map fun _ => .push) inits ∧
      body.Ok ((s.posts (names.map fun _ => .push)).nameTop names)
  | .dynBind names inits body =>
    names.length = inits.length ∧ Core.OkAll s (names.map .bind) inits ∧
      body.Ok (s.posts (names.map .bind))
  | .lambda _ copies _ => ∀ k ∈ copies.conts, (s.resolveCont k).isSome
  | .withCont k body => body.Ok { s with conts := k :: s.conts }
  | .exit k e => (s.resolveCont k).isSome ∧ e.Ok s
  | .loop body => Core.OkAll s (body.map fun _ => .next) body
  | .call args operator =>
    Core.OkAll s (args.map fun _ => .push) args ∧
      operator.Ok (s.posts (args.map fun _ => .push))

/-- The same for parts one behind the other. -/
def Core.OkAll (s : Scope) (posts : List Post) : List Core → Prop
  | [] => True
  | e :: es =>
    match posts with
    | [] => True
    | p :: posts => e.Ok s ∧ Core.OkAll (s.post p) posts es

end

end CellLisp
