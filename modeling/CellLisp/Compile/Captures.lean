import CellLisp.Compile.Draft

/-!
# `CellLisp.Compile.Captures` — what a procedure takes from around it

Before the body of a procedure is compiled, a walk over it finds the variables and
continuations of the enclosing scope that it refers to.  They are copied into the
closure's environment.

    form                     looked at
    quote, comptime          nothing
    let                      initial forms, then the body under the names
    dynamic-let              initial forms and body; its names are global
    named-lambda             the body under the parameters
    with-cont                the body under the continuation's name
    exit                     the continuation's name, then the value
    a call of an expander    the expansion
    set!, if, do, loop       every part
    a call                   operator and arguments
-/

namespace CellLisp

/-- Free references found so far, in order. -/
structure Captures where
  /-- Variables. -/
  vars : List Value := []
  /-- Continuations. -/
  conts : List Value := []
  deriving Inhabited, Repr

/-- Names bound between the procedure and the form looked at. -/
structure Bound where
  /-- Variables. -/
  vars : List Value
  /-- Continuations. -/
  conts : List Value
  deriving Inhabited, Repr

/-- Adds the references of a form to those found so far. -/
abbrev Walker := Bound → Captures → Value → Comp Captures

namespace Captures

/-- Number of references. -/
def count (c : Captures) : Nat := c.conts.length + c.vars.length

/-- A reference to a variable. -/
def addVar (scope : Scope) (bound : Bound) (c : Captures) (name : Value) : Captures :=
  if !bound.vars.contains name && !c.vars.contains name && scope.binds name then
    { c with vars := c.vars ++ [name] }
  else c

/-- A reference to a continuation. -/
def addCont (scope : Scope) (bound : Bound) (c : Captures) (name : Value) : Captures :=
  if !bound.conts.contains name && !c.conts.contains name && (scope.resolveCont name).isSome then
    { c with conts := c.conts ++ [name] }
  else c

/-- Every element along the tails of a value, up to `n` of them.  A tail is followed
only after the element before it, since an expansion may change the list. -/
def walkTails (walk : Walker) (bound : Bound) : Nat → Captures → Value → Comp Captures
  | 0, _, _ => halt .depthLimit
  | n + 1, c, list => do
    match ← Comp.heap (·.pair? list) with
    | none => return c
    | some (head, tail) => walkTails walk bound n (← walk bound c head) tail

/-- Every element along the tails of a value. -/
def walkAll (walk : Walker) (bound : Bound) (c : Captures) (list : Value) : Comp Captures := do
  walkTails walk bound (← gets (·.config.depthLimit)) c list

/-- A pair taken apart; nil twice for anything else. -/
def split (v : Value) : Comp (Value × Value) := do
  return (← Comp.heap (·.pair? v)).getD (.nil, .nil)

/-- A binding form. -/
def walkBindings (walk : Walker) (bound : Bound) (c : Captures) (lexical : Bool)
    (head args : Value) : Comp Captures := do
  let (list, body) ← split args
  let bs ← Comp.bindings head list
  let c ← bs.foldlM (fun c b => walk bound c b.2) c
  let inner := if lexical then { bound with vars := bs.map (·.1) ++ bound.vars } else bound
  walkAll walk inner c body

/-- A procedure within the procedure. -/
def walkLambda (walk : Walker) (bound : Bound) (c : Captures) (head args : Value) :
    Comp Captures := do
  match ← Comp.parts head args with
  | _ :: params :: body =>
    let (fixed, rest) ← Comp.heap (·.spine params)
    let names := if rest.isSymbol then rest :: fixed.toList else fixed.toList
    body.foldlM (walk { bound with vars := names ++ bound.vars }) c
  | _ => Comp.reject (.improper (← Comp.heap (·.symbolName head)))

/-- A call, or a special form all of whose parts are references. -/
def walkCall (call : Caller) (walk : Walker) (bound : Bound) (c : Captures)
    (form head args : Value) : Comp Captures := do
  let expander ← if bound.vars.contains head then pure none else Comp.expander? head
  match expander with
  | some e => walk bound c (← Comp.expand call e form)
  | none =>
    let special ← gets fun s => (s.known.special? head).isSome
    walkAll walk bound c (if special then args else form)

/-- One form, its parts by `walk`. -/
def walkForm (call : Caller) (walk : Walker) : Walker := fun bound c form => do
  if form.isSymbol then return addVar (← Comp.scope) bound c form
  match ← Comp.heap (·.pair? form) with
  | none => return c
  | some (head, args) =>
    match ← gets fun s => s.known.special? head with
    | some .quote | some .comptime => return c
    | some .bind => walkBindings walk bound c true head args
    | some .dynamicBind => walkBindings walk bound c false head args
    | some .lambda => walkLambda walk bound c head args
    | some .withCont =>
      let (name, body) ← split args
      walkAll walk { bound with conts := name :: bound.conts } c body
    | some .exit =>
      let (name, rest) ← split args
      walkAll walk bound (addCont (← Comp.scope) bound c name) rest
    | _ => walkCall call walk bound c form head args

/-- The walk to a depth of `n`. -/
def walkTo (call : Caller) : Nat → Walker
  | 0 => fun _ _ _ => halt .depthLimit
  | n + 1 => walkForm call (walkTo call n)

end Captures
end CellLisp
