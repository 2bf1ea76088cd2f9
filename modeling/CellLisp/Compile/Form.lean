import CellLisp.Compile.Captures
import CellLisp.Syntax.Reader

/-!
# `CellLisp.Compile.Form` — forms as instructions

The code of a form leaves its value in the value register and the operand stack as it
was.  Each construct below is compiled by a function of its own, given how to compile
the forms within it.

    form                         code
    symbol                       a reference to its place
    (quote x)                    const x
    (if c a b)                   c; jumpIfFalse L; a; jump E; L: b; E:
    (do f …)                     f; …
    (set! x f)                   f; an assignment to its place
    (let ((x f) …) b …)          f; push; …; b; …; drop n
    (dynamic-let ((x f) …) b …)  f; dynBind x; …; b; …; dynUnbind n
    (comptime f …)               const v, with v the value of (do f …) now
    (named-lambda n ps b …)      const code, or the code for a closure
    (with-cont k b …)            withCont E; b; …; popCont; E:
    (exit k f)                   f; exit
    (loop f …)                   L: f; …; jump L
    (e x …)                      the expansion, if e is an expander
    (f x …)                      x; push; …; f; call n
    anything else                const
-/

namespace CellLisp.Comp

/-! ## Variables -/

/-- A reference to a variable. -/
def compileRef (name : Value) : Comp Unit := do
  match (← scope).resolve name with
  | .stack offset => op' .stackRef offset .nil
  | .env offset index => op' .envRef offset (.ofInt index)
  | .global =>
    let s ← symbol name
    match s.role, s.value with
    | .constant, some v => op' .const 0 v
    | _, value =>
      if !s.declared && value.isNone then warn .undeclared name
      op' .globalRef 0 name

/-- Remarks on an assignment to a global. -/
def warnAssign (name value : Value) : Comp Unit := do
  let s ← symbol name
  let known ← gets (·.known)
  let isLambda := match ← heap (·.pair? value) with
    | some (head, _) => head = known.namedLambda
    | none => false
  if s.role = .function && s.declared && !isLambda then warn .assignFunction name
  else if s.role = .constant && s.declared then warn .assignConstant name

/-- An assignment. -/
def compileSet (form : FormCompiler) (name value : Value) : Comp Unit := do
  let place := (← scope).resolve name
  if place = .global then warnAssign name value
  form value false
  match place with
  | .stack offset => op' .stackSet offset .nil
  | .env offset index => op' .envSet offset (.ofInt index)
  | .global => op' .globalSet 0 name

/-! ## Sequences and branches -/

/-- Forms in sequence; nil if there are none. -/
def compileBody (form : FormCompiler) (tail : Bool) : List Value → Comp Unit
  | [] => op' .const 0 .nil
  | [last] => form last tail
  | f :: rest => do
    form f false
    compileBody form tail rest

/-- A form that may be left out. -/
def compileOptional (form : FormCompiler) (tail : Bool) : Option Value → Comp Unit
  | some f => form f tail
  | none => op' .const 0 .nil

/-- A branch. -/
def compileIf (form : FormCompiler) (test yes : Value) (no : Option Value) (tail : Bool) :
    Comp Unit := do
  form test false
  let skip ← op .jumpIfFalse 0 .nil
  form yes tail
  let leave ← op .jump 0 .nil
  patchHere skip
  compileOptional form tail no
  patchHere leave

/-- A loop without end. -/
def compileLoop (form : FormCompiler) (body : List Value) : Comp Unit := do
  let start ← here
  body.forM fun f => form f false
  op' .jump 0 (.ofInt start)

/-! ## Bindings -/

/-- Variables initialised in parallel. -/
def compileLet (form : FormCompiler) (head list : Value) (body : List Value) (tail : Bool) :
    Comp Unit := do
  let bs ← bindings head list
  bs.forM fun b => do
    form b.2 false
    pushTemp
  modifyScope (·.nameTop (bs.map (·.1)))
  compileBody form tail body
  if !bs.isEmpty then op' .drop bs.length .nil
  modifyScope (·.drop bs.length)

/-- Dynamic bindings made in sequence. -/
def compileDynamicLet (form : FormCompiler) (head list : Value) (body : List Value) :
    Comp Unit := do
  let bs ← bindings head list
  bs.forM fun (name, init) => do
    if (← symbol name).role = .function then warn .dynamicFunction name
    form init false
    op' .dynBind 0 name
    modifyScope (·.push (.dynamic name))
  compileBody form false body
  if !bs.isEmpty then op' .dynUnbind bs.length .nil
  modifyScope (·.drop bs.length)

/-! ## Escapes -/

/-- A body with a continuation. -/
def compileWithCont (form : FormCompiler) (name : Value) (body : List Value) : Comp Unit := do
  let establish ← op .withCont 0 .nil
  modifyScope fun s => { s with conts := name :: s.conts }
  compileBody form false body
  modifyScope fun s => { s with conts := s.conts.drop 1 }
  op' .popCont 0 .nil
  patchHere establish

/-- Stops because a continuation is not in scope. -/
def unknownCont {α : Type} (name : Value) : Comp α := do
  fail (.unknownCont (← heap (·.symbolName name)))

/-- An exit to a continuation. -/
def compileExit (form : FormCompiler) (name : Value) (value : Option Value) : Comp Unit := do
  match (← scope).resolveCont name with
  | none => unknownCont name
  | some place =>
    compileOptional form false value
    match place with
    | .stack offset => op' .exit offset .nil
    | .env offset index => op' .envExit offset (.ofInt index)

/-! ## Procedures -/

/-- A parameter list: the fixed parameters and the one for the rest. -/
def parameters (params : Value) : Comp (List Value × Option Value) := do
  let h ← heap id
  let (fixed, rest) := h.spine params
  match fixed.find? (!·.isSymbol) with
  | some p => reject (.badParameter (h.print p))
  | none =>
    if rest.isNil then return (fixed.toList, none)
    else if rest.isSymbol then return (fixed.toList, some rest)
    else reject (.badParameterList (h.print rest))

/-- Arity of a procedure with a number of fixed parameters. -/
def arityOf (fixed : Nat) (variadic : Bool) : Comp Arity :=
  if variadic then
    match Arity.atLeast? fixed with
    | some a => return a
    | none => halt .arityRange
  else return .exactly fixed

/-- A documentation string in front of a body, and the body proper. -/
def splitDoc (h : Heap) (body : List Value) : Value × List Value :=
  match body with
  | d :: rest => if !rest.isEmpty && h.isString d then (d, rest) else (.nil, body)
  | [] => (.nil, [])

/-- Scope in which the body of a procedure is compiled. -/
def procedureScope (code : Value) (params : List Value) (c : Captures) : Scope :=
  let top := if c.count = 0 then [Entry.frame] else [.env, .frame]
  { code
    entries := top ++ (params.map Entry.var).reverse
    conts := []
    closedVars := c.vars
    closedConts := c.conts }

/-- Body of a procedure, in a scope of its own. -/
def compileProcedure (form : FormCompiler) (inner : Scope) (variadic : Bool) (fixed : Nat)
    (body : List Value) : Comp Unit := do
  let outer ← scope
  modifyScope fun _ => inner
  if variadic then op' .varargs fixed .nil
  compileBody form true body
  op' .ret 0 .nil
  modifyScope fun _ => outer

/-- A reference to a continuation that is to be copied. -/
def compileContRef (name : Value) : Comp Unit := do
  match (← scope).resolveCont name with
  | some (.stack offset) => op' .contRef offset .nil
  | some (.env offset index) => op' .envRef offset (.ofInt index)
  | none => unknownCont name

/-- Builds a closure from the code in the value register. -/
def compileClosure (c : Captures) : Comp Unit := do
  pushTemp
  c.conts.forM fun k => do
    compileContRef k
    pushTemp
  c.vars.forM fun v => do
    compileRef v
    pushTemp
  op' .makeArray c.count .nil
  modifyScope (·.drop c.count)
  pushTemp
  op' .const 0 (← gets (·.known.makeClosure))
  op' .call 2 .nil
  modifyScope (·.drop 2)

/-- A procedure. -/
def compileLambda (form : FormCompiler) (walk : Walker) (name params : Value)
    (body : List Value) : Comp Unit := do
  let (fixed, rest) ← parameters params
  let arity ← arityOf fixed.length rest.isSome
  let (doc, body) := splitDoc (← heap id) body
  let names := fixed ++ rest.toList
  let captures ← body.foldlM (walk ⟨names, []⟩) {}
  withRoots do
    let code ← makeBytecode name doc arity
    let _ ← protect code
    compileProcedure form (procedureScope code names captures) rest.isSome fixed.length body
    op' .const 0 code
    if captures.count != 0 then compileClosure captures

/-! ## Calls -/

/-- Remarks on the number of arguments of a call. -/
def warnArity (head : Value) (count : Nat) : Comp Unit := do
  if head.isSymbol && !(← scope).binds head then
    let s ← symbol head
    match s.role, s.arity with
    | .function, some arity =>
      if !arity.accepts count then warn (.arity arity count) head
    | _, _ => return ()

/-- A call: arguments from the left, then the operator. -/
def compileCall (form : FormCompiler) (head args : Value) (tail : Bool) : Comp Unit := do
  match ← heap (·.items? args) with
  | none => reject (.improperCall (← heap (·.print head)))
  | some items =>
    warnArity head items.size
    items.forM fun a => do
      form a false
      pushTemp
    form head false
    op' (if tail then .tailCall else .call) items.size .nil
    modifyScope (·.drop items.size)

/-! ## Units -/

/-- Whether a remark on an undeclared variable is out of date: the variable has been
declared or bound since. -/
def isSettled (s : State) (w : Warning) : Bool :=
  w.kind = .undeclared && match s.findSymbol? w.name with
    | some v => ((s.heap.symbol? v).map fun r => r.declared || r.value.isSome).getD false
    | none => false

/-- Logs a remark and adds it to those kept, unless it is settled or was kept before. -/
def keepWarning (kept : List Warning) (w : Warning) : Act (List Warning) := do
  if (← gets (isSettled · w)) || kept.contains w then return kept
  logLine .warn w.message
  return kept ++ [w]

/-- Drops remarks that are settled and repeated ones, and logs the rest. -/
def settle (found : Array Warning) : Act (List Warning) := found.toList.foldlM keepWarning []

/-- Compiles a list of forms into code without instructions, so that running it
evaluates them in order; yields the remarks. -/
def compileUnit (form : FormCompiler) (forms target : Value) : Act (List Warning) :=
  CellLisp.withRoots do
    let _ ← protect forms
    let _ ← protect target
    let place ← protect .nil
    match ← gets fun s => s.heap.items? forms with
    | none => fail (.form .formsNotList)
    | some items =>
      let draft : Draft := ⟨.new target [.frame], #[], [], place⟩
      let body : Comp Unit := do
        compileBody form false items.toList
        op' .ret 0 .nil
      let (_, draft) ← body.run draft
      settle draft.warnings

/-- Evaluates forms now and compiles to their value. -/
def compileComptime (call : Caller) (form : FormCompiler) (body : Value) : Comp Unit := do
  let v ← CellLisp.withRoots do
    let known ← gets (·.known)
    let unit ← makeBytecode known.comptime .nil (.exactly 0)
    let _ ← protect unit
    let sequence ← cons known.doForm body
    let _ ← protect sequence
    let forms ← cons sequence .nil
    let _ ← compileUnit form forms unit
    call unit #[]
  op' .const 0 v

/-! ## Forms -/

/-- A special form. -/
def compileSpecial (call : Caller) (walk : Walker) (form : FormCompiler) (special : SpecialForm)
    (head args whole : Value) (tail : Bool) : Comp Unit := do
  let ps ← parts head args
  let malformed : Comp Unit := do
    reject (.malformed (← heap (·.symbolName head)) (← heap (·.print whole)))
  match special, ps with
  | .quote, [x] => op' .const 0 x
  | .cond, [test, yes] => compileIf form test yes none tail
  | .cond, [test, yes, no] => compileIf form test yes (some no) tail
  | .sequence, body => compileBody form tail body
  | .assign, [name, value] => if name.isSymbol then compileSet form name value else malformed
  | .bind, list :: body => compileLet form head list body tail
  | .dynamicBind, list :: body => compileDynamicLet form head list body
  | .comptime, _ => compileComptime call form args
  | .lambda, name :: params :: body =>
    if name.isSymbol || name.isNil then compileLambda form walk name params body else malformed
  | .withCont, name :: body =>
    if name.isSymbol then compileWithCont form name body else malformed
  | .exit, [name] => if name.isSymbol then compileExit form name none else malformed
  | .exit, [name, value] =>
    if name.isSymbol then compileExit form name (some value) else malformed
  | .loop, body => compileLoop form body
  | _, _ => malformed

/-- One form, those within it by `form`. -/
def compileForm (call : Caller) (walk : Walker) (form : FormCompiler) : FormCompiler :=
  fun f tail => do
    if f.isSymbol then compileRef f
    else match ← heap (·.pair? f) with
      | none => op' .const 0 f
      | some (head, args) =>
        match ← gets fun s => s.known.special? head with
        | some special => compileSpecial call walk form special head args f tail
        | none =>
          match ← expander? head with
          | some e => form (← expand call e f) tail
          | none => compileCall form head args tail

/-- Forms nested to a depth of `n`. -/
def compileTo (call : Caller) : Nat → FormCompiler
  | 0 => fun _ _ => halt .depthLimit
  | n + 1 => compileForm call (Captures.walkTo call n) (compileTo call n)

end CellLisp.Comp

namespace CellLisp

/-- Compiles a list of forms into code without instructions; yields the remarks. -/
def compile (call : Caller) (forms target : Value) : Act (List Warning) := do
  Comp.compileUnit (Comp.compileTo call (← gets (·.config.depthLimit))) forms target

/-- Evaluates a form in a unit of its own. -/
def evalForm (call : Caller) (form : Value) : Act Value := withRoots do
  let one ← cons form .nil
  let _ ← protect one
  let unit ← makeBytecode (← gets (·.known.toplevel)) .nil (.exactly 0)
  let _ ← protect unit
  let _ ← compile call one unit
  call unit #[]

/-- Evaluates the forms along the tails of a value in turn, up to `n` of them; yields the
last value, or `last` if there are none.  A tail is looked at only after the form before
it was evaluated, since that may change the list. -/
def evalForms (call : Caller) : Nat → (last list : Value) → Act Value
  | 0, _, _ => halt .depthLimit
  | n + 1, last, list => do
    match ← gets fun s => s.heap.pair? list with
    | none => return last
    | some (form, rest) => evalForms call n (← evalForm call form) rest

/-- Evaluates every form of a text in turn; yields the last value. -/
def evalTextWith (call : Caller) (text : String) : Act Value := withRoots do
  let forms ← readAll text
  let _ ← protect forms
  evalForms call (← gets (·.config.depthLimit)) .nil forms

end CellLisp
