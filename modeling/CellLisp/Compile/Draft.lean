import CellLisp.Code.Buffer
import CellLisp.Compile.Scope
import CellLisp.Compile.Warning

/-!
# `CellLisp.Compile.Draft` — the state of a compilation

A compilation keeps a `Draft` beside the state of the system: the scope of the body
being compiled, the remarks made so far, and the expansions already computed, so that
each form is expanded once.

`Caller` is how procedures are called while compiling, for expansions and `comptime`.
-/

namespace CellLisp

/-- Calls a procedure with arguments. -/
abbrev Caller := Value → Array Value → Act Value

/-- State of a compilation. -/
structure Draft where
  /-- Scope of the body being compiled. -/
  scope : Scope
  /-- Remarks so far. -/
  warnings : Array Warning
  /-- Forms expanded so far, with their expansions. -/
  expansions : List (Value × Value)
  /-- Place of the protected list of all expansions. -/
  expansionRoot : Nat
  deriving Inhabited

/-- A step of a compilation. -/
abbrev Comp := StateT Draft Act

/-- Compiles a form; the flag tells whether it is in tail position. -/
abbrev FormCompiler := Value → (tail : Bool) → Comp Unit

/-- The special forms. -/
inductive SpecialForm where
  | quote | cond | sequence | assign | bind | dynamicBind | comptime | lambda | withCont | exit
  | loop
  deriving DecidableEq, Inhabited, Repr

/-- The special form that a symbol names. -/
def WellKnown.special? (k : WellKnown) (head : Value) : Option SpecialForm :=
  if head = k.quote then some .quote
  else if head = k.ifForm then some .cond
  else if head = k.doForm then some .sequence
  else if head = k.set then some .assign
  else if head = k.letForm then some .bind
  else if head = k.dynamicLet then some .dynamicBind
  else if head = k.comptime then some .comptime
  else if head = k.namedLambda then some .lambda
  else if head = k.withCont then some .withCont
  else if head = k.exit then some .exit
  else if head = k.loop then some .loop
  else none

namespace Comp

/-- A view of the heap. -/
@[inline] def heap {α : Type} (f : Heap → α) : Comp α := do return f (← getThe State).heap

/-- The current scope. -/
@[inline] def scope : Comp Scope := do return (← getThe Draft).scope

/-- Changes the current scope. -/
@[inline] def modifyScope (f : Scope → Scope) : Comp Unit :=
  modifyThe Draft fun d => { d with scope := f d.scope }

/-- Stops with an error in a form. -/
def reject {α : Type} (cause : FormError) : Comp α := fail (.form cause)

/-- Runs a step and drops what it left protected. -/
@[inline] def withRoots {α : Type} (act : Comp α) : Comp α := fun d => CellLisp.withRoots (act d)

/-- The record of a symbol, which must be there. -/
def symbol (v : Value) : Comp Symbol := do
  match ← heap (·.symbol? v) with
  | some s => return s
  | none => halt .corrupt

/-- Greatest modifier. -/
def modifierLimit : Nat := 65536

/-- Emits an instruction; yields its place. -/
def op (o : Opcode) (modifier : Nat) (operand : Value) : Comp Nat := do
  if modifierLimit ≤ modifier then reject (.operandRange modifier)
  emit (← scope).code o modifier operand

/-- Emits an instruction whose place does not matter. -/
def op' (o : Opcode) (modifier : Nat) (operand : Value) : Comp Unit := do
  let _ ← op o modifier operand

/-- Place of the next instruction. -/
def here : Comp Nat := do codeLength (← scope).code

/-- Points the jump at `place` to the next instruction. -/
def patchHere (place : Nat) : Comp Unit := do patch (← scope).code place (← here)

/-- Pushes the value register as an operand. -/
def pushTemp : Comp Unit := do
  op' .push 0 .nil
  modifyScope (·.push .temp)

/-- Notes a remark on a symbol. -/
def warn (kind : WarningKind) (symbol : Value) : Comp Unit := do
  let name ← heap (·.symbolName symbol)
  modifyThe Draft fun d => { d with warnings := d.warnings.push ⟨kind, name⟩ }

/-- The expander that a form's head names here, if it names one. -/
def expander? (head : Value) : Comp (Option Value) := do
  if !head.isSymbol || (← scope).binds head then return none
  let s ← symbol head
  match s.role, s.value with
  | .expander, some v => return if v.isProcedure then some v else none
  | _, _ => return none

/-- Adds an expansion to the protected list of all of them. -/
def keepExpansion (place : Nat) (expansion : Value) : Act Unit := CellLisp.withRoots do
  let _ ← protect expansion
  let kept ← gets fun s => s.roots.getD place .nil
  setRoot place (← cons expansion kept)

/-- The arguments of a call form, which must be a proper list. -/
def argumentsOf (form : Value) : Act (Array Value) := do
  let h ← gets (·.heap)
  let args := match h.pair? form with
    | some (_, tail) => tail
    | none => .nil
  match h.items? args with
  | some items => return items
  | none => typeError .properList args

/-- Expands a form, or finds the expansion already made. -/
def expand (call : Caller) (expander form : Value) : Comp Value := do
  let d ← getThe Draft
  match d.expansions.lookup form with
  | some expansion => return expansion
  | none =>
    let args ← argumentsOf form
    let expansion ← call expander args
    keepExpansion d.expansionRoot expansion
    modifyThe Draft fun d => { d with expansions := (form, expansion) :: d.expansions }
    return expansion

/-- Parts of a special form, whose arguments must be a proper list. -/
def parts (head args : Value) : Comp (List Value) := do
  match ← heap (·.items? args) with
  | some items => return items.toList
  | none => reject (.improper (← heap (·.symbolName head)))

/-- One binding: a name with its initial form. -/
def binding? (h : Heap) (b : Value) : Option (Value × Value) :=
  if b.isSymbol then some (b, .nil)
  else match (h.items? b).map Array.toList with
    | some [name] => if name.isSymbol then some (name, .nil) else none
    | some [name, init] => if name.isSymbol then some (name, init) else none
    | _ => none

/-- The bindings of a binding form. -/
def bindings (head list : Value) : Comp (List (Value × Value)) := do
  let h ← heap id
  match (h.items? list).bind fun items => items.toList.mapM (binding? h) with
  | some bs => return bs
  | none => reject (.badBindings (h.symbolName head))

end Comp
end CellLisp
