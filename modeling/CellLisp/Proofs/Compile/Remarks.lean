import CellLisp.Proofs.Compile.Steps
import CellLisp.Proofs.State.Order
import CellLisp.Proofs.State.Uncounted

/-!
# `CellLisp.Proofs.Compile.Remarks` — remarks on calls

A step of a compilation only adds remarks to those made so far, and one on the number of arguments
of a call is added only where the declared arity does not accept that number (`Comp.Remarks`).  So
it is for any form, to any depth (`Comp.remarks_compileTo`), and whatever procedures are called for
expansions, if their own errors are none of arity.  When a unit is done, no remark on a call has been
dropped (`mem_of_settle`).

    form                              remarks on its arity
    (f x …), f a declared function    if it does not accept so many arguments
    any other                         none of its own
-/

namespace CellLisp

/-- A remark on a call is made of one that the arity does not accept. -/
def Warning.Due (w : Warning) : Prop := ∀ a n, w.kind = .arity a n → a.accepts n = false

/-- From one state of a compilation to another only remarks that are due have been added. -/
def Draft.Notes (d d' : Draft) : Prop :=
  ∃ ws : List Warning, d'.warnings.toList = d.warnings.toList ++ ws ∧ ∀ w ∈ ws, w.Due

namespace Draft.Notes

variable {d d' d'' : Draft}

theorem of_eq (h : d'.warnings = d.warnings) : d.Notes d' :=
  ⟨[], by rw [h, List.append_nil], nofun⟩

theorem trans (h : d.Notes d') (h' : d'.Notes d'') : d.Notes d'' := by
  obtain ⟨us, hus, hu⟩ := h
  obtain ⟨vs, hvs, hv⟩ := h'
  refine ⟨us ++ vs, by rw [hvs, hus, List.append_assoc], fun w hw => ?_⟩
  exact (List.mem_append.1 hw).elim (hu w) (hv w)

theorem mem {w : Warning} (h : d.Notes d') (hw : w ∈ d.warnings) : w ∈ d'.warnings := by
  obtain ⟨ws, hws, -⟩ := h
  rw [← Array.mem_toList_iff] at hw ⊢
  rw [hws]
  exact List.mem_append_left ws hw

/-- If all remarks were due, they are. -/
theorem due (h : d.Notes d') (hd : ∀ w ∈ d.warnings, w.Due) : ∀ w ∈ d'.warnings, w.Due := by
  obtain ⟨ws, hws, hdue⟩ := h
  intro w hw
  rw [← Array.mem_toList_iff, hws, List.mem_append, Array.mem_toList_iff] at hw
  exact hw.elim (hd w) (hdue w)

end Draft.Notes

namespace Comp

/-- Procedures are called whose errors are none of arity. -/
def CallUncounted (call : Caller) : Prop := ∀ procedure args, Uncounted (call procedure args)

/-- A step of a compilation adds only remarks that are due, and none of its errors is about a number
of arguments unless a procedure that it calls has failed with it. -/
structure Remarks {α : Type} (call : Caller) (act : Comp α) : Prop where
  uncounted : CallUncounted call → ∀ d, Uncounted (act d)
  notes : ∀ d s p s', act d s = .ok p s' → d.Notes p.2

namespace Remarks

section

variable {call : Caller} {α β : Type} {x y : Comp α} {f : α → Comp β} {xs : List α}

theorem pure {a : α} : Remarks call (pure a) where
  uncounted _ _ := .pure
  notes d s p s' h := by
    cases h
    exact .of_eq rfl

/-- An action that calls procedures. -/
theorem calling {act : Act α} (h : CallUncounted call → Uncounted act) :
    Remarks call (liftM act : Comp α) where
  uncounted hcall _ := (h hcall).bind fun _ => .pure
  notes d s p s' hs := by
    obtain ⟨a, t, -, hdone⟩ := exists_of_bind_eq_ok (show (act >>= fun a => Pure.pure (a, d)) s = _ from hs)
    cases hdone
    exact .of_eq rfl

theorem lift {act : Act α} (h : Uncounted act) : Remarks call (liftM act : Comp α) :=
  calling fun _ => h

theorem bind (hx : Remarks call x) (hf : ∀ a, Remarks call (f a)) : Remarks call (x >>= f) where
  uncounted hcall d := (hx.uncounted hcall d).bind fun p => (hf p.1).uncounted hcall p.2
  notes d s p s' hs := by
    obtain ⟨q, t, hx', hf'⟩ := exists_of_bind_eq_ok (show (x d >>= fun q => f q.1 q.2) s = _ from hs)
    exact (hx.notes _ _ _ _ hx').trans ((hf q.1).notes _ _ _ _ hf')

theorem withRoots (hx : Remarks call x) : Remarks call (Comp.withRoots x) where
  uncounted hcall d := (hx.uncounted hcall d).withRoots
  notes d s p s' hs := by
    change CellLisp.withRoots (x d) s = _ at hs
    unfold CellLisp.withRoots at hs
    cases hact : x d s with
    | ok q t =>
        rw [hact] at hs
        cases hs
        exact hx.notes _ _ _ _ hact
    | error c t =>
        rw [hact] at hs
        cases hs

theorem ite {p : Prop} [Decidable p] (hx : Remarks call x) (hy : Remarks call y) :
    Remarks call (if p then x else y) := by
  split
  · exact hx
  · exact hy

/-- The first of two steps may be one or another. -/
theorem choose {p : Prop} [Decidable p] (hx : Remarks call x) (hy : Remarks call y)
    (hf : ∀ a, Remarks call (f a)) : Remarks call (if p then x >>= f else y >>= f) :=
  ite (bind hx hf) (bind hy hf)

/-- A step that may be left out. -/
theorem when {p : Prop} [Decidable p] {u : Comp Unit} (hu : Remarks call u) (hy : Remarks call y) :
    Remarks call (if p then u >>= fun _ => y else y) :=
  ite (bind hu fun _ => hy) hy

theorem forM {g : α → Comp Unit} (hg : ∀ a, Remarks call (g a)) : Remarks call (xs.forM g) := by
  induction xs with
  | nil => exact pure
  | cons a xs ih => exact bind (hg a) fun _ => ih

theorem foldlM {g : β → α → Comp β} (hg : ∀ b a, Remarks call (g b a)) {b : β} :
    Remarks call (xs.foldlM g b) := by
  induction xs generalizing b with
  | nil => exact pure
  | cons a xs ih =>
      rw [List.foldlM_cons]
      exact bind (hg b a) fun _ => ih

/-- What is looked up first. -/
theorem gets {g : State → α} : Remarks call (liftM (CellLisp.gets g) : Comp α) := lift .gets

theorem heap {g : Heap → α} : Remarks call (Comp.heap g) :=
  bind (lift fun _ _ _ h => by cases h) fun _ => pure

theorem modify {g : Draft → Draft} (hg : ∀ d : Draft, d.Notes (g d)) :
    Remarks call (modifyThe Draft g : Comp Unit) where
  uncounted _ _ := .pure
  notes d s p s' h := by
    cases h
    exact hg d

theorem draft : Remarks call (getThe Draft : Comp Draft) where
  uncounted _ _ := .pure
  notes d s p s' h := by
    cases h
    exact .of_eq rfl

theorem scope : Remarks call Comp.scope := bind draft fun _ => pure

theorem modifyScope {g : Scope → Scope} : Remarks call (Comp.modifyScope g) :=
  modify fun _ => .of_eq rfl

end

end Remarks

/-! ## Steps -/

section Steps

variable {call : Caller} {name value head args form list : Value}

theorem remarks_reject {α : Type} (cause : FormError) : Remarks call (reject cause : Comp α) :=
  .lift (.fail rfl)

theorem remarks_symbol (v : Value) : Remarks call (symbol v) := by
  refine .bind .heap fun r? => ?_
  cases r? with
  | some r => exact .pure
  | none => exact .lift .halt

theorem remarks_op (o : Opcode) (modifier : Nat) (operand : Value) :
    Remarks call (op o modifier operand) := by
  have hemit : Remarks call (do emit (← scope).code o modifier operand) :=
    .bind .scope fun _ => .lift (uncounted_emit _ _ _ _)
  exact .ite (.bind (remarks_reject _) fun _ => hemit) hemit

theorem remarks_op' (o : Opcode) (modifier : Nat) (operand : Value) :
    Remarks call (op' o modifier operand) :=
  .bind (remarks_op _ _ _) fun _ => .pure

theorem remarks_here : Remarks call here :=
  .bind .scope fun _ => .lift (uncounted_codeLength _)

theorem remarks_patchHere (place : Nat) : Remarks call (patchHere place) :=
  .bind .scope fun _ => .bind remarks_here fun _ => .lift (uncounted_patch _ _ _)

theorem remarks_pushTemp : Remarks call pushTemp :=
  .bind (remarks_op' _ _ _) fun _ => .modifyScope

/-- A remark is made. -/
theorem remarks_warn {kind : WarningKind} (hdue : ∀ a n, kind = .arity a n → a.accepts n = false)
    (v : Value) : Remarks call (warn kind v) := by
  refine .bind .heap fun name => .modify fun d => ⟨[⟨kind, name⟩], Array.toList_push, ?_⟩
  intro w hw
  obtain rfl := List.mem_singleton.1 hw
  exact hdue

theorem remarks_expander? (head : Value) : Remarks call (expander? head) := by
  refine .bind .scope fun s => .ite .pure (.bind (remarks_symbol _) fun r => ?_)
  split <;> exact .pure

theorem uncounted_keepExpansion (place : Nat) (v : Value) : Uncounted (keepExpansion place v) :=
  .withRoots <| .bind (raises_protect _) fun _ => .look fun _ =>
    .bind (raises_allocCell _) fun _ => .modify

theorem uncounted_argumentsOf (form : Value) : Uncounted (argumentsOf form) := by
  refine .look fun h => ?_
  dsimp only
  split
  · exact .pure
  · exact uncounted_typeError _ _

theorem remarks_expand (expander form : Value) :
    Remarks call (expand call expander form) := by
  refine .bind .draft fun d => ?_
  cases d.expansions.lookup form with
  | some expansion => exact .pure
  | none =>
      refine .bind (.lift (uncounted_argumentsOf _)) fun args => .bind (.calling fun hcall => hcall _ _) fun v => ?_
      refine .bind (.lift (uncounted_keepExpansion _ _)) fun _ => .bind (.modify fun _ => ?_) fun _ => .pure
      exact .of_eq rfl

theorem remarks_parts (head args : Value) : Remarks call (parts head args) := by
  refine .bind .heap fun items? => ?_
  cases items? with
  | some items => exact .pure
  | none => exact .bind .heap fun _ => remarks_reject _

theorem remarks_bindings (head list : Value) : Remarks call (bindings head list) := by
  refine .bind .heap fun h => ?_
  split
  · exact .pure
  · exact remarks_reject _

end Steps

/-! ## Walks -/

section Walks

variable {call : Caller} {walk : Walker} {bound : Bound} {c : Captures} {head args form list : Value}

/-- A walk over a form makes no remarks but those that are due. -/
def WalkRemarks (call : Caller) (walk : Walker) : Prop := ∀ bound c v, Remarks call (walk bound c v)

theorem remarks_walkTails (hwalk : WalkRemarks call walk) (bound : Bound) (n : Nat) (c : Captures)
    (list : Value) : Remarks call (Captures.walkTails walk bound n c list) := by
  induction n generalizing c list with
  | zero => exact .lift .halt
  | succ n ih =>
      refine .bind .heap fun p => ?_
      cases p with
      | none => exact .pure
      | some p => exact .bind (hwalk _ _ _) fun _ => ih _ _

theorem remarks_walkAll (hwalk : WalkRemarks call walk) (bound : Bound) (c : Captures) (list : Value) :
    Remarks call (Captures.walkAll walk bound c list) :=
  .bind .gets fun _ => remarks_walkTails hwalk _ _ _ _

theorem remarks_split (v : Value) : Remarks call (Captures.split v) := .bind .heap fun _ => .pure

theorem remarks_walkBindings (hwalk : WalkRemarks call walk) (bound : Bound) (c : Captures)
    (lexical : Bool) (head args : Value) :
    Remarks call (Captures.walkBindings walk bound c lexical head args) :=
  .bind (remarks_split _) fun _ => .bind (remarks_bindings _ _) fun _ =>
    .bind (.foldlM fun _ _ => hwalk _ _ _) fun _ => remarks_walkAll hwalk _ _ _

theorem remarks_walkLambda (hwalk : WalkRemarks call walk) (bound : Bound) (c : Captures)
    (head args : Value) : Remarks call (Captures.walkLambda walk bound c head args) := by
  refine .bind (remarks_parts _ _) fun ps => ?_
  split
  · exact .bind .heap fun _ => .foldlM fun _ _ => hwalk _ _ _
  · exact .bind .heap fun _ => remarks_reject _

theorem remarks_walkCall (hwalk : WalkRemarks call walk) (bound : Bound)
    (c : Captures) (form head args : Value) :
    Remarks call (Captures.walkCall call walk bound c form head args) := by
  refine .choose .pure (remarks_expander? _) fun expander => ?_
  cases expander with
  | some e => exact .bind (remarks_expand _ _) fun _ => hwalk _ _ _
  | none => exact .bind .gets fun _ => remarks_walkAll hwalk _ _ _

theorem remarks_walkForm (hwalk : WalkRemarks call walk) :
    WalkRemarks call (Captures.walkForm call walk) := by
  intro bound c form
  refine .ite (.bind .scope fun _ => .pure) (.bind .heap fun p => ?_)
  cases p with
  | none => exact .pure
  | some p =>
      refine .bind .gets fun special => ?_
      split
      · exact .pure
      · exact .pure
      · exact remarks_walkBindings hwalk _ _ _ _ _
      · exact remarks_walkBindings hwalk _ _ _ _ _
      · exact remarks_walkLambda hwalk _ _ _ _
      · exact .bind (remarks_split _) fun _ => remarks_walkAll hwalk _ _ _
      · exact .bind (remarks_split _) fun _ => .bind .scope fun _ => remarks_walkAll hwalk _ _ _
      · exact remarks_walkCall hwalk _ _ _ _ _

theorem remarks_walkTo (n : Nat) :
    WalkRemarks call (Captures.walkTo call n) := by
  induction n with
  | zero => exact fun _ _ _ => .lift .halt
  | succ n ih => exact remarks_walkForm ih

end Walks

/-! ## Constructs -/

section Constructs

variable {call : Caller} {walk : Walker} {form : FormCompiler}

/-- Forms are compiled with no remarks but those that are due. -/
def FormRemarks (call : Caller) (form : FormCompiler) : Prop := ∀ f tail, Remarks call (form f tail)

theorem remarks_compileRef (name : Value) : Remarks call (compileRef name) := by
  refine .bind .scope fun s => ?_
  split
  · exact remarks_op' _ _ _
  · exact remarks_op' _ _ _
  · refine .bind (remarks_symbol _) fun r => ?_
    split
    · exact remarks_op' _ _ _
    · exact .ite (.bind (remarks_warn (by nofun) _) fun _ => remarks_op' _ _ _) (remarks_op' _ _ _)

theorem remarks_warnAssign (name value : Value) : Remarks call (warnAssign name value) := by
  refine .bind (remarks_symbol _) fun r => .bind .gets fun k => .bind .heap fun p => ?_
  exact .ite (remarks_warn (by nofun) _) (.ite (remarks_warn (by nofun) _) .pure)

theorem remarks_compileSet (h : FormRemarks call form) (name value : Value) :
    Remarks call (compileSet form name value) := by
  refine .bind .scope fun s => .when (remarks_warnAssign _ _) (.bind (h _ _) fun _ => ?_)
  split <;> exact remarks_op' _ _ _

theorem remarks_compileBody (h : FormRemarks call form) (tail : Bool) (body : List Value) :
    Remarks call (compileBody form tail body) := by
  induction body with
  | nil => exact remarks_op' _ _ _
  | cons f rest ih =>
      cases rest with
      | nil => exact h _ _
      | cons g rest => exact .bind (h _ _) fun _ => ih

theorem remarks_compileOptional (h : FormRemarks call form) (tail : Bool) (f? : Option Value) :
    Remarks call (compileOptional form tail f?) := by
  cases f? with
  | some f => exact h _ _
  | none => exact remarks_op' _ _ _

theorem remarks_compileIf (h : FormRemarks call form) (test yes : Value) (no : Option Value)
    (tail : Bool) : Remarks call (compileIf form test yes no tail) :=
  .bind (h _ _) fun _ => .bind (remarks_op _ _ _) fun _ => .bind (h _ _) fun _ =>
    .bind (remarks_op _ _ _) fun _ => .bind (remarks_patchHere _) fun _ =>
      .bind (remarks_compileOptional h _ _) fun _ => remarks_patchHere _

theorem remarks_compileLoop (h : FormRemarks call form) (body : List Value) :
    Remarks call (compileLoop form body) :=
  .bind remarks_here fun _ => .bind (.forM fun _ => h _ _) fun _ => remarks_op' _ _ _

theorem remarks_compileLet (h : FormRemarks call form) (head list : Value) (body : List Value)
    (tail : Bool) : Remarks call (compileLet form head list body tail) := by
  refine .bind (remarks_bindings _ _) fun bs => ?_
  refine .bind (.forM fun _ => .bind (h _ _) fun _ => remarks_pushTemp) fun _ => ?_
  refine .bind .modifyScope fun _ => .bind (remarks_compileBody h _ _) fun _ => ?_
  exact .ite (.bind (remarks_op' _ _ _) fun _ => .modifyScope) .modifyScope

theorem remarks_compileDynamicLet (h : FormRemarks call form) (head list : Value) (body : List Value) :
    Remarks call (compileDynamicLet form head list body) := by
  refine .bind (remarks_bindings _ _) fun bs => .bind (.forM fun b => ?_) fun _ => ?_
  · have hinit : Remarks call (do
        form b.2 false
        op' .dynBind 0 b.1
        modifyScope (·.push (.dynamic b.1))) :=
      .bind (h _ _) fun _ => .bind (remarks_op' _ _ _) fun _ => .modifyScope
    refine .bind (remarks_symbol _) fun r => ?_
    exact .ite (.bind (remarks_warn (by nofun) _) fun _ => hinit) hinit
  · refine .bind (remarks_compileBody h _ _) fun _ => ?_
    exact .ite (.bind (remarks_op' _ _ _) fun _ => .modifyScope) .modifyScope

theorem remarks_compileWithCont (h : FormRemarks call form) (name : Value) (body : List Value) :
    Remarks call (compileWithCont form name body) :=
  .bind (remarks_op _ _ _) fun _ => .bind .modifyScope fun _ =>
    .bind (remarks_compileBody h _ _) fun _ => .bind .modifyScope fun _ =>
      .bind (remarks_op' _ _ _) fun _ => remarks_patchHere _

theorem remarks_unknownCont {α : Type} (name : Value) : Remarks call (unknownCont name : Comp α) :=
  .bind .heap fun _ => .lift (.fail rfl)

theorem remarks_compileExit (h : FormRemarks call form) (name : Value) (value : Option Value) :
    Remarks call (compileExit form name value) := by
  refine .bind .scope fun s => ?_
  split
  · exact remarks_unknownCont _
  · refine .bind (remarks_compileOptional h _ _) fun _ => ?_
    split <;> exact remarks_op' _ _ _

theorem remarks_parameters (params : Value) : Remarks call (parameters params) := by
  refine .bind .heap fun h => ?_
  dsimp only
  split
  · exact remarks_reject _
  · exact .ite .pure (.ite .pure (remarks_reject _))

theorem remarks_arityOf (fixed : Nat) (variadic : Bool) : Remarks call (arityOf fixed variadic) := by
  unfold arityOf
  split
  · split
    · exact .pure
    · exact .lift .halt
  · exact .pure

theorem remarks_compileProcedure (h : FormRemarks call form) (inner : Scope) (variadic : Bool)
    (fixed : Nat) (body : List Value) :
    Remarks call (compileProcedure form inner variadic fixed body) := by
  refine .bind .scope fun outer => .bind .modifyScope fun _ => ?_
  have hbody : Remarks call (do
      compileBody form true body
      op' .ret 0 .nil
      modifyScope fun _ => outer) :=
    .bind (remarks_compileBody h _ _) fun _ => .bind (remarks_op' _ _ _) fun _ => .modifyScope
  exact .ite (.bind (remarks_op' _ _ _) fun _ => hbody) hbody

theorem remarks_compileContRef (name : Value) : Remarks call (compileContRef name) := by
  refine .bind .scope fun s => ?_
  split
  · exact remarks_op' _ _ _
  · exact remarks_op' _ _ _
  · exact remarks_unknownCont _

theorem remarks_compileClosure (c : Captures) : Remarks call (compileClosure c) := by
  refine .bind remarks_pushTemp fun _ => ?_
  refine .bind (.forM fun _ => .bind (remarks_compileContRef _) fun _ => remarks_pushTemp) fun _ => ?_
  refine .bind (.forM fun _ => .bind (remarks_compileRef _) fun _ => remarks_pushTemp) fun _ => ?_
  refine .bind (remarks_op' _ _ _) fun _ => .bind .modifyScope fun _ => ?_
  refine .bind remarks_pushTemp fun _ => .bind .gets fun _ => .bind (remarks_op' _ _ _) fun _ => ?_
  exact .bind (remarks_op' _ _ _) fun _ => .modifyScope

theorem remarks_compileLambda (h : FormRemarks call form) (hwalk : WalkRemarks call walk) (name params : Value)
    (body : List Value) : Remarks call (compileLambda form walk name params body) := by
  refine .bind (remarks_parameters _) fun p => .bind (remarks_arityOf _ _) fun a => ?_
  refine .bind .heap fun h' => .bind (.foldlM fun _ _ => hwalk _ _ _) fun captures => .withRoots ?_
  refine .bind (.lift (uncounted_makeBytecode _ _ _)) fun code => ?_
  refine .bind (.lift (raises_protect _)) fun _ => ?_
  refine .bind (remarks_compileProcedure h _ _ _ _) fun _ => .bind (remarks_op' _ _ _) fun _ => ?_
  exact .ite (remarks_compileClosure _) .pure

end Constructs

/-! ## Calls -/

end Comp

/-- A symbol is declared a function of an arity. -/
structure Heap.Declares (h : Heap) (x : Value) (a : Arity) : Prop where
  isSymbol : x.isSymbol = true
  record : ∃ r, h.symbol? x = some r ∧ r.role = .function ∧ r.arity = some a

/-- With one remark more. -/
def Draft.remark (d : Draft) (w : Warning) : Draft := { d with warnings := d.warnings.push w }

namespace Comp

section Calls

variable {call : Caller} {walk : Walker} {form : FormCompiler} {x args f : Value} {items : Array Value}
  {tail : Bool} {a : Arity} {d d' : Draft} {s s' : State} {n : Nat}

theorem remarks_warnArity (head : Value) (count : Nat) : Remarks call (warnArity head count) := by
  refine .bind .scope fun _ => .ite (.bind (remarks_symbol _) fun r => ?_) .pure
  split
  · rename_i arity _ _
    cases haccepts : arity.accepts count with
    | true => exact .pure
    | false =>
        refine remarks_warn (fun a n h => ?_) _
        cases h
        exact haccepts
  · exact .pure

/-- A call, once its arity has been looked at. -/
def compileOperands (form : FormCompiler) (head : Value) (items : Array Value) (tail : Bool) :
    Comp Unit := do
  items.forM fun a => do
    form a false
    pushTemp
  form head false
  op' (if tail then .tailCall else .call) items.size .nil
  modifyScope (·.drop items.size)

theorem remarks_compileOperands (h : FormRemarks call form) (head : Value) (items : Array Value)
    (tail : Bool) : Remarks call (compileOperands form head items tail) := by
  refine .bind ?_ fun _ => .bind (h _ _) fun _ => .bind (remarks_op' _ _ _) fun _ => .modifyScope
  rw [Array.forM_eq_forM]
  obtain ⟨items⟩ := items
  rw [List.forM_toArray]
  exact .forM fun _ => .bind (h _ _) fun _ => remarks_pushTemp

theorem remarks_compileCall (h : FormRemarks call form) (head args : Value) (tail : Bool) :
    Remarks call (compileCall form head args tail) := by
  refine .bind .heap fun items? => ?_
  cases items? with
  | none => exact .bind .heap fun _ => remarks_reject _
  | some items =>
      exact .bind (remarks_warnArity _ _) fun _ => remarks_compileOperands h head items tail

theorem symbol_eq {r : Symbol} (hr : s.heap.symbol? x = some r) : symbol x d s = .ok (r, d) s := by
  unfold symbol
  rw [heap_bind, hr]
  rfl

theorem symbol_bind {β : Type} {r : Symbol} (hr : s.heap.symbol? x = some r) (f : Symbol → Comp β) :
    (symbol x >>= f) d s = f r d s := by
  rw [comp_bind, symbol_eq hr]

/-- A declared function that nothing in scope has the name of is remarked on if its arity does not
accept so many arguments. -/
theorem warnArity_eq (hx : s.heap.Declares x a) (hbinds : d.scope.binds x = false) (count : Nat) :
    warnArity x count d s = .ok ((), if a.accepts count then d
      else d.remark ⟨.arity a count, s.heap.symbolName x⟩) s := by
  obtain ⟨r, hr, hrole, harity⟩ := hx.record
  unfold warnArity
  rw [scope_bind, hx.isSymbol, hbinds]
  change (symbol x >>= fun _ => _) d s = _
  rw [symbol_bind hr]
  simp only [hrole, harity]
  cases a.accepts count <;> rfl

/-- A call of one is remarked on, and then compiled. -/
theorem compileCall_eq (hx : s.heap.Declares x a) (hbinds : d.scope.binds x = false)
    (hargs : s.heap.items? args = some items) : compileCall form x args tail d s
      = compileOperands form x items tail (if a.accepts items.size then d
          else d.remark ⟨.arity a items.size, s.heap.symbolName x⟩) s := by
  unfold compileCall
  rw [heap_bind, hargs]
  change (warnArity x items.size >>= fun _ => compileOperands form x items tail) d s = _
  rw [comp_bind, warnArity_eq hx hbinds]

/-- After a call of one has been compiled there is a remark on it exactly if the arity does not
accept so many arguments. -/
theorem compileCall_reports_iff (h : FormRemarks call form) (hx : s.heap.Declares x a)
    (hbinds : d.scope.binds x = false) (hargs : s.heap.items? args = some items)
    (hdue : ∀ w ∈ d.warnings, w.Due) (hok : compileCall form x args tail d s = .ok ((), d') s') :
    ⟨.arity a items.size, s.heap.symbolName x⟩ ∈ d'.warnings ↔ a.accepts items.size = false := by
  constructor
  · intro hw
    exact ((remarks_compileCall h x args tail).notes d s _ s' hok).due hdue _ hw a items.size rfl
  · intro hrejects
    rw [compileCall_eq hx hbinds hargs, hrejects] at hok
    refine ((remarks_compileOperands h x items tail).notes _ s _ s' hok).mem ?_
    exact Array.mem_push_self

end Calls

/-! ## Units -/

section Units

variable {call : Caller} {walk : Walker} {form : FormCompiler} {d d' : Draft} {s s' : State}
  {kept kept' : List Warning} {w : Warning}

theorem uncounted_keepWarning (kept : List Warning) (w : Warning) : Uncounted (keepWarning kept w) := by
  refine .look fun settled => ?_
  exact .ite .pure (.bind .modify fun _ => .pure)

theorem isSettled_eq_false (hw : w.kind ≠ .undeclared) (s : State) : isSettled s w = false := by
  unfold isSettled
  rw [decide_eq_false hw, Bool.false_and]

/-- Only a remark on an undeclared variable can be left out. -/
theorem keepWarning_ok (h : keepWarning kept w s = .ok kept' s') :
    kept ⊆ kept' ∧ kept' ⊆ w :: kept ∧ (w.kind ≠ .undeclared → w ∈ kept') := by
  unfold keepWarning at h
  rw [act_bind, act_gets] at h
  dsimp only at h
  split at h
  · rename_i hsame
    cases h
    refine ⟨List.Subset.refl _, List.subset_cons_self _ _, fun hw => ?_⟩
    rw [isSettled_eq_false hw, Bool.false_or] at hsame
    exact List.contains_iff_mem.1 hsame
  · obtain ⟨⟨⟩, t, -, hdone⟩ := exists_of_bind_eq_ok h
    cases hdone
    refine ⟨List.subset_append_left _ _, fun v hv => ?_, fun _ => List.mem_append_right _ (by simp)⟩
    simpa [or_comm] using hv

/-- No remark on a call is left out of those that are kept, and none is added. -/
theorem mem_of_foldlM_keepWarning {ws : List Warning} (h : ws.foldlM keepWarning kept s = .ok kept' s') :
    (∀ w ∈ kept, w ∈ kept') ∧ (∀ w ∈ ws, w.kind ≠ .undeclared → w ∈ kept') ∧
      ∀ w ∈ kept', w ∈ ws ∨ w ∈ kept := by
  induction ws generalizing kept s with
  | nil =>
      cases h
      exact ⟨fun _ => id, nofun, fun _ => .inr⟩
  | cons v vs ih =>
      rw [List.foldlM_cons] at h
      obtain ⟨kept₁, t, hkeep, hrest⟩ := exists_of_bind_eq_ok h
      obtain ⟨hsub, hfrom, hmem⟩ := keepWarning_ok hkeep
      obtain ⟨hkept, hall, hback⟩ := ih hrest
      refine ⟨fun w hw => hkept w (hsub hw), fun w hw hkind => ?_, fun w hw => ?_⟩
      · rcases List.mem_cons.1 hw with rfl | hw
        · exact hkept w (hmem hkind)
        · exact hall w hw hkind
      · rcases hback w hw with hw | hw
        · exact .inl (List.mem_cons_of_mem v hw)
        · rcases List.mem_cons.1 (hfrom hw) with rfl | hw
          · exact .inl List.mem_cons_self
          · exact .inr hw

theorem mem_of_settle {found : Array Warning} (h : settle found s = .ok kept s') :
    (∀ w ∈ found, w.kind ≠ .undeclared → w ∈ kept) ∧ ∀ w ∈ kept, w ∈ found := by
  obtain ⟨-, hall, hback⟩ := mem_of_foldlM_keepWarning h
  refine ⟨fun w hw => hall w (Array.mem_toList_iff.2 hw), fun w hw => ?_⟩
  exact Array.mem_toList_iff.1 ((hback w hw).resolve_right List.not_mem_nil)

/-- The forms of a unit, and a return behind them. -/
def compileForms (form : FormCompiler) (items : Array Value) : Comp Unit := do
  compileBody form false items.toList
  op' .ret 0 .nil

theorem remarks_compileForms (h : FormRemarks call form) (items : Array Value) :
    Remarks call (compileForms form items) :=
  .bind (remarks_compileBody h _ _) fun _ => remarks_op' _ _ _

theorem uncounted_compileUnit (hcall : CallUncounted call) (h : FormRemarks call form)
    (forms target : Value) :
    Uncounted (compileUnit form forms target) := by
  refine .withRoots <| .bind (raises_protect _) fun _ => .bind (raises_protect _) fun _ =>
    .bind (raises_protect _) fun place => .look fun items? => ?_
  cases items? with
  | none => exact .fail rfl
  | some items =>
      refine .bind ((remarks_compileForms h items).uncounted hcall _) fun p => ?_
      exact .foldlM fun _ _ => uncounted_keepWarning _ _

theorem remarks_compileComptime (h : FormRemarks call form) (body : Value) :
    Remarks call (compileComptime call form body) := by
  refine .bind (.calling fun hcall => .withRoots ?_) fun _ => remarks_op' _ _ _
  refine .look fun known => .bind (uncounted_makeBytecode _ _ _) fun unit => ?_
  refine .bind (raises_protect _) fun _ => .bind (raises_allocCell _) fun _ => ?_
  refine .bind (raises_protect _) fun _ => .bind (raises_allocCell _) fun _ => ?_
  exact .bind (uncounted_compileUnit hcall h _ _) fun _ => hcall _ _

/-! ## Any form -/

theorem remarks_compileSpecial (hwalk : WalkRemarks call walk)
    (h : FormRemarks call form) (special : SpecialForm) (head args whole : Value) (tail : Bool) :
    Remarks call (compileSpecial call walk form special head args whole tail) := by
  refine .bind (remarks_parts _ _) fun ps => ?_
  have hmalformed : Remarks call (do
      reject (.malformed (← heap (·.symbolName head)) (← heap (·.print whole))) : Comp Unit) :=
    .bind .heap fun _ => .bind .heap fun _ => remarks_reject _
  dsimp only
  split
  · exact remarks_op' _ _ _
  · exact remarks_compileIf h _ _ _ _
  · exact remarks_compileIf h _ _ _ _
  · exact remarks_compileBody h _ _
  · exact .ite (remarks_compileSet h _ _) hmalformed
  · exact remarks_compileLet h _ _ _ _
  · exact remarks_compileDynamicLet h _ _ _
  · exact remarks_compileComptime h _
  · exact .ite (remarks_compileLambda h hwalk _ _ _) hmalformed
  · exact .ite (remarks_compileWithCont h _ _) hmalformed
  · exact .ite (remarks_compileExit h _ _) hmalformed
  · exact .ite (remarks_compileExit h _ _) hmalformed
  · exact remarks_compileLoop h _
  · exact hmalformed

theorem remarks_compileForm (hwalk : WalkRemarks call walk)
    (h : FormRemarks call form) : FormRemarks call (compileForm call walk form) := by
  intro f tail
  refine .ite (remarks_compileRef _) (.bind .heap fun p => ?_)
  cases p with
  | none => exact remarks_op' _ _ _
  | some p =>
      refine .bind .gets fun special? => ?_
      cases special? with
      | some special => exact remarks_compileSpecial hwalk h _ _ _ _ _
      | none =>
          refine .bind (remarks_expander? _) fun expander? => ?_
          cases expander? with
          | some e => exact .bind (remarks_expand _ _) fun _ => h _ _
          | none => exact remarks_compileCall h _ _ _

theorem remarks_compileTo (n : Nat) : FormRemarks call (compileTo call n) := by
  induction n with
  | zero => exact fun _ _ => .lift .halt
  | succ n ih => exact remarks_compileForm (remarks_walkTo n) ih

theorem expander?_of_declares {x : Value} {a : Arity} (hx : s.heap.Declares x a) :
    expander? x d s = .ok (none, d) s := by
  obtain ⟨r, hr, hrole, -⟩ := hx.record
  unfold expander?
  rw [scope_bind, hx.isSymbol]
  cases d.scope.binds x with
  | true => rfl
  | false =>
      change (symbol x >>= fun _ => _) d s = _
      rw [symbol_bind hr]
      simp only [hrole]
      rfl

/-- What a form in brackets is compiled as goes by its head. -/
theorem compileForm_pair {f head args : Value} {tail : Bool} (hf : s.heap.pair? f = some (head, args)) :
    compileForm call walk form f tail d s = (match s.known.special? head with
      | some special =>
        compileSpecial call walk form special head args f tail
      | none => do
        match ← expander? head with
        | some e => form (← expand call e f) tail
        | none => compileCall form head args tail : Comp Unit) d s := by
  have hsymbol : f.isSymbol = false := by
    cases f with
    | ref tag i => cases tag <;> first | rfl | cases hf
    | _ => rfl
  unfold compileForm
  rw [hsymbol, if_neg Bool.false_ne_true, heap_bind, hf]
  rfl

/-- A form whose head is declared a function is compiled as a call. -/
theorem compileForm_of_declares {f x args : Value} {a : Arity} {tail : Bool}
    (hf : s.heap.pair? f = some (x, args)) (hspecial : s.known.special? x = none)
    (hx : s.heap.Declares x a) :
    compileForm call walk form f tail d s = compileCall form x args tail d s := by
  rw [compileForm_pair hf, hspecial]
  dsimp only
  rw [comp_bind, expander?_of_declares hx]

/-- The forms of a unit are compiled from a draft without remarks, and what has been found then is
looked through. -/
theorem compileUnit_ok {forms target : Value} (h : compileUnit form forms target s = .ok kept s') :
    ∃ items place s₁ d₁ t t', s.heap.items? forms = some items ∧ s₁.heap = s.heap ∧
      s₁.known = s.known ∧
      compileForms form items ⟨.new target [.frame], #[], [], place⟩ s₁ = .ok ((), d₁) t ∧
      settle d₁.warnings t = .ok kept t' := by
  unfold compileUnit CellLisp.withRoots at h
  dsimp only at h
  split at h
  · rename_i kept t' hact
    cases h
    obtain ⟨_, s₁, h₁, hact⟩ := exists_of_bind_eq_ok hact
    obtain ⟨_, s₂, h₂, hact⟩ := exists_of_bind_eq_ok hact
    obtain ⟨place, s₃, h₃, hact⟩ := exists_of_bind_eq_ok hact
    obtain rfl := (gives_protect (E := fun _ => True)).of_ok h₁
    obtain rfl := (gives_protect (E := fun _ => True)).of_ok h₂
    obtain rfl := (gives_protect (E := fun _ => True)).of_ok h₃
    obtain ⟨items?, t, hitems, hact⟩ := exists_of_bind_eq_ok hact
    cases hitems
    dsimp only at hact
    cases hitems : s.heap.items? forms with
    | none =>
        rw [hitems] at hact
        cases hact
    | some items =>
        rw [hitems] at hact
        obtain ⟨⟨_, d₁⟩, t, hforms, hsettle⟩ := exists_of_bind_eq_ok hact
        exact ⟨items, place, { s with roots := ((s.roots.push forms).push target).push .nil }, d₁, t, t',
          rfl, rfl, rfl, hforms, hsettle⟩
  · cases h

/-- The first form of a unit is compiled before the others. -/
theorem compileForms_cons (h : FormRemarks call form) {items : Array Value} {f : Value} {rest : List Value}
    (hitems : items.toList = f :: rest) : ∃ later : Comp Unit, Remarks call later ∧
      compileForms form items = form f false >>= fun _ => later := by
  unfold compileForms
  rw [hitems]
  cases rest with
  | nil => exact ⟨op' .ret 0 .nil, remarks_op' _ _ _, rfl⟩
  | cons g rest =>
      refine ⟨do compileBody form false (g :: rest); op' .ret 0 .nil, ?_, ?_⟩
      · exact .bind (remarks_compileBody h _ _) fun _ => remarks_op' _ _ _
      · rw [compileBody, bind_assoc]
        nofun

end Units

end Comp

section Compiling

variable {call : Caller}

/-- Wherever in a unit a call of a declared function stands that nothing in scope has the name of:
when the unit is done, a remark on the call is among those that are reported exactly if the arity
does not accept so many arguments. -/
theorem compileTo_reports_iff {f x args : Value} {items : Array Value} {a : Arity} {n : Nat}
    {tail : Bool} {d d' d'' : Draft} {s s' t t' : State} {kept : List Warning}
    (hf : s.heap.pair? f = some (x, args)) (hargs : s.heap.items? args = some items)
    (hspecial : s.known.special? x = none) (hx : s.heap.Declares x a)
    (hbinds : d.scope.binds x = false) (hdue : ∀ w ∈ d.warnings, w.Due)
    (hok : Comp.compileTo call n f tail d s = .ok ((), d') s') (hnotes : d'.Notes d'')
    (hsettle : Comp.settle d''.warnings t = .ok kept t') :
    ⟨.arity a items.size, s.heap.symbolName x⟩ ∈ kept ↔ a.accepts items.size = false := by
  obtain ⟨hkept, hback⟩ := Comp.mem_of_settle hsettle
  have hdue' := hnotes.due (((Comp.remarks_compileTo n f tail).notes d s _ s' hok).due hdue)
  cases n with
  | zero => cases hok
  | succ n =>
      have hcall := (Comp.compileForm_of_declares hf hspecial hx).symm.trans hok
      have hiff := Comp.compileCall_reports_iff (Comp.remarks_compileTo n) hx hbinds hargs hdue hcall
      refine ⟨fun hw => hdue' _ (hback _ hw) a items.size rfl, fun hrejects => ?_⟩
      exact hkept _ (hnotes.mem (hiff.2 hrejects)) nofun

/-- So it is for a unit that begins with such a call. -/
theorem compile_reports_iff {forms target f x args : Value} {items : Array Value}
    {rest : List Value} {a : Arity} {s s' : State} {kept : List Warning}
    (hforms : (s.heap.items? forms).map Array.toList = some (f :: rest))
    (hf : s.heap.pair? f = some (x, args)) (hargs : s.heap.items? args = some items)
    (hspecial : s.known.special? x = none) (hx : s.heap.Declares x a)
    (hok : compile call forms target s = .ok kept s') :
    ⟨.arity a items.size, s.heap.symbolName x⟩ ∈ kept ↔ a.accepts items.size = false := by
  unfold compile at hok
  rw [act_bind, act_gets] at hok
  dsimp only at hok
  obtain ⟨forms', place, s₁, d₁, t, t', hforms', hheap, hknown, hcompile, hsettle⟩ :=
    Comp.compileUnit_ok hok
  rw [hforms'] at hforms
  obtain ⟨later, hlater, hfirst⟩ := Comp.compileForms_cons
    (Comp.remarks_compileTo s.config.depthLimit) (Option.some.inj hforms)
  rw [hfirst] at hcompile
  obtain ⟨⟨_, d₂⟩, t₂, hcompiled, hcompile⟩ := exists_of_bind_eq_ok hcompile
  rw [← hheap] at hf hargs hx ⊢
  rw [← hknown] at hspecial
  have hnone : ∀ w ∈ (#[] : Array Warning), w.Due := fun w hw => absurd hw (Array.not_mem_empty w)
  exact compileTo_reports_iff hf hargs hspecial hx rfl hnone hcompiled
    (hlater.notes _ _ _ _ hcompile) hsettle

end Compiling

end CellLisp
