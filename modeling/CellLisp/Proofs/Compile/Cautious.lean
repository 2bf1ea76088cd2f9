import CellLisp.Compile.Form
import CellLisp.Proofs.State.Act

/-!
# `CellLisp.Proofs.Compile.Cautious` — compiling with caution

A compiler that calls procedures, and compiles the forms within a form, as another one does or stops
for good does itself what the other one does or stops for good (`cautious_compileForm`).

    Cautious act' act     an action does what another one does, unless it stops for good
    Comp.Cautious         a step of a compilation does
-/

namespace CellLisp

/-- An action does what another one does, unless it stops for good. -/
def Cautious {α : Type} (act' act : Act α) : Prop :=
  ∀ s, act' s = act s ∨ ∃ cause t, act' s = .error (.fatal cause) t

namespace Cautious

variable {α β : Type} {x' x : Act α} {f' f : α → Act β}

theorem refl (act : Act α) : Cautious act act := fun _ => .inl rfl

theorem halt (cause : Fatal) : Cautious (CellLisp.halt cause) x := fun s => .inr ⟨cause, s, rfl⟩

theorem bind (hx : Cautious x' x) (hf : ∀ a, Cautious (f' a) (f a)) :
    Cautious (x' >>= f') (x >>= f) := by
  intro s
  rw [act_bind, act_bind]
  rcases hx s with he | ⟨cause, t, he⟩
  · rw [he]
    cases x s with
    | ok a t => exact hf a t
    | error c t => exact .inl rfl
  · rw [he]
    exact .inr ⟨cause, t, rfl⟩

theorem withRoots (hx : Cautious x' x) :
    Cautious (CellLisp.withRoots x') (CellLisp.withRoots x) := by
  intro s
  unfold CellLisp.withRoots
  rcases hx s with he | ⟨cause, t, he⟩
  · rw [he]
    exact .inl rfl
  · rw [he]
    exact .inr ⟨cause, _, rfl⟩

end Cautious

/-- A step of a compilation does what another one does, unless it stops for good. -/
def Comp.Cautious {α : Type} (act' act : Comp α) : Prop :=
  ∀ draft, CellLisp.Cautious (act' draft) (act draft)

namespace Comp

namespace Cautious

variable {α β : Type} {x' x : Comp α} {f' f : α → Comp β}

theorem refl (act : Comp α) : Cautious act act := fun _ => .refl _

theorem halt (cause : Fatal) : Cautious (liftM (CellLisp.halt cause : Act α)) x :=
  fun _ s => .inr ⟨cause, s, rfl⟩

theorem bind (hx : Cautious x' x) (hf : ∀ a, Cautious (f' a) (f a)) :
    Cautious (x' >>= f') (x >>= f) :=
  fun draft => CellLisp.Cautious.bind (hx draft) fun p => hf p.1 p.2

/-- The same step first. -/
theorem andThen (x : Comp α) (hf : ∀ a, Cautious (f' a) (f a)) : Cautious (x >>= f') (x >>= f) :=
  bind (refl x) hf

theorem lift {act' act : Act α} (h : CellLisp.Cautious act' act) :
    Cautious (liftM act' : Comp α) (liftM act) :=
  fun _ => h.bind fun _ => .refl _

theorem withRoots (hx : Cautious x' x) : Cautious (Comp.withRoots x') (Comp.withRoots x) :=
  fun draft => CellLisp.Cautious.withRoots (hx draft)

theorem ite {p : Prop} [Decidable p] {y' y : Comp α} (hx : Cautious x' x) (hy : Cautious y' y) :
    Cautious (if p then x' else y') (if p then x else y) := by
  split
  · exact hx
  · exact hy

/-- A step that is checked first. -/
theorem checked (hx : Cautious x' x) (g : State → Bool) (cause : Fatal) :
    Cautious (do
      if ← gets g then CellLisp.halt cause
      x') x := by
  intro draft s
  have hlook : (do
      if ← gets g then CellLisp.halt cause
      x' : Comp α) draft s = if g s then .error (.fatal cause) s else x' draft s := by
    change (if g s then _ else _ : Comp α) draft s = _
    cases g s with
    | true => rfl
    | false => rfl
  rw [hlook]
  split
  · exact .inr ⟨cause, s, rfl⟩
  · exact hx draft s

theorem forM {xs : List α} {g' g : α → Comp Unit} (hg : ∀ a, Cautious (g' a) (g a)) :
    Cautious (xs.forM g') (xs.forM g) := by
  induction xs with
  | nil => exact refl _
  | cons a xs ih => exact bind (hg a) fun _ => ih

theorem foldlM {xs : List α} {b : β} {g' g : β → α → Comp β}
    (hg : ∀ b a, Cautious (g' b a) (g b a)) : Cautious (xs.foldlM g' b) (xs.foldlM g b) := by
  induction xs generalizing b with
  | nil => exact refl _
  | cons a xs ih =>
      rw [List.foldlM_cons, List.foldlM_cons]
      exact bind (hg b a) fun _ => ih

end Cautious

section Compiler

variable {form' form : FormCompiler} {call' call : Caller} {walk' walk : Walker} {tail : Bool}
  {head args name value : Value} {body : List Value}

/-- Forms are compiled as by another compiler, or it stops for good. -/
def FormCautious (form' form : FormCompiler) : Prop :=
  ∀ f tail, Cautious (form' f tail) (form f tail)

/-! ## Constructs -/

theorem cautious_compileSet (h : FormCautious form' form) :
    Cautious (compileSet form' name value) (compileSet form name value) := by
  unfold compileSet
  refine .andThen _ fun s => .ite (.andThen _ fun _ => ?_) ?_
  · exact .bind (h value false) fun _ => .refl _
  · exact .bind (h value false) fun _ => .refl _

theorem cautious_compileBody (h : FormCautious form' form) :
    Cautious (compileBody form' tail body) (compileBody form tail body) := by
  induction body with
  | nil => exact .refl _
  | cons f rest ih =>
      cases rest with
      | nil => exact h f tail
      | cons g rest => exact .bind (h f false) fun _ => ih

theorem cautious_compileOptional (h : FormCautious form' form) {f? : Option Value} :
    Cautious (compileOptional form' tail f?) (compileOptional form tail f?) := by
  cases f? with
  | none => exact .refl _
  | some f => exact h f tail

theorem cautious_compileIf (h : FormCautious form' form) {test yes : Value} {no : Option Value} :
    Cautious (compileIf form' test yes no tail) (compileIf form test yes no tail) := by
  refine .bind (h test false) fun _ => .andThen _ fun _ => .bind (h yes tail) fun _ => ?_
  exact .andThen _ fun _ => .andThen _ fun _ => .bind (cautious_compileOptional h) fun _ => .refl _

theorem cautious_compileLoop (h : FormCautious form' form) :
    Cautious (compileLoop form' body) (compileLoop form body) :=
  .andThen _ fun _ => .bind (.forM fun f => h f false) fun _ => .refl _

theorem cautious_compileLet (h : FormCautious form' form) {list : Value} :
    Cautious (compileLet form' head list body tail) (compileLet form head list body tail) := by
  refine .andThen _ fun bs => .bind (.forM fun b => .bind (h b.2 false) fun _ => .refl _) fun _ => ?_
  exact .andThen _ fun _ => .bind (cautious_compileBody h) fun _ => .refl _

theorem cautious_compileDynamicLet (h : FormCautious form' form) {list : Value} :
    Cautious (compileDynamicLet form' head list body) (compileDynamicLet form head list body) := by
  refine .andThen _ fun bs => .bind (.forM fun b => ?_) fun _ => .bind (cautious_compileBody h) fun _ => .refl _
  refine .andThen _ fun s => .ite (.andThen _ fun _ => ?_) ?_
  · exact .bind (h b.2 false) fun _ => .refl _
  · exact .bind (h b.2 false) fun _ => .refl _

theorem cautious_compileWithCont (h : FormCautious form' form) :
    Cautious (compileWithCont form' name body) (compileWithCont form name body) :=
  .andThen _ fun _ => .andThen _ fun _ => .bind (cautious_compileBody h) fun _ => .refl _

theorem cautious_compileExit (h : FormCautious form' form) {value : Option Value} :
    Cautious (compileExit form' name value) (compileExit form name value) := by
  refine .andThen _ fun s => ?_
  cases s.resolveCont name with
  | none => exact .refl _
  | some place => exact .bind (cautious_compileOptional h) fun _ => .refl _

theorem cautious_compileProcedure (h : FormCautious form' form) {inner : Scope} {variadic : Bool}
    {fixed : Nat} :
    Cautious (compileProcedure form' inner variadic fixed body)
      (compileProcedure form inner variadic fixed body) := by
  unfold compileProcedure
  refine .andThen _ fun outer => .andThen _ fun _ => .ite (.andThen _ fun _ => ?_) ?_
  · exact .bind (cautious_compileBody h) fun _ => .refl _
  · exact .bind (cautious_compileBody h) fun _ => .refl _

/-- A walk finds what another one finds, or it stops for good. -/
def WalkCautious (walk' walk : Walker) : Prop :=
  ∀ bound c v, Cautious (walk' bound c v) (walk bound c v)

theorem cautious_compileLambda (h : FormCautious form' form) (hwalk : WalkCautious walk' walk)
    {params : Value} :
    Cautious (compileLambda form' walk' name params body) (compileLambda form walk name params body) := by
  unfold compileLambda
  refine .andThen _ fun p => .andThen _ fun a => .andThen _ fun hp => ?_
  refine .bind (.foldlM fun c v => hwalk _ c v) fun captures => .withRoots ?_
  refine .andThen _ fun code => .andThen _ fun _ => ?_
  exact .bind (cautious_compileProcedure h) fun _ => .refl _

theorem cautious_compileCall (h : FormCautious form' form) :
    Cautious (compileCall form' head args tail) (compileCall form head args tail) := by
  refine .andThen _ fun items? => ?_
  cases items? with
  | none => exact .refl _
  | some items =>
      refine .andThen _ fun _ => .bind ?_ fun _ => .bind (h head false) fun _ => .refl _
      rw [Array.forM_eq_forM, Array.forM_eq_forM]
      obtain ⟨items⟩ := items
      rw [List.forM_toArray, List.forM_toArray]
      exact .forM fun a => .bind (h a false) fun _ => .refl _

/-! ## Units -/

theorem cautious_compileUnit (h : FormCautious form' form) (forms target : Value) :
    CellLisp.Cautious (compileUnit form' forms target) (compileUnit form forms target) := by
  refine .withRoots (.bind (.refl _) fun _ => .bind (.refl _) fun _ => .bind (.refl _) fun place => ?_)
  refine .bind (.refl _) fun items? => ?_
  cases items? with
  | none => exact .refl _
  | some items =>
      have hbody : Cautious (do compileBody form' false items.toList; op' .ret 0 .nil)
          (do compileBody form false items.toList; op' .ret 0 .nil) :=
        .bind (cautious_compileBody h) fun _ => .refl _
      exact .bind (hbody _) fun _ => .refl _

/-- Procedures are called as by another caller, or it stops for good. -/
def CallCautious (call' call : Caller) : Prop :=
  ∀ procedure args, CellLisp.Cautious (call' procedure args) (call procedure args)

theorem cautious_compileComptime (hcall : CallCautious call' call) (h : FormCautious form' form)
    {body : Value} :
    Cautious (compileComptime call' form' body) (compileComptime call form body) := by
  refine .bind (.lift (.withRoots (.bind (.refl _) fun known => ?_))) fun _ => .refl _
  refine .bind (.refl _) fun unit => .bind (.refl _) fun _ => .bind (.refl _) fun sequence => ?_
  refine .bind (.refl _) fun _ => .bind (.refl _) fun forms => ?_
  exact .bind (cautious_compileUnit h forms unit) fun _ => hcall unit #[]

theorem cautious_expand (hcall : CallCautious call' call) (expander f : Value) :
    Cautious (expand call' expander f) (expand call expander f) := by
  refine .andThen _ fun d => ?_
  cases d.expansions.lookup f with
  | some expansion => exact .refl _
  | none => exact .andThen _ fun args => .bind (.lift (hcall expander args)) fun _ => .refl _

/-! ## Walks -/

theorem cautious_walkTails (hwalk : WalkCautious walk' walk) (bound : Bound) {n : Nat}
    {c : Captures} {list : Value} :
    Cautious (Captures.walkTails walk' bound n c list) (Captures.walkTails walk bound n c list) := by
  induction n generalizing c list with
  | zero => exact .refl _
  | succ n ih =>
      refine .andThen _ fun p => ?_
      cases p with
      | none => exact .refl _
      | some p => exact .bind (hwalk bound c p.1) fun _ => ih

theorem cautious_walkAll (hwalk : WalkCautious walk' walk) (bound : Bound) (c : Captures)
    (list : Value) :
    Cautious (Captures.walkAll walk' bound c list) (Captures.walkAll walk bound c list) :=
  .andThen _ fun _ => cautious_walkTails hwalk bound

theorem cautious_walkBindings (hwalk : WalkCautious walk' walk) (bound : Bound) (c : Captures)
    (lexical : Bool) :
    Cautious (Captures.walkBindings walk' bound c lexical head args)
      (Captures.walkBindings walk bound c lexical head args) :=
  .andThen _ fun p => .andThen _ fun _ => .bind (.foldlM fun c b => hwalk bound c b.2) fun c =>
    cautious_walkAll hwalk _ c p.2

theorem cautious_walkLambda (hwalk : WalkCautious walk' walk) (bound : Bound) (c : Captures) :
    Cautious (Captures.walkLambda walk' bound c head args)
      (Captures.walkLambda walk bound c head args) := by
  refine .andThen _ fun ps => ?_
  rcases ps with - | ⟨name, - | ⟨params, body⟩⟩
  · exact .refl _
  · exact .refl _
  · exact .andThen _ fun p => .foldlM fun c v => hwalk _ c v

theorem cautious_walkCall (hcall : CallCautious call' call) (hwalk : WalkCautious walk' walk)
    (bound : Bound) (c : Captures) (f : Value) :
    Cautious (Captures.walkCall call' walk' bound c f head args)
      (Captures.walkCall call walk bound c f head args) := by
  have hexpanded (e : Value) : Cautious (do walk' bound c (← expand call' e f))
      (do walk bound c (← expand call e f)) :=
    .bind (cautious_expand hcall e f) fun v => hwalk bound c v
  have hplain : Cautious
      (do
        let special ← gets fun s => (s.known.special? head).isSome
        Captures.walkAll walk' bound c (if special then args else f))
      (do
        let special ← gets fun s => (s.known.special? head).isSome
        Captures.walkAll walk bound c (if special then args else f)) :=
    .andThen _ fun special => cautious_walkAll hwalk bound c _
  unfold Captures.walkCall
  refine .ite (.andThen _ fun expander? => ?_) (.andThen _ fun expander? => ?_)
  · cases expander? with
    | none => exact hplain
    | some e => exact hexpanded e
  · cases expander? with
    | none => exact hplain
    | some e => exact hexpanded e

theorem cautious_walkForm (hcall : CallCautious call' call) (hwalk : WalkCautious walk' walk) :
    WalkCautious (Captures.walkForm call' walk') (Captures.walkForm call walk) := by
  intro bound c f
  refine .ite (.refl _) (.andThen _ fun p => ?_)
  cases p with
  | none => exact .refl _
  | some p =>
      refine .andThen _ fun special => ?_
      cases special with
      | none => exact cautious_walkCall hcall hwalk bound c f
      | some special =>
          cases special with
          | quote | comptime => exact .refl _
          | bind => exact cautious_walkBindings hwalk bound c true
          | dynamicBind => exact cautious_walkBindings hwalk bound c false
          | lambda => exact cautious_walkLambda hwalk bound c
          | withCont => exact .andThen _ fun p => cautious_walkAll hwalk _ c p.2
          | exit => exact .andThen _ fun p => .andThen _ fun s => cautious_walkAll hwalk bound _ p.2
          | cond | sequence | assign | loop => exact cautious_walkCall hcall hwalk bound c f

theorem cautious_walkTo (hcall : CallCautious call' call) (n : Nat) :
    WalkCautious (Captures.walkTo call' n) (Captures.walkTo call n) := by
  induction n with
  | zero => exact fun _ _ _ => .refl _
  | succ n ih => exact cautious_walkForm hcall ih

/-! ## Any form -/

theorem cautious_compileSpecial (hcall : CallCautious call' call) (hwalk : WalkCautious walk' walk)
    (h : FormCautious form' form) (special : SpecialForm) (whole : Value) :
    Cautious (compileSpecial call' walk' form' special head args whole tail)
      (compileSpecial call walk form special head args whole tail) := by
  unfold compileSpecial
  refine .andThen _ fun ps => ?_
  split
  · exact .refl _
  · exact cautious_compileIf h
  · exact cautious_compileIf h
  · exact cautious_compileBody h
  · exact .ite (cautious_compileSet h) (.refl _)
  · exact cautious_compileLet h
  · exact cautious_compileDynamicLet h
  · exact cautious_compileComptime hcall h
  · exact .ite (cautious_compileLambda h hwalk) (.refl _)
  · exact .ite (cautious_compileWithCont h) (.refl _)
  · exact .ite (cautious_compileExit h) (.refl _)
  · exact .ite (cautious_compileExit h) (.refl _)
  · exact cautious_compileLoop h
  · exact .refl _

theorem cautious_compileForm (hcall : CallCautious call' call) (hwalk : WalkCautious walk' walk)
    (h : FormCautious form' form) :
    FormCautious (compileForm call' walk' form') (compileForm call walk form) := by
  intro f tail
  refine .ite (.refl _) (.andThen _ fun p => ?_)
  cases p with
  | none => exact .refl _
  | some p =>
      refine .andThen _ fun special? => ?_
      cases special? with
      | some special => exact cautious_compileSpecial hcall hwalk h special f
      | none =>
          refine .andThen _ fun expander? => ?_
          cases expander? with
          | none => exact cautious_compileCall h
          | some e => exact .bind (cautious_expand hcall e f) fun v => h v tail

end Compiler

end Comp

end CellLisp
