import CellLisp.Proofs.Compile.Copies
import CellLisp.Proofs.Compile.Parameters
import CellLisp.Proofs.Reference.Evaluation

/-!
# `CellLisp.Proofs.Reference.Source` — forms as they are written

A form is a structure of pairs in the heap.  `Denotes h k C ns f e`: where the names `ns` are bound,
the form `f` says what the `Core` `e` does.  A `Core` leaves open what a procedure's code is; `C`
says of which procedure a value is the code.

| written | |
| :-- | :-- |
| symbol | the variable; a global that is a constant with a value is that value |
| `(quote x)` | a constant |
| `let` | initial forms under the names around, the body under its own too |
| `dynamic-let` | one initial form after the other; its names are those of globals from then on |
| `named-lambda` | the body under the parameters and under what is copied: every name bound around that occurs in it (`Heap.Free`) |
| `with-cont`, `exit` | names of continuations |
| anything else in parentheses | a call |
-/

namespace CellLisp

namespace Reference

/-! ## Names -/

/-- A name of a variable or of a continuation. -/
inductive Mention where
  | var (name : Value)
  | cont (name : Value)
  deriving DecidableEq

/-- Which names are bound lexically. -/
abbrev Names := Mention → Bool

namespace Names

/-- None is. -/
def none : Names := fun _ => false

/-- Some more are. -/
def bind (rs : List Mention) (ns : Names) : Names := fun r => decide (r ∈ rs) || ns r

/-- The variable of a name is not, since a dynamic binding of the name is in between. -/
def hide (x : Value) (ns : Names) : Names := fun r => r != .var x && ns r

/-- What a part and what comes after it leave. -/
def post (ns : Names) : Post → Names
  | .next | .push => ns
  | .bind x => ns.hide x

end Names

end Reference

open Reference

/-- The names that are copied. -/
def Captures.mentions (c : Captures) : List Mention := c.conts.map .cont ++ c.vars.map .var

/-- What is bound in the body of a procedure. -/
def Reference.Names.body (params : List Value) (c : Captures) : Names :=
  .bind (params.map .var) (.bind c.mentions .none)

/-! ## Names in scope -/

namespace Scope

/-- The names that a scope binds. -/
def names (s : Scope) : Names
  | .var x => s.binds x
  | .cont k => (s.resolveCont k).isSome

variable (s : Scope) (x : Value)

/-- Whether an entry of a name is a variable, if there is one; `copied` if there is none. -/
def bindsIn (copied : Bool) (es : List Entry) : Bool :=
  match findEntry x 0 es with
  | some place => place != .global
  | none => copied

theorem binds_eq : s.binds x =
    bindsIn x ((s.closedVars.idxOf? x).isSome && s.envOffset.isSome) s.entries := by
  unfold binds resolve bindsIn
  cases findEntry x 0 s.entries with
  | some place => rfl
  | none =>
      cases s.closedVars.idxOf? x with
      | none => rfl
      | some i =>
          cases s.envOffset with
          | none => rfl
          | some offset => exact bne_iff_ne.2 (by simp)

theorem bindsIn_cons (copied : Bool) (e : Entry) (es : List Entry) :
    bindsIn x copied (e :: es) = match e with
      | .var y => decide (y = x) || bindsIn x copied es
      | .dynamic y => decide (y ≠ x) && bindsIn x copied es
      | _ => bindsIn x copied es := by
  have hshift : ∀ o, (match findEntry x o es with
      | some place => place != .global
      | none => copied) = bindsIn x copied es := by
    intro o
    have hsame := findEntry_shift x es o 0
    unfold bindsIn
    cases h : findEntry x o es with
    | none =>
        rw [h] at hsame
        have hnone : findEntry x 0 es = none := by simpa using hsame.2.symm
        rw [hnone]
    | some p =>
        rw [h] at hsame
        obtain ⟨q, hq⟩ := Option.isSome_iff_exists.1 (hsame.2.symm.trans rfl)
        rw [hq] at hsame ⊢
        have hglobal : p = .global ↔ q = .global := by simpa using hsame.1
        simp only [bne, beq_eq_decide, decide_eq_decide.2 hglobal]
  cases e with
  | var y =>
      by_cases h : y = x
      · simp [bindsIn, findEntry, h, bne]
      · simpa [bindsIn, findEntry, h] using hshift 1
  | dynamic y =>
      by_cases h : y = x
      · simp [bindsIn, findEntry, h]
      · simp [bindsIn, findEntry, h]
  | frame => exact hshift 3
  | env | temp => exact hshift 1

/-- The parameters of a procedure. -/
theorem bindsIn_params (copied : Bool) (params : List Value) :
    bindsIn x copied (params.map Entry.var).reverse = (decide (x ∈ params) || copied) := by
  induction params using List.reverseRecOn with
  | nil => simp [bindsIn, findEntry]
  | append_singleton ps p ih =>
      rw [List.map_append, List.reverse_append, List.map_singleton, List.reverse_singleton,
        List.singleton_append, bindsIn_cons, ih]
      by_cases h : x = p
      · simp [h]
      · simp [h, Ne.symm h]

/-- Entries other than an environment do not matter to continuations. -/
theorem isSome_resolveCont_append (k : Value) {es : List Entry} (hes : ∀ e ∈ es, e ≠ .env) :
    (({ s with entries := es ++ s.entries } : Scope).resolveCont k).isSome
      = (s.resolveCont k).isSome := by
  have henv : (({ s with entries := es ++ s.entries } : Scope).envOffset).isSome
      = s.envOffset.isSome := by
    have hnot : Entry.env ∉ es := fun h => hes _ h rfl
    simp [envOffset, isSome_findEnv, hnot]
  simp only [resolveCont]
  cases s.conts.idxOf? k with
  | some i => rfl
  | none =>
      cases s.closedConts.idxOf? k with
      | none => rfl
      | some i =>
          cases h : (({ s with entries := es ++ s.entries } : Scope).envOffset) <;>
            cases h' : s.envOffset <;> simp [h, h'] at henv ⊢

theorem binds_cons {e : Entry} (he : e ≠ .env) (x : Value) :
    ({ s with entries := e :: s.entries } : Scope).binds x = match e with
      | .var y => decide (y = x) || s.binds x
      | .dynamic y => decide (y ≠ x) && s.binds x
      | _ => s.binds x := by
  have henv : (({ s with entries := e :: s.entries } : Scope).envOffset).isSome
      = s.envOffset.isSome := by
    simp [envOffset, isSome_findEnv, Ne.symm he]
  rw [binds_eq, henv, bindsIn_cons, s.binds_eq]
  cases e <;> rfl

theorem names_cons {e : Entry} (he : e ≠ .env) :
    ({ s with entries := e :: s.entries } : Scope).names = match e with
      | .var x => .bind [.var x] s.names
      | .dynamic x => s.names.hide x
      | _ => s.names := by
  have hconts : ∀ k, (({ s with entries := e :: s.entries } : Scope).resolveCont k).isSome
      = (s.resolveCont k).isSome := fun k =>
    s.isSome_resolveCont_append k (show ∀ e' ∈ [e], e' ≠ .env by simpa using he)
  funext r
  cases r with
  | cont k => cases e <;> simp [names, hconts, Names.bind, Names.hide]
  | var y =>
      cases e with
      | var x | dynamic x =>
          by_cases h : y = x
          · simp [names, s.binds_cons he, Names.bind, Names.hide, h]
          · simp [names, s.binds_cons he, Names.bind, Names.hide, h, Ne.symm h, bne]
      | env | frame | temp => simp [names, s.binds_cons he]

theorem names_post (p : Post) : (s.post p).names = s.names.post p := by
  cases p with
  | next => rfl
  | push => exact s.names_cons (e := .temp) Entry.noConfusion
  | bind x => exact s.names_cons (e := .dynamic x) Entry.noConfusion

theorem names_posts_push {α : Type} (xs : List α) :
    (s.posts (xs.map fun _ => .push)).names = s.names := by
  induction xs generalizing s with
  | nil => rfl
  | cons x xs ih => exact (ih (s.post .push)).trans (s.names_post .push)

theorem names_posts (ps : List Post) : (s.posts ps).names = ps.foldl Names.post s.names := by
  induction ps generalizing s with
  | nil => rfl
  | cons p ps ih =>
      refine (ih (s.post p)).trans ?_
      rw [names_post]
      rfl

theorem names_vars (xs : List Value) :
    ({ s with entries := (xs.map Entry.var).reverse ++ s.entries } : Scope).names
      = .bind (xs.map .var) s.names := by
  induction xs generalizing s with
  | nil => funext r; simp [Names.bind]
  | cons x xs ih =>
      rw [List.map_cons, List.reverse_cons, List.append_assoc, List.singleton_append]
      refine (ih { s with entries := .var x :: s.entries }).trans ?_
      rw [s.names_cons (e := .var x) Entry.noConfusion]
      funext r
      by_cases hr : r = .var x <;> simp [Names.bind, hr]

/-- Variables on the top. -/
theorem names_nameTop (xs : List Value) :
    ((s.posts (xs.map fun _ => .push)).nameTop xs).names = .bind (xs.map .var) s.names := by
  have hentries := s.entries_nameTop_posts xs
  rw [s.posts_eq] at hentries ⊢
  have hscope : ({ s with entries := (s.posts (xs.map fun _ => .push)).entries } : Scope).nameTop xs
      = { s with entries := (xs.map Entry.var).reverse ++ s.entries } := by
    rw [← hentries]
    rfl
  rw [hscope, names_vars]

/-- A continuation more. -/
theorem names_conts (k : Value) :
    ({ s with conts := k :: s.conts } : Scope).names = .bind [.cont k] s.names := by
  funext r
  cases r with
  | var x => simp only [Names.bind, names, List.mem_singleton, reduceCtorEq, decide_false, Bool.false_or]; rfl
  | cont l =>
      by_cases h : l = k
      · simp [names, resolveCont, Names.bind, h, List.idxOf?_cons]
      · simp only [names, resolveCont, Names.bind, List.idxOf?_cons, beq_eq_false_iff_ne.2 (Ne.symm h),
          Bool.false_eq_true, if_false, List.mem_singleton, Mention.cont.injEq, h, decide_false,
          Bool.false_or]
        cases s.conts.idxOf? l <;> rfl

/-- In a unit nothing is bound. -/
theorem names_unit (code : Value) : (Scope.new code [.frame]).names = .none := by
  funext r
  cases r <;> rfl

/-- In a procedure its parameters are, and what it copies. -/
theorem names_procedureScope (code : Value) (params : List Value) (c : Captures) :
    (Comp.procedureScope code params c).names = .body params c := by
  have henv : ((Comp.procedureScope code params c).envOffset).isSome = decide (c.count ≠ 0) := by
    by_cases h : c.count = 0 <;> simp [envOffset, isSome_findEnv, Comp.procedureScope, h]
  -- what is copied makes an environment
  have hcopied : ∀ {l : List Value} (x : Value), l.length ≤ c.count →
      ((l.idxOf? x).isSome && decide (c.count ≠ 0)) = decide (x ∈ l) := by
    intro l x hl
    by_cases hx : x ∈ l
    · have hpos := List.length_pos_of_mem hx
      have hne : c.count ≠ 0 := by omega
      simp [hx, hne]
    · simp [hx]
  funext r
  cases r with
  | var x =>
      have hvars := hcopied (l := c.vars) x (by simp [Captures.count])
      have htop : ∀ copied, bindsIn x copied (Comp.procedureScope code params c).entries
          = (decide (x ∈ params) || copied) := by
        intro copied
        simp only [Comp.procedureScope]
        split <;> simp only [List.cons_append, List.nil_append, bindsIn_cons, bindsIn_params]
      rw [names, binds_eq, henv, htop]
      refine (congrArg _ hvars).trans ?_
      simp [Names.body, Names.bind, Names.none, Captures.mentions]
  | cont k =>
      have hconts := hcopied (l := c.conts) k (by simp [Captures.count])
      have hfound : ((Comp.procedureScope code params c).resolveCont k).isSome
          = ((c.conts.idxOf? k).isSome && decide (c.count ≠ 0)) := by
        rw [← henv]
        simp only [resolveCont, show (Comp.procedureScope code params c).conts = [] from rfl,
          show (Comp.procedureScope code params c).closedConts = c.conts from rfl, List.idxOf?_nil]
        cases c.conts.idxOf? k <;>
          cases (Comp.procedureScope code params c).envOffset <;> rfl
      rw [names, hfound, hconts]
      simp [Names.body, Names.bind, Names.none, Captures.mentions]

end Scope

/-! ## Parts of forms -/

namespace Heap

/-- The bindings of a list of them. -/
def bindings? (h : Heap) (list : Value) : Option (List (Value × Value)) :=
  (h.items? list).bind fun items => items.toList.mapM (Comp.binding? h)

/-- The names of a parameter list. -/
def parameterNames (h : Heap) (params : Value) : List Value :=
  let (fixed, rest) := h.spine params
  if rest.isSymbol then rest :: fixed.toList else fixed.toList

/-- A value is an element along the tails of another one. -/
inductive Element (h : Heap) (u : Value) : Value → Prop
  | head {v tail : Value} : h.pair? v = some (u, tail) → Element h u v
  | tail {v head tail : Value} : h.pair? v = some (head, tail) → Element h u tail → Element h u v

/-- A special form with its parts. -/
def Special (h : Heap) (k : WellKnown) (f : Value) (special : SpecialForm) (ps : List Value) :
    Prop :=
  ∃ head args, h.pair? f = some (head, args) ∧ k.special? head = some special ∧
    h.items? args = some ps.toArray

/-- A form is a part of another one, which binds some names around it. -/
inductive Part (h : Heap) (k : WellKnown) (f : Value) : List Mention → Value → Prop
  /-- In a call, operator and arguments. -/
  | element {head args g : Value} : h.pair? f = some (head, args) → k.special? head = none →
      h.Element g f → Part h k f [] g
  | operand {head args g : Value} {special : SpecialForm} : h.pair? f = some (head, args) →
      k.special? head = some special → special ∈ [.cond, .sequence, .assign, .loop] →
      h.Element g args → Part h k f [] g
  | init {head args list body : Value} {special : SpecialForm} {bs : List (Value × Value)}
      {b : Value × Value} : h.pair? f = some (head, args) → k.special? head = some special →
      special ∈ [.bind, .dynamicBind] → h.pair? args = some (list, body) →
      h.bindings? list = some bs → b ∈ bs → Part h k f [] b.2
  | bindBody {head args list body g : Value} {bs : List (Value × Value)} :
      h.pair? f = some (head, args) → k.special? head = some .bind →
      h.pair? args = some (list, body) → h.bindings? list = some bs → h.Element g body →
      Part h k f (bs.map (.var ·.1)) g
  | dynamicBody {head args list body g : Value} : h.pair? f = some (head, args) →
      k.special? head = some .dynamicBind → h.pair? args = some (list, body) → h.Element g body →
      Part h k f [] g
  | lambdaBody {name params g : Value} {body : List Value} :
      h.Special k f .lambda (name :: params :: body) → g ∈ body →
      Part h k f ((h.parameterNames params).map .var) g
  | contBody {head args name body g : Value} : h.pair? f = some (head, args) →
      k.special? head = some .withCont → h.pair? args = some (name, body) → h.Element g body →
      Part h k f [.cont name] g
  | exitValue {head args name rest g : Value} : h.pair? f = some (head, args) →
      k.special? head = some .exit → h.pair? args = some (name, rest) → h.Element g rest →
      Part h k f [] g

/-- A name occurs in a form, and nothing in the form binds it there. -/
inductive Free (h : Heap) (k : WellKnown) : Mention → Value → Prop
  | symbol {x : Value} : x.isSymbol = true → Free h k (.var x) x
  | exit {f head args name rest : Value} : h.pair? f = some (head, args) →
      k.special? head = some .exit → h.pair? args = some (name, rest) → Free h k (.cont name) f
  | part {f g : Value} {r : Mention} {bound : List Mention} : h.Part k f bound g → r ∉ bound →
      Free h k r g → Free h k r f

/-- The value of a global that is a constant. -/
def constant? (h : Heap) (x : Value) : Option Value :=
  match h.symbol? x with
  | some r => if r.role = .constant then r.value else none
  | none => none

end Heap

/-! ## What forms say -/

namespace Reference

/-- A procedure copies what is bound around it and occurs in its body. -/
structure Copies (h : Heap) (k : WellKnown) (ns : Names) (params body : List Value)
    (c : Captures) : Prop where
  within : ∀ r ∈ c.mentions, ns r = true
  covers : ∀ g ∈ body, ∀ r, h.Free k r g → r ∉ params.map .var → ns r = true → r ∈ c.mentions

/-- Of which procedure, with which arity, a value is the code. -/
abbrev Coding := Value → Arity → Lambda → Prop

mutual

/-- A form says what a `Core` does, where some names are bound. -/
inductive Denotes (h : Heap) (k : WellKnown) (C : Coding) : Names → Value → Core → Prop
  | name {ns x} : x.isSymbol = true →
      Denotes h k C ns x (.ref x (if ns (.var x) then none else h.constant? x))
  | constant {ns v} : v.isSymbol = false → h.pair? v = none → Denotes h k C ns v (.const v)
  | quote {ns f x} : h.Special k f .quote [x] → Denotes h k C ns f (.const x)
  | cond {ns f test yes no a b d} : h.Special k f .cond [test, yes, no] →
      Denotes h k C ns test a → Denotes h k C ns yes b → Denotes h k C ns no d →
      Denotes h k C ns f (.cond a b d)
  | condTrue {ns f test yes a b} : h.Special k f .cond [test, yes] →
      Denotes h k C ns test a → Denotes h k C ns yes b →
      Denotes h k C ns f (.cond a b (.const .nil))
  | sequence {ns f body e} : h.Special k f .sequence body → DenotesBody h k C ns body e →
      Denotes h k C ns f e
  | assign {ns f x v e} : h.Special k f .assign [x, v] → x.isSymbol = true →
      Denotes h k C ns v e → Denotes h k C ns f (.assign x e)
  | bind {ns f list body bs es e} : h.Special k f .bind (list :: body) →
      h.bindings? list = some bs →
      DenotesAll h k C ns (bs.map fun _ => .push) (bs.map (·.2)) es →
      DenotesBody h k C (.bind (bs.map (.var ·.1)) ns) body e →
      Denotes h k C ns f (.bind (bs.map (·.1)) es e)
  | dynamicBind {ns f list body bs es e} : h.Special k f .dynamicBind (list :: body) →
      h.bindings? list = some bs →
      DenotesAll h k C ns (bs.map (.bind ·.1)) (bs.map (·.2)) es →
      DenotesBody h k C ((bs.map (.bind ·.1)).foldl Names.post ns) body e →
      Denotes h k C ns f (.dynBind (bs.map (·.1)) es e)
  | lambda {ns f name params body fixed rest copies e code arity} :
      h.Special k f .lambda (name :: params :: body) → (name.isSymbol || name.isNil) = true →
      h.Parameters params fixed rest →
      Copies h k ns (fixed ++ rest.toList) (Comp.splitDoc h body).2 copies →
      DenotesBody h k C (.body (fixed ++ rest.toList) copies) (Comp.splitDoc h body).2 e →
      C code arity ⟨fixed, rest, copies, e⟩ →
      Denotes h k C ns f (.lambda code copies k.makeClosure)
  | withCont {ns f name body e} : h.Special k f .withCont (name :: body) → name.isSymbol = true →
      DenotesBody h k C (.bind [.cont name] ns) body e → Denotes h k C ns f (.withCont name e)
  | exit {ns f name} : h.Special k f .exit [name] → name.isSymbol = true →
      ns (.cont name) = true → Denotes h k C ns f (.exit name (.const .nil))
  | exitWith {ns f name v e} : h.Special k f .exit [name, v] → name.isSymbol = true →
      ns (.cont name) = true → Denotes h k C ns v e → Denotes h k C ns f (.exit name e)
  | loop {ns f body es} : h.Special k f .loop body →
      DenotesAll h k C ns (body.map fun _ => .next) body es → Denotes h k C ns f (.loop es)
  | call {ns f head args items es e} : h.pair? f = some (head, args) → k.special? head = none →
      h.items? args = some items →
      DenotesAll h k C ns (items.toList.map fun _ => .push) items.toList es →
      Denotes h k C ns head e → Denotes h k C ns f (.call es e)

/-- So do forms in sequence. -/
inductive DenotesBody (h : Heap) (k : WellKnown) (C : Coding) : Names → List Value → Core → Prop
  | nil {ns} : DenotesBody h k C ns [] (.const .nil)
  | last {ns f e} : Denotes h k C ns f e → DenotesBody h k C ns [f] e
  | cons {ns f g rest e last} : Denotes h k C ns f e → DenotesBody h k C ns (g :: rest) last →
      DenotesBody h k C ns (f :: g :: rest) (.seq [e] last)

/-- So do parts, each with what comes after it. -/
inductive DenotesAll (h : Heap) (k : WellKnown) (C : Coding) :
    Names → List Post → List Value → List Core → Prop
  | nil {ns} : DenotesAll h k C ns [] [] []
  | cons {ns post posts f fs e es} : Denotes h k C ns f e →
      DenotesAll h k C (ns.post post) posts fs es →
      DenotesAll h k C ns (post :: posts) (f :: fs) (e :: es)

end

/-! ## What forms say is in scope -/

section Scoping

variable {h : Heap} {k : WellKnown} {C : Coding}

theorem DenotesAll.length {ns : Names} {posts : List Post} {fs : List Value} {es : List Core}
    (hes : DenotesAll h k C ns posts fs es) : posts.length = es.length := by
  induction es generalizing ns posts fs with
  | nil =>
      cases hes
      rfl
  | cons e es ih =>
      cases hes with
      | cons _ hrest => rw [List.length_cons, List.length_cons, ih hrest]

mutual

/-- What a form says is in scope where its names are bound. -/
theorem Denotes.ok : ∀ {ns : Names} {f : Value} {e : Core}, Denotes h k C ns f e →
    ∀ s : Scope, s.names = ns → e.Ok s
  | _, _, _, .name _, _, _ | _, _, _, .constant _ _, _, _ | _, _, _, .quote _, _, _ => trivial
  | _, _, _, .cond _ htest hyes hno, s, hs => ⟨htest.ok s hs, hyes.ok s hs, hno.ok s hs⟩
  | _, _, _, .condTrue _ htest hyes, s, hs => ⟨htest.ok s hs, hyes.ok s hs, trivial⟩
  | _, _, _, .sequence _ hbody, s, hs => hbody.ok s hs
  | _, _, _, .assign _ _ he, s, hs => he.ok s hs
  | _, _, _, .bind _ _ hinits hbody, s, hs =>
      ⟨by simpa using hinits.length, by simpa [Function.comp_def] using hinits.ok s hs,
        hbody.ok _ (by rw [Scope.names_nameTop, hs]; simp [Function.comp_def])⟩
  | _, _, _, .dynamicBind _ _ hinits hbody, s, hs =>
      ⟨by simpa using hinits.length, by simpa [Function.comp_def] using hinits.ok s hs,
        hbody.ok _ (by rw [Scope.names_posts, hs]; simp [Function.comp_def])⟩
  | _, _, _, .lambda _ _ _ hcopies _ _, s, hs => fun l hl => by
      have hin := hcopies.within (.cont l) (List.mem_append_left _ (List.mem_map_of_mem hl))
      rw [← hs] at hin
      exact hin
  | _, _, _, .withCont _ _ hbody, s, hs => hbody.ok _ ((s.names_conts _).trans (congrArg _ hs))
  | _, _, _, .exit _ _ hin, s, hs => ⟨by rw [← hs] at hin; exact hin, trivial⟩
  | _, _, _, .exitWith _ _ hin he, s, hs => ⟨by rw [← hs] at hin; exact hin, he.ok s hs⟩
  | _, _, _, .loop _ hes, s, hs => by
      have hlen := hes.length
      rw [List.length_map] at hlen
      simpa [Core.Ok, hlen] using hes.ok s hs
  | _, _, _, .call _ _ _ hes he, s, hs => by
      have hlen := hes.length
      rw [List.length_map] at hlen
      exact ⟨by simpa [hlen] using hes.ok s hs, he.ok _ ((s.names_posts_push _).trans hs)⟩

theorem DenotesBody.ok : ∀ {ns : Names} {fs : List Value} {e : Core}, DenotesBody h k C ns fs e →
    ∀ s : Scope, s.names = ns → e.Ok s
  | _, _, _, .nil, _, _ => trivial
  | _, _, _, .last hf, s, hs => hf.ok s hs
  | _, _, _, .cons hf hrest, s, hs => ⟨⟨hf.ok s hs, trivial⟩, hrest.ok s hs⟩

theorem DenotesAll.ok : ∀ {ns : Names} {posts : List Post} {fs : List Value} {es : List Core},
    DenotesAll h k C ns posts fs es → ∀ s : Scope, s.names = ns → Core.OkAll s posts es
  | _, _, _, _, .nil, _, _ => trivial
  | _, _, _, _, .cons hf hrest, s, hs =>
      ⟨hf.ok s hs, hrest.ok _ ((s.names_post _).trans (congrArg (Names.post · _) hs))⟩

end

/-- So is a unit, in which nothing is bound. -/
theorem DenotesBody.ok_unit {fs : List Value} {e : Core} (hbody : DenotesBody h k C .none fs e)
    (code : Value) : e.Ok (.new code [.frame]) :=
  hbody.ok _ (Scope.names_unit code)

/-- So is the body of a procedure, in which its parameters are bound and what it copies. -/
theorem DenotesBody.ok_procedure {fs params : List Value} {copies : Captures} {e : Core}
    (hbody : DenotesBody h k C (.body params copies) fs e) (code : Value) :
    e.Ok (Comp.procedureScope code params copies) :=
  hbody.ok _ (Scope.names_procedureScope code params copies)

end Scoping

end Reference
end CellLisp
