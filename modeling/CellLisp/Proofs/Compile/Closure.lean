import CellLisp.Proofs.Compile.Forms

/-!
# `CellLisp.Proofs.Compile.Closure` — procedures and their copies

A procedure is compiled to a cell of its own, whose plan is finished when its code is complete
(`leads_procedure`); then it is joined to the values that it copies (`leads_compileClosure`).

| | |
| :-- | :-- |
| `leads_fetches` | the copies are fetched and pushed |
| `emits_compileLambda` | the code of `Core.lambda` |
-/

namespace CellLisp

/-! ## Variables under operands -/

theorem Scope.findEntry_shift (x : Value) (es : List Entry) (o o' : Nat) :
    (findEntry x o es = some .global ↔ findEntry x o' es = some .global) ∧
      (findEntry x o es).isSome = (findEntry x o' es).isSome := by
  induction es generalizing o o' with
  | nil => simp [findEntry]
  | cons e es ih =>
      cases e with
      | var y =>
          by_cases h : y = x
          · simp [findEntry, h]
          · simpa [findEntry, h] using ih (o + 1) (o' + 1)
      | dynamic y =>
          by_cases h : y = x
          · simp [findEntry, h]
          · simpa [findEntry, h] using ih o o'
      | frame => simpa [findEntry] using ih (o + 3) (o' + 3)
      | env | temp => simpa [findEntry] using ih (o + 1) (o' + 1)

/-- A variable stays in scope when operands are pushed. -/
theorem Scope.binds_push_temp (s : Scope) (x : Value) : (s.push .temp).binds x = s.binds x := by
  have hshift := findEntry_shift x s.entries 1 0
  have henv : ((s.push .temp).envOffset).isSome = s.envOffset.isSome := by
    simp [envOffset, isSome_findEnv, push]
  have htop : findEntry x 0 (s.push .temp).entries = findEntry x 1 s.entries := by
    simp [push, findEntry]
  simp only [binds, resolve, htop, show (s.push .temp).closedVars = s.closedVars from rfl,
    show (s.push .temp).closedConts = s.closedConts from rfl]
  cases h : findEntry x 1 s.entries with
  | some p =>
      rw [h] at hshift
      obtain ⟨q, hq⟩ := Option.isSome_iff_exists.1 (hshift.2.symm.trans rfl)
      rw [hq] at hshift ⊢
      have hglobal : p = .global ↔ q = .global := by simpa using hshift.1
      by_cases hp : p = .global
      · simp [hp, hglobal.1 hp]
      · rw [bne_iff_ne.2 hp, bne_iff_ne.2 fun hq => hp (hglobal.2 hq)]
  | none =>
      rw [h] at hshift
      have hnone : findEntry x 0 s.entries = none := by simpa using hshift.2.symm
      rw [hnone]
      cases s.closedVars.idxOf? x with
      | none => rfl
      | some i =>
          have hne : ∀ offset, (VarPlace.env offset (s.closedConts.length + i) != .global) = true :=
            fun _ => bne_iff_ne.2 (by simp)
          cases h : (s.push .temp).envOffset with
          | none => cases h' : s.envOffset <;> simp [h, h'] at henv ⊢
          | some offset =>
              cases h' : s.envOffset with
              | none => simp [h, h'] at henv
              | some offset' => exact (hne offset).trans (hne offset').symm

namespace Comp

section Fetches

variable {m : Mode} {I : System → Prop} {call : Caller} {form : FormCompiler} {d r : Nat}
  {a : Arity} {t : Nat} {scope : Scope} {sites : List Site} {tail : Bool} {w w' : System}
  {draft : Draft}

/-- A reference to a variable in scope. -/
theorem leads_compileRef_bound {x : Value} (hcall : Steady m I call)
    (h : Emitting m I d r a t scope sites w draft) (hx : scope.binds x = true) :
    Comp.Leads (Stable (m.toward t) d) (compileRef x) w draft fun _ w' draft' =>
      Emitting m I d r a t scope (sites ++ [scope.site (refInstr scope x none) .any]) w' draft' := by
  unfold compileRef refInstr
  refine .bindScope ?_
  rw [h.scope]
  cases hplace : scope.resolve x with
  | stack offset => exact leads_instr (o := .stackRef) hcall h (holds_nil _) (by simp)
  | env offset index => exact leads_instr (o := .envRef) hcall h (holds_ofInt _ _) (by simp)
  | global => simp [Scope.binds, hplace] at hx

/-- A reference to a continuation in scope. -/
theorem leads_compileContRef {k : Value} (hcall : Steady m I call)
    (h : Emitting m I d r a t scope sites w draft) (hk : (scope.resolveCont k).isSome = true) :
    Comp.Leads (Stable (m.toward t) d) (compileContRef k) w draft fun _ w' draft' =>
      Emitting m I d r a t scope (sites ++ [scope.site (contInstr scope k) .any]) w' draft' := by
  unfold compileContRef contInstr
  refine .bindScope ?_
  rw [h.scope]
  cases hplace : scope.resolveCont k with
  | none =>
      rw [hplace] at hk
      cases hk
  | some place =>
      cases place with
      | stack offset => exact leads_instr (o := .contRef) hcall h (holds_nil _) (by simp)
      | env offset index => exact leads_instr (o := .envRef) hcall h (holds_ofInt _ _) (by simp)

/-- Copies are fetched and pushed, if each can be fetched. -/
theorem leads_fetches {α : Type} {g : α → Scope → Instr} {part : α → Comp Unit}
    {S : Scope → α → Prop} (hcall : Steady m I call)
    (hpart : ∀ {scope sites w draft x}, Emitting m I d r a t scope sites w draft → S scope x →
      Comp.Leads (Stable (m.toward t) d) (part x) w draft fun _ w' draft' =>
        Emitting m I d r a t scope (sites ++ [scope.site (g x scope) .any]) w' draft')
    (hS : ∀ scope x, S scope x → S (scope.push .temp) x) {xs : List α}
    (h : Emitting m I d r a t scope sites w draft) (hxs : ∀ x ∈ xs, S scope x) :
    Comp.Leads (Stable (m.toward t) d) (xs.forM fun x => do
      part x
      pushTemp) w draft fun _ w' draft' =>
      Emitting m I d r a t (scope.posts (xs.map fun _ => .push))
        (sites ++ codeFetches scope (xs.map g)) w' draft' := by
  induction xs generalizing scope sites w draft with
  | nil => exact .pure (by simpa [Scope.posts, codeFetches] using h)
  | cons x xs ih =>
      refine Comp.Leads.bind (x := do
        part x
        pushTemp) (.bind (hpart h (hxs x List.mem_cons_self)) fun _ _ _ _ h₁ =>
          leads_pushTemp hcall h₁) ?_
      intro _ w₁ draft₁ _ h₁
      refine .mono (ih h₁ fun y hy => hS _ _ (hxs y (List.mem_cons_of_mem _ hy))) ?_
      intro _ w₂ draft₂ _ h₂
      simpa [codeFetches, Scope.posts, Scope.post] using h₂

end Fetches

theorem codeFetches_append (s : Scope) (fs gs : List (Scope → Instr)) :
    codeFetches s (fs ++ gs)
      = codeFetches s fs ++ codeFetches (s.posts (fs.map fun _ => .push)) gs := by
  induction fs generalizing s with
  | nil => rfl
  | cons f fs ih =>
      simp only [List.cons_append, codeFetches, ih, List.map_cons]
      rfl

section Closures

variable {m : Mode} {I : System → Prop} {call : Caller} {form : FormCompiler} {d r : Nat}
  {a : Arity} {t : Nat} {scope : Scope} {sites : List Site} {tail : Bool} {w w' : System}
  {draft : Draft} {c : Captures}

/-- Code in the value register is joined to its copies. -/
theorem leads_compileClosure (hcall : Steady m I call)
    (h : Emitting m I d r a t scope sites w draft) (hc : c.Within scope) :
    Comp.Leads (Stable (m.toward t) d) (compileClosure c) w draft fun _ w' draft' =>
      ∃ maker, Emitting m I d r a t scope (sites ++ (scope.site ⟨.push, 0, .nil⟩ .any ::
        (codeFetches (scope.push .temp) c.fetches ++
          [((scope.push .temp).posts (c.fetches.map fun _ => .push)).site
              ⟨.makeArray, c.count, .nil⟩ .any,
            (scope.push .temp).site ⟨.push, 0, .nil⟩ .any,
            ((scope.push .temp).push .temp).site ⟨.const, 0, maker⟩ .maker,
            ((scope.push .temp).push .temp).site ⟨.call, 2, .nil⟩ .any]))) w' draft' := by
  unfold compileClosure
  refine .bind (leads_pushTemp hcall h) ?_
  intro _ w₁ draft₁ _ h₁
  have hconts : ∀ k ∈ c.conts, ((scope.push .temp).resolveCont k).isSome = true := by
    intro k hk
    rw [Scope.isSome_resolveCont_push]
    exact hc.conts k hk
  refine Comp.Leads.bind (leads_fetches (S := fun s k => (s.resolveCont k).isSome = true)
    (g := fun k s => contInstr s k) hcall (fun h hk => leads_compileContRef hcall h hk)
    (fun s k hk => by rw [Scope.isSome_resolveCont_push]; exact hk) h₁ hconts) ?_
  intro _ w₂ draft₂ _ h₂
  have hvars : ∀ x ∈ c.vars,
      ((scope.push .temp).posts (c.conts.map fun _ => .push)).binds x = true := by
    intro x hx
    have hpush : ∀ (s : Scope) (ks : List Value),
        (s.posts (ks.map fun _ => .push)).binds x = s.binds x := by
      intro s ks
      induction ks generalizing s with
      | nil => rfl
      | cons k ks ih => exact (ih (s.push .temp)).trans (s.binds_push_temp x)
    rw [hpush, Scope.binds_push_temp]
    exact hc.vars x hx
  refine Comp.Leads.bind (leads_fetches (S := fun s x => s.binds x = true)
    (g := fun x s => refInstr s x none) hcall (fun h hx => leads_compileRef_bound hcall h hx)
    (fun s x hx => by rw [Scope.binds_push_temp]; exact hx) h₂ hvars) ?_
  intro _ w₃ draft₃ _ h₃
  have hfetches : ((scope.push .temp).posts (c.conts.map fun _ => .push)).posts
      (c.vars.map fun _ => .push) = (scope.push .temp).posts (c.fetches.map fun _ => .push) := by
    simp only [Scope.posts, Captures.fetches, List.map_append, List.map_map, Function.comp_def,
      List.foldl_append]
  have hcodes : codeFetches (scope.push .temp) (c.conts.map fun k s => contInstr s k)
      ++ codeFetches ((scope.push .temp).posts (c.conts.map fun _ => .push))
        (c.vars.map fun x s => refInstr s x none) = codeFetches (scope.push .temp) c.fetches := by
    rw [Captures.fetches, codeFetches_append, List.map_map]
    rfl
  rw [hfetches, List.append_assoc, List.append_assoc, hcodes] at h₃
  refine .bind (leads_instr hcall h₃ (holds_nil _) (by simp)) ?_
  intro _ w₄ draft₄ _ h₄
  refine .bindModify ?_
  have hcount : c.fetches.length = c.count := by simp [Captures.fetches, Captures.count]
  have h₅ := h₄.modify (·.drop c.count) rfl
  rw [← hcount, Scope.drop_posts_push, hcount] at h₅
  refine .bind (leads_pushTemp hcall h₅) ?_
  intro _ w₅ draft₅ _ h₆
  have hmaker : w₅.heap.Holds w₅.state.known.makeClosure :=
    w₅.typed.roots _ (by simp [State.rootValues])
  refine .bindGets ?_
  refine .bind (leads_op' (k := .maker) hcall h₆ hmaker fun _ => rfl) ?_
  intro _ w₆ draft₆ _ h₇
  refine .bind (leads_instr hcall h₇ (holds_nil _) (by simp)) ?_
  intro _ w₇ draft₇ _ h₈
  refine .modifyScope ⟨w₅.state.known.makeClosure, ?_⟩
  have h₉ := h₈.modify (·.drop 2) rfl
  have hdrop : ((scope.push .temp).push .temp).drop 2 = scope := rfl
  rw [hdrop] at h₉
  simpa [List.append_assoc] using h₉

end Closures

/-! ## Frames as the arity says -/

/-- An arity for so many parameters, and one for the rest or none. -/
structure ArityFor (a : Arity) (fixed : Nat) (variadic : Bool) : Prop where
  isVariadic : a.isVariadic = variadic
  required : a.required = fixed
  slots : a.slots = fixed + if variadic then 1 else 0

/-- The arity of a procedure whose parameters are not too many. -/
theorem leads_arityOf {R : System → System → Prop} [Follows R] {w : System} {draft : Draft}
    {fixed : Nat} {variadic : Bool} (hfixed : fixed < 32768) :
    Comp.Leads R (arityOf fixed variadic) w draft fun a w' draft' =>
      w = w' ∧ draft = draft' ∧ ArityFor a fixed variadic := by
  unfold arityOf
  split
  · rename_i hv
    split
    · rename_i a ha
      refine .pure ⟨rfl, rfl, ?_⟩
      rw [Arity.atLeast?, Arity.wrap_of_lt hfixed, if_neg (by omega)] at ha
      obtain rfl := Option.some.inj ha
      have hneg : -(fixed : Int) - 1 < 0 := by omega
      refine ⟨?_, ?_, ?_⟩ <;> simp [Arity.isVariadic, Arity.required, Arity.slots, hneg, hv]
    · exact .halt _
  · rename_i hv
    refine .pure ⟨rfl, rfl, ?_⟩
    have hpos : ¬(fixed : Int) < 0 := by omega
    refine ⟨?_, ?_, ?_⟩ <;>
      simp [Arity.isVariadic, Arity.required, Arity.slots, Arity.exactly, Arity.wrap_of_lt hfixed, hpos, hv]

/-- A procedure with parameters, as its code is emitted. -/
def procedure (code : Value) (params : List Value) (c : Captures) (least? : Option Nat) (e : Core) :
    Proc :=
  ⟨procedureScope code params c, least?, true, e⟩

theorem flatMap_kinds_vars (n : Nat) (es : List Entry) (h : ∀ e ∈ es, ∃ x, Entry.var x = e) :
    es.flatMap (Entry.kinds n) = List.replicate es.length .any := by
  induction es with
  | nil => rfl
  | cons e es ih =>
      obtain ⟨x, rfl⟩ := h e List.mem_cons_self
      rw [List.flatMap_cons, ih fun e he => h e (List.mem_cons_of_mem _ he)]
      rfl

/-- The frame of a procedure is laid out as its arity says. -/
theorem fits_procedure {code : Value} {params : List Value} {c : Captures} {e : Core} {a : Arity}
    {fixed : Nat} {variadic : Bool} (ha : ArityFor a fixed variadic)
    (hparams : params.length = fixed + if variadic then 1 else 0)
    (he : e.Ok (procedureScope code params c)) :
    (procedure code params c (if variadic then some fixed else none) e).Fits a where
  conts := rfl
  body := he
  fixed := by
    refine ⟨params.length, ?_, .inl (hparams.trans ha.slots.symm)⟩
    have hargs := flatMap_kinds_vars c.count (params.map Entry.var).reverse (by simp)
    rw [List.length_reverse, List.length_map] at hargs
    show (procedureScope code params c).entries.flatMap (Entry.kinds c.count) = frameKinds c.count _
    rw [procedureScope, List.flatMap_append, hargs, frameKinds]
    split <;> simp [Entry.kinds]
  least n hn := by
    cases variadic with
    | true => exact ⟨ha.isVariadic, by rw [ha.required]; exact Option.some.inj hn⟩
    | false => cases hn
  exact h := by
    cases variadic with
    | true => cases h
    | false => exact ha.isVariadic

section Procedures

variable {m : Mode} {I : System → Prop} {call : Caller} {form : FormCompiler} {d r : Nat}
  {a : Arity} {t : Nat} {scope inner : Scope} {sites : List Site} {tail : Bool} {w w' : System}
  {draft : Draft} {c : Captures}

/-- The parameters of a procedure. -/
theorem leads_parameters {R : System → System → Prop} [Follows R] (params : Value) :
    Comp.Leads R (parameters params) w draft fun p w' draft' =>
      w = w' ∧ draft = draft' ∧ p.1.length = (w.heap.spine params).1.size := by
  unfold parameters
  refine .bindHeap ?_
  simp only [id]
  generalize w.heap.spine params = p
  obtain ⟨fixed, rest⟩ := p
  split
  · exact .reject _
  · split
    · exact .pure ⟨rfl, rfl, by simp⟩
    · split
      · exact .pure ⟨rfl, rfl, by simp⟩
      · exact .reject _

theorem drafted_sites (p : Proc) : p.sites.map Site.drafted = p.entry.map Site.drafted
    ++ (p.body.code p.scope p.entry.length p.tail ++ [p.scope.site ⟨.ret, 0, .nil⟩ .any]) := by
  rw [Proc.sites, List.map_append, List.map_append, Core.drafted_gen_eq]
  rfl

/-- The body of a procedure is compiled. -/
theorem leads_compileProcedure (hcall : Steady m I call) (hform : FormOk m I form) {fixed : Nat}
    {variadic : Bool} {body : List Value}
    (h : Emitting m I d r a t inner [] w { draft with scope := inner })
    (hbody : ∀ f ∈ body, w.Held m d f) :
    Comp.Leads (Stable (m.toward t) d) (compileProcedure form inner variadic fixed body) w draft
      fun _ w' draft' => draft'.scope = draft.scope ∧ ∃ e : Core, e.Ok inner ∧
        Emitting m I d r a t inner (Proc.sites ⟨inner, if variadic then some fixed else none, true, e⟩
          |>.map Site.drafted) w' { draft' with scope := inner } := by
  unfold compileProcedure
  refine .bindScope (.bindModify ?_)
  have hrest : ∀ {w₁ draft₁ sites}, (∀ f ∈ body, w₁.Held m d f) →
      Emitting m I d r a t inner sites w₁ draft₁ →
      Comp.Leads (Stable (m.toward t) d) (do
        compileBody form true body
        op' .ret 0 .nil
        modifyScope fun _ => draft.scope) w₁ draft₁ fun _ w' draft' =>
        draft'.scope = draft.scope ∧ ∃ e : Core, e.Ok inner ∧ Emitting m I d r a t inner
          (sites ++ (e.code inner sites.length true ++ [inner.site ⟨.ret, 0, .nil⟩ .any])) w'
          { draft' with scope := inner } := by
    intro w₁ draft₁ sites hbody h₁
    refine Comp.Leads.bind (emits_compileBody hcall hform h₁ hbody) ?_
    rintro _ w₂ draft₂ - ⟨e, he, h₂⟩
    refine .bind (leads_instr hcall h₂ (holds_nil _) (by simp)) ?_
    intro _ w₃ draft₃ _ h₃
    refine .modifyScope ⟨rfl, e, he, ?_⟩
    rw [← List.append_assoc]
    have hscope : draft₃ = { draft₃ with scope := inner } := by rw [← h₃.scope]
    rw [← hscope]
    exact h₃
  dsimp only
  split
  · refine .bind (leads_instr hcall h (holds_nil _) (by simp)) ?_
    intro _ w₁ draft₁ hs h₁
    refine .mono (hrest (fun f hf => (hbody f hf).of_stable hs) h₁) ?_
    rintro _ w₂ draft₂ - ⟨hscope, e, he, h₂⟩
    refine ⟨hscope, e, he, ?_⟩
    rw [drafted_sites]
    exact h₂
  · refine .mono (hrest hbody h) ?_
    rintro _ w₂ draft₂ - ⟨hscope, e, he, h₂⟩
    refine ⟨hscope, e, he, ?_⟩
    rw [drafted_sites]
    exact h₂

/-- Expansions that are held with more protected values to start from are held with fewer. -/
theorem Ready.of_le {e : Nat} (hr : Ready m I e w draft) (hd : d ≤ e)
    (hplace : draft.expansionRoot < d) : Ready m I d w draft :=
  ⟨hr.calm, Nat.le_trans hd hr.depth, hplace, hr.floor, hr.kept, hr.expansions⟩

theorem Ready.of_ge {e : Nat} (hr : Ready m I d w draft) (hd : d ≤ e)
    (he : e ≤ w.state.roots.size) : Ready m I e w draft :=
  ⟨hr.calm, he, Nat.lt_of_lt_of_le hr.place hd, hr.floor, hr.kept, hr.expansions⟩

/-- Code that was just made and protected is emitted to. -/
theorem emitting_fresh {u : System} {arity : Arity} {t' : Nat}
    {hcode : w.heap.Holds (.ref .bytecode t')} (hr : Ready m I d (w.guarding hcode) draft)
    (hroot : draft.expansionRoot = r) (hfresh : u.Fresh arity w t') (hinner : inner.code = .ref .bytecode t') :
    Emitting m I (w.state.roots.size + 1) r arity t' inner [] (w.guarding hcode)
      { draft with scope := inner } := by
  have hsize : (w.guarding hcode).state.roots.size = w.state.roots.size + 1 := Array.size_push _
  have hd := hr.depth
  exact ⟨(hr.of_ge (by omega) (Nat.le_of_eq hsize.symm)).scope inner, hfresh.target hcode, hinner,
    rfl, hroot⟩

/-- The code of a procedure is compiled, and finished. -/
theorem leads_finished (hcall : Steady m I call) (hform : FormOk m I form)
    {names body : List Value} {fixed : Nat} {variadic : Bool}
    (h : Emitting m I d r a t (procedureScope (.ref .bytecode t) names c) [] w
      { draft with scope := procedureScope (.ref .bytecode t) names c })
    (ha : ArityFor a fixed variadic)
    (hnames : names.length = fixed + if variadic then 1 else 0)
    (hbody : ∀ f ∈ body, w.Held m d f) :
    Comp.Leads (Stable (m.toward t) d)
      (compileProcedure form (procedureScope (.ref .bytecode t) names c) variadic fixed body) w draft
      fun _ w' draft' => draft'.scope = draft.scope ∧ Ready m I d w' draft' ∧
        draft'.expansionRoot = r ∧ w'.heap.Holds (.ref .bytecode t) ∧
        CodeOf w'.plans c.count (.ref .bytecode t) := by
  refine (leads_compileProcedure hcall hform h hbody).adjust ?_
  rintro _ w' draft' hs ⟨hscope, e, he, h'⟩
  have htarget := h'.target
  have hfits := fits_procedure ha hnames he
  refine ⟨htarget.finish hfits, rfl, Follows.trans hs (htarget.stable_finish hfits), hscope, ?_, h'.root, ?_, ?_⟩
  · exact (h'.ready.stable hcall htarget.spares (htarget.stable_finish hfits)).scope draft'.scope
  · obtain ⟨b, hb, -⟩ := htarget.cell
    rintro _ _ ⟨⟩ -
    rw [show (htarget.finish hfits).heap.cell t = _ from hb]
    exact ⟨rfl, rfl⟩
  · exact ⟨t, _, rfl, htarget.pos, if_pos rfl, rfl⟩

/-- Finished code is joined to its copies, if there are any. -/
theorem emits_joined {code : Value} (hcall : Steady m I call)
    (h : Emitting m I d r a t scope sites w draft) (hholds : w.heap.Holds code)
    (hcode : CodeOf w.plans c.count code) (hc : c.Within scope) :
    Emits m I d r a t scope sites tail (do
      op' .const 0 code
      if c.count != 0 then compileClosure c) w draft := by
  by_cases hcount : c.count = 0
  · have hproper : Proper w.plans code := by
      obtain ⟨i, p, rfl, hi, hplan, hcopies⟩ := hcode
      refine ⟨?_, nofun⟩
      rintro _ ⟨⟩ -
      exact ⟨p, hplan, hcopies.trans hcount⟩
    refine .bind (leads_op' (k := .any) hcall h hholds fun _ => hproper) ?_
    intro _ w₁ draft₁ _ h₁
    rw [if_neg (by simp [hcount])]
    refine .pure ⟨.lambda code c .nil, hc.conts, ?_⟩
    rw [Core.code_lambda, if_pos hcount]
    exact h₁
  · refine .bind (leads_op' (k := .code c.count) hcall h hholds fun _ => ⟨hcount, hcode⟩) ?_
    intro _ w₁ draft₁ _ h₁
    rw [if_pos (by simp [hcount])]
    refine .mono (leads_compileClosure hcall h₁ hc) ?_
    rintro _ w₂ draft₂ - ⟨maker, h₂⟩
    refine ⟨.lambda code c maker, hc.conts, ?_⟩
    rw [Core.code_lambda, if_neg hcount]
    rw [List.append_assoc] at h₂
    exact h₂

/-- A procedure with its copies is compiled. -/
theorem emits_lambdaCode (hcall : Steady m I call) (hform : FormOk m I form)
    {name doc : Value} {names body : List Value} {arity : Arity} {fixed : Nat} {variadic : Bool}
    (h : Emitting m I d r a t scope sites w draft) (hname : w.Held m d name)
    (hdoc : w.Held m d doc) (hbody : ∀ f ∈ body, w.Held m d f) (ha : ArityFor arity fixed variadic)
    (hnames : names.length = fixed + if variadic then 1 else 0) (hc : c.Within scope) :
    Emits m I d r a t scope sites tail (Comp.withRoots do
      let code ← makeBytecode name doc arity
      let _ ← protect code
      compileProcedure form (procedureScope code names c) variadic fixed body
      op' .const 0 code
      if c.count != 0 then compileClosure c) w draft := by
  have hstill : ∀ {w'}, Stable m.still d w w' → Stable (m.toward t) d w w' :=
    fun hs => Stable.of_still (m := m.toward t) hs
  have hjoin : Emits m I d r a t scope sites tail (do
      let code ← makeBytecode name doc arity
      let _ ← protect code
      compileProcedure form (procedureScope code names c) variadic fixed body
      op' .const 0 code
      if c.count != 0 then compileClosure c) w draft := by
    refine Comp.Leads.bindFrom (R := Stable m.still d) (.lift (leads_makeBytecode hname hdoc arity))
      (fun _ hs => hstill hs) ?_
    rintro _ w₁ draft hs₁ ⟨rfl, hcode, hroots, t', rfl, hfresh⟩
    have hd₁ := hs₁.depth d (Nat.le_refl d) h.ready.depth
    refine Comp.Leads.bindFrom (R := Stable m.still d) (.lift (leads_protect hcode hd₁))
      (fun _ hs => hstill (Follows.trans hs₁ hs)) ?_
    rintro _ w₂ draft hs₂ ⟨rfl, -, rfl⟩
    have hs₂ := Follows.trans hs₁ hs₂
    have h₂ := h.stable hcall hs₂
    have hinner : Emitting m I (w₁.state.roots.size + 1) r arity t'
        (procedureScope (.ref .bytecode t') names c) [] (w₁.guarding hcode)
        { draft with scope := procedureScope (.ref .bytecode t') names c } :=
      emitting_fresh h₂.ready h₂.root hfresh rfl
    have hd₂ : d ≤ w₁.state.roots.size + 1 := Nat.le_succ_of_le hd₁
    -- from here on it is as if code had been emitted to the new cell alone
    have houter : ∀ {u}, Stable (m.toward t') (w₁.state.roots.size + 1) (w₁.guarding hcode) u →
        Stable m.still d w u := fun hs => Stable.toward (m := m.still) hs₂ hs hd₂ hfresh.new
    refine Comp.Leads.bindFrom (leads_finished hcall hform hinner ha hnames ?_)
      (fun _ hs => hstill (houter hs)) ?_
    · exact fun f hf => ((hbody f hf).of_stable hs₂).of_le hd₂
    · rintro _ w₃ draft₃ hs₃ ⟨hscope, hready, hroot, hholds, hcodeOf⟩
      have hs₃ := houter hs₃
      have h₃ : Emitting m I d r a t scope sites w₃ draft₃ :=
        ⟨hready.of_le hd₂ (by rw [hroot, ← h.root]; exact h.ready.place), h.target.stable hs₃,
          h.code, hscope.trans h.scope, hroot⟩
      exact (emits_joined hcall h₃ hholds hcodeOf hc).weaken fun _ hs => Follows.trans (hstill hs₃) hs
  refine CellLisp.Leads.withRoots hjoin h.ready.depth ?_
  rintro p w' hs ⟨e, he, h'⟩
  exact ⟨e, he, h'.stable hcall (w'.stable_cut h.ready.depth)⟩

/-- A procedure. -/
theorem emits_compileLambda {walk : Walker} (hcall : Steady m I call) (hform : FormOk m I form)
    (hwalk : WalkOk m I walk) {name params : Value} {body : List Value}
    (h : Emitting m I d r a t scope sites w draft) (hname : w.Held m d name)
    (hbody : ∀ f ∈ body, w.Held m d f) (hparams : (w.heap.spine params).1.size < 32768) :
    Emits m I d r a t scope sites tail (compileLambda form walk name params body) w draft := by
  unfold compileLambda
  refine .bind (leads_parameters params) ?_
  rintro ⟨fixed, rest⟩ _ _ - ⟨rfl, rfl, hlen⟩
  refine .bind (leads_arityOf (by rw [hlen]; exact hparams)) ?_
  rintro arity _ _ - ⟨rfl, rfl, ha⟩
  refine .bindHeap ?_
  have hsplit : w.Held m d (splitDoc w.heap body).1 ∧
      ∀ f ∈ (splitDoc w.heap body).2, w.Held m d f := by
    unfold splitDoc
    split
    · split
      · exact ⟨hbody _ List.mem_cons_self, fun f hf => hbody f (List.mem_cons_of_mem _ hf)⟩
      · exact ⟨System.held_nil, hbody⟩
    · exact ⟨System.held_nil, nofun⟩
  simp only [id]
  generalize splitDoc w.heap body = p at hsplit
  obtain ⟨doc, body⟩ := p
  obtain ⟨hdoc, hbody⟩ := hsplit
  have hwalked : Walked m I d r scope {} w draft := ⟨⟨nofun, nofun⟩, h.ready, h.scope, h.root⟩
  refine Comp.Leads.bindFrom (leads_walkFold hwalk _ hwalked hbody)
    (fun _ hs => Stable.of_still (m := m.toward t) hs) ?_
  rintro c w₁ draft₁ hs hc
  have hs' : Stable (m.toward t) d w w₁ := Stable.of_still (m := m.toward t) hs
  have h₁ : Emitting m I d r a t scope sites w₁ draft₁ :=
    ⟨hc.ready, h.target.stable hs, h.code, hc.scope, hc.root⟩
  refine (emits_lambdaCode hcall hform h₁ (hname.of_stable hs) (hdoc.of_stable hs)
    (fun f hf => (hbody f hf).of_stable hs) ha ?_ hc.within).weaken fun _ hs => Follows.trans hs' hs
  rw [List.length_append]
  cases rest <;> simp

end Procedures

end Comp
end CellLisp
