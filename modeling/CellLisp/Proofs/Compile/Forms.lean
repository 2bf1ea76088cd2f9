import CellLisp.Proofs.Compile.Emission

/-!
# `CellLisp.Proofs.Compile.Forms` — the code of each construct

Each construct is compiled to the code of a `Core` (`Comp.Emits`), if the forms within it are.

| | |
| :-- | :-- |
| `emits_compileBody`, `emits_compileIf`, `emits_compileLoop` | sequences, branches, loops |
| `emits_compileLet`, `emits_compileDynamicLet` | bindings |
| `emits_compileWithCont`, `emits_compileExit` | escapes |
| `emits_compileCall` | calls |
-/

namespace CellLisp

/-- A step of a compilation emits the code of a `Core`. -/
def Comp.Emits (m : Mode) (I : System → Prop) (d r : Nat) (a : Arity) (t : Nat) (scope : Scope)
    (sites : List Site) (tail : Bool) (act : Comp Unit) (w : System) (draft : Draft) : Prop :=
  Comp.Leads (Stable (m.toward t) d) act w draft fun _ w' draft' =>
    ∃ e : Core, e.Ok scope ∧
      Emitting m I d r a t scope (sites ++ e.code scope sites.length tail) w' draft'

/-- Steps of a compilation emit the code of parts, and what comes after each. -/
def Comp.EmitsAll (m : Mode) (I : System → Prop) (d r : Nat) (a : Arity) (t : Nat)
    (scope : Scope) (sites : List Site) (posts : List Post) (act : Comp Unit) (w : System)
    (draft : Draft) : Prop :=
  Comp.Leads (Stable (m.toward t) d) act w draft fun _ w' draft' =>
    ∃ es : List Core, posts.length = es.length ∧ Core.OkAll scope posts es ∧
      Emitting m I d r a t (scope.posts posts)
        (sites ++ Core.codeAll scope sites.length posts es) w' draft'

theorem Scope.posts_next {α : Type} (s : Scope) (xs : List α) :
    s.posts (xs.map fun _ => .next) = s := by
  induction xs with
  | nil => rfl
  | cons x xs ih => exact ih

/-- Parts change nothing of a scope but its entries. -/
theorem Scope.posts_eq (s : Scope) (ps : List Post) :
    s.posts ps = { s with entries := (s.posts ps).entries } := by
  induction ps generalizing s with
  | nil => rfl
  | cons p ps ih =>
      refine (ih (s.post p)).trans ?_
      cases p <;> rfl

theorem Scope.drop_posts_push {α : Type} (s : Scope) (xs : List α) :
    (s.posts (xs.map fun _ => .push)).drop xs.length = s := by
  have hpushes : xs.map (fun _ => Post.push)
      = (List.replicate xs.length Value.nil).map fun _ => .push := by
    rw [List.map_const', List.map_const', List.length_replicate]
  rw [hpushes, s.posts_eq, drop, s.entries_posts_push, List.length_replicate]
  simp

theorem Scope.drop_nameTop_posts (s : Scope) (names : List Value) :
    ((s.posts (names.map fun _ => .push)).nameTop names).drop names.length = s := by
  have hentries := s.entries_nameTop_posts names
  rw [s.posts_eq] at hentries ⊢
  rw [drop, hentries]
  simp [nameTop]

theorem Scope.entries_posts_bind (s : Scope) (names : List Value) :
    (s.posts (names.map .bind)).entries = (names.map Entry.dynamic).reverse ++ s.entries := by
  induction names generalizing s with
  | nil => rfl
  | cons x names ih =>
      refine (ih (s.push (.dynamic x))).trans ?_
      simp [push]

theorem Scope.drop_posts_bind (s : Scope) (names : List Value) :
    (s.posts (names.map .bind)).drop names.length = s := by
  rw [s.posts_eq, drop, s.entries_posts_bind]
  simp

namespace Comp

section Forms

variable {m : Mode} {I : System → Prop} {call : Caller} {form : FormCompiler} {d r : Nat}
  {a : Arity} {t : Nat} {scope : Scope} {sites : List Site} {tail : Bool} {w w' : System}
  {draft : Draft}

/-- What was held when code was emitted is held afterwards. -/
theorem held_toward {v : Value} (hv : w.Held m d v) (hs : Stable (m.toward t) d w w') :
    w'.Held m d v :=
  hv.of_stable hs

/-- A constant. -/
theorem emits_const {v : Value} (hcall : Steady m I call)
    (h : Emitting m I d r a t scope sites w draft) (hv : w.Good v) :
    Emits m I d r a t scope sites tail (op' .const 0 v) w draft := by
  refine .mono (leads_op' (k := .any) hcall h hv.holds fun _ => constOk_of_good hv) ?_
  intro _ w' draft' _ h'
  exact ⟨.const v, trivial, h'⟩

/-! ## Sequences and branches -/

/-- A sequence. -/
theorem emits_compileBody (hcall : Steady m I call) (hform : FormOk m I form) {fs : List Value}
    (h : Emitting m I d r a t scope sites w draft) (hfs : ∀ f ∈ fs, w.Held m d f) :
    Emits m I d r a t scope sites tail (compileBody form tail fs) w draft := by
  induction fs generalizing sites w draft with
  | nil => exact emits_const hcall h w.good_nil
  | cons f rest ih =>
      cases rest with
      | nil => exact hform tail h (hfs f List.mem_cons_self)
      | cons g rest =>
          refine Comp.Leads.bind (hform false h (hfs f List.mem_cons_self)) ?_
          rintro _ w₁ draft₁ hs ⟨e, he, h₁⟩
          refine .mono (ih h₁ fun x hx => (hfs x (List.mem_cons_of_mem _ hx)).of_stable hs) ?_
          rintro _ w₂ draft₂ - ⟨last, hlast, h₂⟩
          refine ⟨.seq [e] last, ⟨⟨he, trivial⟩, hlast⟩, ?_⟩
          rw [Core.code_seq_singleton, ← List.append_assoc]
          simpa using h₂

/-- A form that may be left out. -/
theorem emits_compileOptional (hcall : Steady m I call) (hform : FormOk m I form)
    {f? : Option Value} (h : Emitting m I d r a t scope sites w draft)
    (hf : ∀ f, f? = some f → w.Held m d f) :
    Emits m I d r a t scope sites tail (compileOptional form tail f?) w draft := by
  cases f? with
  | none => exact emits_const hcall h w.good_nil
  | some f => exact hform tail h (hf f rfl)

/-- A branch. -/
theorem emits_compileIf (hcall : Steady m I call) (hform : FormOk m I form) {test yes : Value}
    {no : Option Value} (h : Emitting m I d r a t scope sites w draft) (htest : w.Held m d test)
    (hyes : w.Held m d yes) (hno : ∀ f, no = some f → w.Held m d f) :
    Emits m I d r a t scope sites tail (compileIf form test yes no tail) w draft := by
  unfold compileIf
  refine Comp.Leads.bind (hform false h htest) ?_
  rintro _ w₁ draft₁ hs₁ ⟨ea, ha, h₁⟩
  refine .bind (leads_op (k := .any) hcall h₁ (holds_nil _) (by simp)) ?_
  rintro skip w₂ draft₂ hs₂ ⟨rfl, h₂⟩
  refine .bind (hform tail h₂ ((hyes.of_stable hs₁).of_stable hs₂)) ?_
  rintro _ w₃ draft₃ hs₃ ⟨eb, hb, h₃⟩
  refine .bind (leads_op (k := .any) hcall h₃ (holds_nil _) (by simp)) ?_
  rintro leave w₄ draft₄ hs₄ ⟨rfl, h₄⟩
  have hskip : ∀ l : List Site, sites ++ ea.code scope sites.length false
      ++ [scope.site ⟨.jumpIfFalse, 0, .nil⟩ .any] ++ l
      = (sites ++ ea.code scope sites.length false)
        ++ scope.site ⟨.jumpIfFalse, 0, .nil⟩ .any :: l := by simp
  rw [List.append_assoc _ _ [_], hskip] at h₄
  refine .bind (leads_patchHere hcall h₄ (by simp [Scope.site])) ?_
  rintro _ w₅ draft₅ hs₅ h₅
  have hno₅ : ∀ f, no = some f → w₅.Held m d f := fun f hf =>
    (((((hno f hf).of_stable hs₁).of_stable hs₂).of_stable hs₃).of_stable hs₄).of_stable hs₅
  refine .bind (emits_compileOptional hcall hform h₅ hno₅) ?_
  rintro _ w₆ draft₆ - ⟨ed, hd, h₆⟩
  -- the second jump stands behind the first branch
  have hplace : (sites ++ ea.code scope sites.length false
      ++ [scope.site ⟨.jumpIfFalse, 0, .nil⟩ .any]
      ++ eb.code scope (sites ++ ea.code scope sites.length false
        ++ [scope.site ⟨.jumpIfFalse, 0, .nil⟩ .any]).length tail).length
      = (sites ++ (ea.code scope sites.length false
          ++ scope.site ⟨.jumpIfFalse, 0, .ofInt (sites.length + ea.length + eb.length + 2 : Nat)⟩ .any
          :: eb.code scope (sites.length + ea.length + 1) tail)).length := by
    simp
  have hleave : Emitting m I d r a t scope
      ((sites ++ (ea.code scope sites.length false
          ++ scope.site ⟨.jumpIfFalse, 0, .ofInt (sites.length + ea.length + eb.length + 2 : Nat)⟩ .any
          :: eb.code scope (sites.length + ea.length + 1) tail))
        ++ scope.site ⟨.jump, 0, .nil⟩ .any
          :: ed.code scope (sites.length + ea.length + eb.length + 2) tail) w₆ draft₆ := by
    simpa [Site.pointed, Scope.site, Nat.add_assoc] using h₆
  rw [hplace]
  refine .mono (leads_patchHere hcall hleave (by simp [Scope.site])) ?_
  intro _ w₇ draft₇ _ h₇
  refine ⟨.cond ea eb ed, ⟨ha, hb, hd⟩, ?_⟩
  rw [Core.code_cond]
  have hend : (sites ++ (ea.code scope sites.length false
          ++ scope.site ⟨.jumpIfFalse, 0, .ofInt (sites.length + ea.length + eb.length + 2 : Nat)⟩ .any
          :: eb.code scope (sites.length + ea.length + 1) tail)).length
        + ((ed.code scope (sites.length + ea.length + eb.length + 2) tail).length + 1)
      = sites.length + ea.length + eb.length + 2 + ed.length := by
    simp
    omega
  rw [hend] at h₇
  simpa [Site.pointed, Scope.site] using h₇

/-! ## Parts one behind the other -/

/-- A part is compiled, and what comes after it. -/
def PartOk (m : Mode) (I : System → Prop) (d r : Nat) (a : Arity) (t : Nat) {α : Type}
    (P : System → α → Prop) (post : α → Post) (part : α → Comp Unit) : Prop :=
  ∀ scope sites w draft x, Emitting m I d r a t scope sites w draft → P w x →
    Comp.Leads (Stable (m.toward t) d) (part x) w draft fun _ w' draft' =>
      ∃ e : Core, e.Ok scope ∧
        Emitting m I d r a t (scope.post (post x)) (sites ++ (e.code scope sites.length false
          ++ (post x).instrs.map (scope.site · .any))) w' draft'

/-- Parts one behind the other are compiled if each of them is. -/
theorem emitsAll_forM {α : Type} {P : System → α → Prop} {post : α → Post}
    {part : α → Comp Unit} (hpart : PartOk m I d r a t P post part)
    (hP : ∀ w w' x, Stable (m.toward t) d w w' → P w x → P w' x) {xs : List α}
    (h : Emitting m I d r a t scope sites w draft) (hxs : ∀ x ∈ xs, P w x) :
    EmitsAll m I d r a t scope sites (xs.map post) (xs.forM part) w draft := by
  induction xs generalizing scope sites w draft with
  | nil => exact .pure ⟨[], rfl, trivial, by simpa [Scope.posts] using h⟩
  | cons x xs ih =>
      refine Comp.Leads.bind (hpart _ _ _ _ _ h (hxs x List.mem_cons_self)) ?_
      rintro _ w₁ draft₁ hs ⟨e, he, h₁⟩
      refine .mono (ih h₁ fun y hy => hP _ _ _ hs (hxs y (List.mem_cons_of_mem _ hy))) ?_
      rintro _ w₂ draft₂ - ⟨es, hlen, hes, h₂⟩
      refine ⟨e :: es, by simpa using hlen, ⟨he, hes⟩, ?_⟩
      rw [List.map_cons, Core.codeAll_cons]
      have hstart : (sites ++ (e.code scope sites.length false
          ++ (post x).instrs.map (scope.site · .any))).length
          = sites.length + e.length + (post x).instrs.length := by
        simp
        omega
      rw [hstart] at h₂
      simpa [Scope.posts] using h₂

/-- A form with nothing after it. -/
theorem partOk_next (hform : FormOk m I form) :
    PartOk m I d r a t (fun w f => w.Held m d f) (fun _ => .next) fun f => form f false := by
  intro scope sites w draft f h hf
  refine .mono (hform false h hf) ?_
  rintro _ w' draft' - ⟨e, he, h'⟩
  exact ⟨e, he, by simpa [Post.instrs, Scope.post] using h'⟩

/-- A form whose value is pushed. -/
theorem partOk_push (hcall : Steady m I call) (hform : FormOk m I form) {α : Type} (f : α → Value) :
    PartOk m I d r a t (fun w x => w.Held m d (f x)) (fun _ => .push) (fun x => do
      form (f x) false
      pushTemp) := by
  intro scope sites w draft x h hx
  refine .bind (hform false h hx) ?_
  rintro _ w₁ draft₁ - ⟨e, he, h₁⟩
  refine .mono (leads_pushTemp hcall h₁) ?_
  intro _ w₂ draft₂ _ h₂
  exact ⟨e, he, by simpa [Post.instrs, Scope.post] using h₂⟩

/-- The next instruction is behind those emitted so far. -/
theorem leads_here {R : System → System → Prop} [Follows R]
    (h : Emitting m I d r a t scope sites w draft) :
    Comp.Leads R here w draft fun n w' draft' => w = w' ∧ draft = draft' ∧ n = sites.length := by
  unfold here
  refine .bindScope ?_
  rw [h.scope, h.code]
  refine .mono (.lift h.target.looks_length.leads) ?_
  rintro n _ _ - ⟨rfl, rfl, hn⟩
  exact ⟨rfl, rfl, hn⟩

/-- A loop. -/
theorem emits_compileLoop (hcall : Steady m I call) (hform : FormOk m I form) {body : List Value}
    (h : Emitting m I d r a t scope sites w draft) (hbody : ∀ f ∈ body, w.Held m d f) :
    Emits m I d r a t scope sites tail (compileLoop form body) w draft := by
  unfold compileLoop
  refine .bind (leads_here h) ?_
  rintro _ _ _ - ⟨rfl, rfl, rfl⟩
  have hparts := emitsAll_forM (partOk_next hform) (fun _ _ _ hs hf => held_toward hf hs) h hbody
  refine Comp.Leads.bind hparts ?_
  rintro _ w₁ draft₁ - ⟨es, hlen, hes, h₁⟩
  rw [List.length_map] at hlen
  have hposts : body.map (fun _ => Post.next) = es.map fun _ => Post.next := by
    rw [List.map_const', List.map_const', hlen]
  rw [hposts] at hes h₁
  rw [Scope.posts_next] at h₁
  refine .mono (leads_instr hcall h₁ (holds_ofInt _ _) (by simp)) ?_
  intro _ w₂ draft₂ _ h₂
  refine ⟨.loop es, hes, ?_⟩
  rw [Core.code_loop, ← List.append_assoc]
  exact h₂

/-! ## Bindings -/

/-- Variables. -/
theorem emits_compileLet (hcall : Steady m I call) (hform : FormOk m I form) {head list : Value}
    {body : List Value} (h : Emitting m I d r a t scope sites w draft) (hlist : w.Held m d list)
    (hbody : ∀ f ∈ body, w.Held m d f) :
    Emits m I d r a t scope sites tail (compileLet form head list body tail) w draft := by
  unfold compileLet
  refine .bind (leads_bindings hcall.pairs hlist) ?_
  rintro bs _ _ - ⟨rfl, rfl, hbs⟩
  have hparts := emitsAll_forM (partOk_push hcall hform Prod.snd)
    (fun _ _ _ hs hf => held_toward hf hs) h fun b hb => (hbs b hb).2.2
  refine Comp.Leads.bind hparts ?_
  rintro _ w₁ draft₁ hs₁ ⟨es, hlen, hes, h₁⟩
  obtain ⟨names, hnames⟩ : ∃ names, bs.map (·.1) = names := ⟨_, rfl⟩
  have hn : bs.length = names.length := by rw [← hnames, List.length_map]
  have hempty : bs.isEmpty = names.isEmpty := by rw [← hnames, List.isEmpty_map]
  have hposts : bs.map (fun _ => Post.push) = names.map fun _ => Post.push := by
    rw [← hnames, List.map_map]
    rfl
  rw [List.length_map, hn] at hlen
  rw [hposts] at hes h₁
  rw [hnames, hn, hempty]
  refine .bindModify ?_
  have h₂ := h₁.modify (·.nameTop names) rfl
  refine Comp.Leads.bind (emits_compileBody hcall hform h₂ fun f hf => (hbody f hf).of_stable hs₁) ?_
  rintro _ w₂ draft₂ - ⟨e, he, h₃⟩
  -- the variables go out of scope behind the code of the form
  have hclose : ∀ {w₃ draft₃}, Emitting m I d r a t
      ((scope.posts (names.map fun _ => .push)).nameTop names)
      (sites ++ (Core.bind names es e).code scope sites.length tail) w₃ draft₃ →
      Emits m I d r a t scope sites tail (modifyScope (·.drop names.length)) w₃ draft₃ := by
    intro w₃ draft₃ h₄
    refine Comp.Leads.modifyScope ⟨.bind names es e, ⟨hlen, hes, he⟩, ?_⟩
    have h₅ := h₄.modify (·.drop names.length) rfl
    rwa [Scope.drop_nameTop_posts] at h₅
  rw [Core.code_bind] at hclose
  rw [List.length_append, Core.length_codeAll, List.append_assoc] at h₃
  dsimp only
  split
  · rename_i hne
    refine Comp.Leads.bind (leads_instr hcall h₃ (holds_nil _) (by simp)) ?_
    intro _ w₃ draft₃ _ h₄
    refine hclose ?_
    rw [if_neg (by simpa using hne)]
    simpa [List.append_assoc] using h₄
  · rename_i he
    refine hclose ?_
    rw [if_pos (by simpa using he), List.append_nil]
    exact h₃

/-- A form whose value is bound dynamically. -/
theorem partOk_bind (hcall : Steady m I call) (hform : FormOk m I form) :
    PartOk m I d r a t (fun w (b : Value × Value) => w.Held m d b.1 ∧ w.Held m d b.2)
      (fun b => .bind b.1) (fun (name, init) => do
        if (← symbol name).role = .function then warn .dynamicFunction name
        form init false
        op' .dynBind 0 name
        modifyScope (·.push (.dynamic name))) := by
  rintro scope sites w draft ⟨name, init⟩ h ⟨hname, hinit⟩
  have hrest : ∀ {draft}, Emitting m I d r a t scope sites w draft →
      Comp.Leads (Stable (m.toward t) d) (do
        form init false
        op' .dynBind 0 name
        modifyScope (·.push (.dynamic name))) w draft fun _ w' draft' =>
      ∃ e : Core, e.Ok scope ∧
        Emitting m I d r a t (scope.push (.dynamic name)) (sites ++ (e.code scope sites.length false
          ++ [scope.site ⟨.dynBind, 0, name⟩ .any])) w' draft' := by
    intro draft h
    refine .bind (hform false h hinit) ?_
    rintro _ w₁ draft₁ hs ⟨e, he, h₁⟩
    refine .bind (leads_instr hcall h₁ (hname.of_stable hs).good.holds (by simp)) ?_
    intro _ w₂ draft₂ _ h₂
    refine .modifyScope ⟨e, he, ?_⟩
    rw [← List.append_assoc]
    exact h₂.modify (·.push (.dynamic name)) rfl
  refine .bind leads_symbol ?_
  rintro s _ _ - ⟨rfl, rfl, -⟩
  dsimp only
  split
  · refine .bind leads_warn ?_
    rintro _ _ _ - ⟨rfl, warnings, rfl⟩
    exact hrest (h.warnings warnings)
  · exact hrest h

/-- Dynamic bindings. -/
theorem emits_compileDynamicLet (hcall : Steady m I call) (hform : FormOk m I form)
    {head list : Value} {body : List Value} (h : Emitting m I d r a t scope sites w draft)
    (hlist : w.Held m d list) (hbody : ∀ f ∈ body, w.Held m d f) :
    Emits m I d r a t scope sites tail (compileDynamicLet form head list body) w draft := by
  unfold compileDynamicLet
  refine .bind (leads_bindings hcall.pairs hlist) ?_
  rintro bs _ _ - ⟨rfl, rfl, hbs⟩
  have hparts := emitsAll_forM (partOk_bind hcall hform)
    (fun _ _ _ hs hf => ⟨held_toward hf.1 hs, held_toward hf.2 hs⟩) h fun b hb => (hbs b hb).2
  refine Comp.Leads.bind hparts ?_
  rintro _ w₁ draft₁ hs₁ ⟨es, hlen, hes, h₁⟩
  obtain ⟨names, hnames⟩ : ∃ names, bs.map (·.1) = names := ⟨_, rfl⟩
  have hn : bs.length = names.length := by rw [← hnames, List.length_map]
  have hempty : bs.isEmpty = names.isEmpty := by rw [← hnames, List.isEmpty_map]
  have hposts : bs.map (fun b => Post.bind b.1) = names.map .bind := by
    rw [← hnames, List.map_map]
    rfl
  rw [List.length_map, hn] at hlen
  rw [hposts] at hes h₁
  rw [hn, hempty]
  refine Comp.Leads.bind (emits_compileBody hcall hform h₁ fun f hf => (hbody f hf).of_stable hs₁) ?_
  rintro _ w₂ draft₂ - ⟨e, he, h₂⟩
  -- the bindings are undone behind the code of the body
  have hclose : ∀ {w₃ draft₃}, Emitting m I d r a t (scope.posts (names.map .bind))
      (sites ++ (Core.dynBind names es e).code scope sites.length tail) w₃ draft₃ →
      Emits m I d r a t scope sites tail (modifyScope (·.drop names.length)) w₃ draft₃ := by
    intro w₃ draft₃ h₃
    refine Comp.Leads.modifyScope ⟨.dynBind names es e, ⟨hlen, hes, he⟩, ?_⟩
    have h₄ := h₃.modify (·.drop names.length) rfl
    rwa [Scope.drop_posts_bind] at h₄
  rw [Core.code_dynBind] at hclose
  rw [List.length_append, Core.length_codeAll, List.append_assoc] at h₂
  dsimp only
  split
  · rename_i hne
    refine Comp.Leads.bind (leads_instr hcall h₂ (holds_nil _) (by simp)) ?_
    intro _ w₃ draft₃ _ h₃
    refine hclose ?_
    rw [if_neg (by simpa using hne)]
    simpa [List.append_assoc] using h₃
  · rename_i hne
    refine hclose ?_
    rw [if_pos (by simpa using hne), List.append_nil]
    exact h₂

/-! ## Escapes -/

/-- A body with a continuation. -/
theorem emits_compileWithCont (hcall : Steady m I call) (hform : FormOk m I form) {name : Value}
    {body : List Value} (h : Emitting m I d r a t scope sites w draft)
    (hbody : ∀ f ∈ body, w.Held m d f) :
    Emits m I d r a t scope sites tail (compileWithCont form name body) w draft := by
  unfold compileWithCont
  refine .bind (leads_op (k := .any) hcall h (holds_nil _) (by simp)) ?_
  rintro _ w₁ draft₁ hs₁ ⟨rfl, h₁⟩
  refine .bindModify ?_
  have h₂ := h₁.modify (fun s => { s with conts := name :: s.conts }) rfl
  refine Comp.Leads.bind (emits_compileBody hcall hform h₂ fun f hf => (hbody f hf).of_stable hs₁) ?_
  rintro _ w₂ draft₂ - ⟨e, he, h₃⟩
  refine .bindModify ?_
  have h₄ := h₃.modify (fun s => { s with conts := s.conts.drop 1 }) rfl
  refine .bind (leads_instr hcall h₄ (holds_nil _) (by simp)) ?_
  intro _ w₃ draft₃ _ h₅
  rw [List.append_assoc, List.append_assoc, List.singleton_append] at h₅
  refine .mono (leads_patchHere hcall h₅ (by simp [Scope.site])) ?_
  intro _ w₄ draft₄ _ h₆
  refine ⟨.withCont name e, he, ?_⟩
  rw [Core.code_withCont]
  have hend : ∀ l : List Site, l.length = e.length + 1 →
      sites.length + (l.length + 1) = sites.length + e.length + 2 := by
    intro l hl
    omega
  rw [hend _ (by simp)] at h₆
  simpa [Site.pointed, Scope.site] using h₆

/-- An exit to a continuation. -/
theorem emits_compileExit (hcall : Steady m I call) (hform : FormOk m I form) {name : Value}
    {value : Option Value} (h : Emitting m I d r a t scope sites w draft)
    (hvalue : ∀ f, value = some f → w.Held m d f) :
    Emits m I d r a t scope sites tail (compileExit form name value) w draft := by
  unfold compileExit
  refine .bindScope ?_
  rw [h.scope]
  split
  · exact .bindHeap (.fail _)
  · rename_i place hplace
    refine Comp.Leads.bind (emits_compileOptional hcall hform h hvalue) ?_
    rintro _ w₁ draft₁ - ⟨e, he, h₁⟩
    refine .mono (Q := fun _ w' draft' => Emitting m I d r a t scope
      (sites ++ e.code scope sites.length false ++ [scope.site (exitInstr scope name) .any]) w' draft')
      ?_ fun _ w₂ draft₂ _ h₂ => ?_
    · unfold exitInstr
      rw [hplace]
      cases place with
      | stack offset => exact leads_instr (o := .exit) hcall h₁ (holds_nil _) (by simp)
      | env offset index => exact leads_instr (o := .envExit) hcall h₁ (holds_ofInt _ _) (by simp)
    · refine ⟨.exit name e, ⟨by rw [hplace]; rfl, he⟩, ?_⟩
      rw [Core.code_exit, ← List.append_assoc]
      exact h₂

/-! ## Calls -/

/-- Remarks on the number of arguments of a call. -/
theorem leads_warnArity {head : Value} {count : Nat} {R : System → System → Prop} [Follows R] :
    Comp.Leads R (warnArity head count) w draft fun _ w' draft' =>
      w = w' ∧ ∃ warnings, draft' = { draft with warnings } := by
  unfold warnArity
  refine .bindScope ?_
  split
  · refine .bind leads_symbol ?_
    rintro s _ _ - ⟨rfl, rfl, -⟩
    split
    · split
      · exact leads_warn
      · exact .pure ⟨rfl, draft.warnings, rfl⟩
    · exact .pure ⟨rfl, draft.warnings, rfl⟩
  · exact .pure ⟨rfl, draft.warnings, rfl⟩

/-- A call. -/
theorem emits_compileCall (hcall : Steady m I call) (hform : FormOk m I form) {head args : Value}
    (h : Emitting m I d r a t scope sites w draft) (hhead : w.Held m d head)
    (hargs : w.Held m d args) :
    Emits m I d r a t scope sites tail (compileCall form head args tail) w draft := by
  unfold compileCall
  refine .bindHeap ?_
  split
  · exact .bindHeap (.reject _)
  · rename_i items hitems
    refine .bind leads_warnArity ?_
    rintro _ _ _ - ⟨rfl, warnings, rfl⟩
    have hforM : ∀ f : Value → Comp Unit, items.forM f = items.toList.forM f := by
      intro f
      rw [Array.forM_eq_forM]
      exact List.forM_toArray items.toList f
    rw [hforM]
    have hparts := emitsAll_forM (partOk_push hcall hform id)
      (fun _ _ _ hs hf => held_toward hf hs) (h.warnings warnings)
      fun f hf => hargs.items hcall.pairs hitems f (Array.mem_toList_iff.1 hf)
    refine Comp.Leads.bind hparts ?_
    rintro _ w₁ draft₁ hs₁ ⟨es, hlen, hes, h₁⟩
    refine Comp.Leads.bind (hform false h₁ (hhead.of_stable hs₁)) ?_
    rintro _ w₂ draft₂ - ⟨e, he, h₂⟩
    refine Comp.Leads.bind (leads_instr hcall h₂ (holds_nil _) (by cases tail <;> simp)) ?_
    intro _ w₃ draft₃ _ h₃
    rw [List.length_map] at hlen
    have hposts : items.toList.map (fun _ => Post.push) = es.map fun _ => Post.push := by
      rw [List.map_const', List.map_const', hlen]
    have hn : items.size = es.length := by rw [← hlen, Array.length_toList]
    refine Comp.Leads.modifyScope ⟨.call es e, ?_, ?_⟩
    · rw [hposts] at hes he
      exact ⟨hes, he⟩
    · have h₄ := h₃.modify (·.drop items.size) rfl
      rw [← Array.length_toList, Scope.drop_posts_push, Array.length_toList] at h₄
      rw [Core.code_call, ← hposts, ← hn]
      simpa [List.append_assoc] using h₄

end Forms

end Comp
end CellLisp
