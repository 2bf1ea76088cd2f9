import CellLisp.Proofs.State.Emit

/-!
# `CellLisp.Proofs.Compile.Drafted` — the code of a form as it is emitted

While code is emitted it is not known yet where its jumps will lead to, nor then in which
shape the machine will come to an instruction.  The *drafted* code of a form is its code
without the shapes; it depends on nothing but the scope.

    code       the drafted code of a form
    codeAll    of parts one behind the other
-/

namespace CellLisp

/-- An instruction as it is emitted in a scope. -/
def Scope.site (s : Scope) (i : Instr) (gives : Kind) : Site := ⟨i, s, default, gives⟩

@[simp] theorem Ctx.drafted_site (c : Ctx) (val : Option Kind) (i : Instr) :
    (c.site val i).drafted = c.scope.site i .any := rfl

@[simp] theorem Ctx.drafted_giving (c : Ctx) (val : Option Kind) (i : Instr) (k : Kind) :
    ((c.site val i).giving k).drafted = c.scope.site i k := rfl

/-- A place of which nothing but the scope is known. -/
def Scope.ctx (s : Scope) : Ctx := ⟨s, [], [], 0⟩

@[simp] theorem Scope.scope_ctx (s : Scope) : s.ctx.scope = s := rfl

/-- The drafted code of a form. -/
def Core.code (s : Scope) (start : Nat) (tail : Bool) (e : Core) : List Site :=
  (e.gen s.ctx start tail).map Site.drafted

/-- The drafted code of parts one behind the other. -/
def Core.codeAll (s : Scope) (start : Nat) (posts : List Post) (es : List Core) : List Site :=
  (Core.genAll s.ctx start posts es).map Site.drafted

/-! ## Only the scope matters -/

theorem drafted_genFetches {c c' : Ctx} (h : c.scope = c'.scope) (fs : List (Scope → Instr)) :
    (genFetches c fs).map Site.drafted = (genFetches c' fs).map Site.drafted := by
  induction fs generalizing c c' with
  | nil => rfl
  | cons f fs ih =>
      simp only [genFetches, List.map_cons, Ctx.drafted_site, h]
      have hpush : (c.push .any).scope = (c'.push .any).scope := by simp [Ctx.push, h]
      rw [ih hpush]

theorem drafted_genLambda {c c' : Ctx} (h : c.scope = c'.scope) (code maker : Value)
    (copies : Captures) :
    (genLambda c code copies maker).map Site.drafted
      = (genLambda c' code copies maker).map Site.drafted := by
  have hpush : ∀ k, (c.push k).scope = (c'.push k).scope := fun k => by simp [Ctx.push, h]
  have hposts : ∀ k ps, ((c.push k).posts ps).scope = ((c'.push k).posts ps).scope :=
    fun k ps => by rw [Ctx.scope_posts, Ctx.scope_posts, hpush]
  have hpush₂ : ∀ k k', ((c.push k).push k').scope = ((c'.push k).push k').scope :=
    fun k k' => by simp [Ctx.push, h]
  unfold genLambda
  split
  · simp [h]
  · simp only [genJoin, List.map_cons, List.map_append, List.map_nil, Ctx.drafted_site,
      Ctx.drafted_giving, h, hpush, hposts, hpush₂, drafted_genFetches (hpush _)]

mutual

theorem Core.drafted_gen {c c' : Ctx} (h : c.scope = c'.scope) (start : Nat) (tail : Bool) :
    (e : Core) → (e.gen c start tail).map Site.drafted = (e.gen c' start tail).map Site.drafted
  | .const _ | .ref _ _ => by simp [Core.gen, h]
  | .assign _ e => by simp [Core.gen, h, e.drafted_gen h]
  | .exit _ e => by simp [Core.gen, h, e.drafted_gen h]
  | .cond a b d => by
      simp [Core.gen, h, a.drafted_gen h, b.drafted_gen h, d.drafted_gen h]
  | .seq init last => by
      simp [Core.gen, last.drafted_gen h, Core.drafted_genAll h _ _ init]
  | .bind names inits body => by
      have hinner : ((c.posts (names.map fun _ => .push)).nameTop names).scope
          = ((c'.posts (names.map fun _ => .push)).nameTop names).scope := by
        simp [Ctx.nameTop, Ctx.scope_posts, h]
      simp only [Core.gen, List.map_append, body.drafted_gen hinner,
        Core.drafted_genAll h _ _ inits]
      split <;> simp only [List.map_nil, List.map_cons, Ctx.drafted_site, hinner]
  | .dynBind names inits body => by
      have hinner : (c.posts (names.map .bind)).scope = (c'.posts (names.map .bind)).scope := by
        simp [Ctx.scope_posts, h]
      simp only [Core.gen, List.map_append, body.drafted_gen hinner,
        Core.drafted_genAll h _ _ inits]
      split <;> simp [hinner]
  | .lambda code copies maker => by simp [Core.gen, drafted_genLambda h]
  | .withCont k body => by
      have hinner : (c.establish k (start + body.length + 2)).scope
          = (c'.establish k (start + body.length + 2)).scope := by simp [Ctx.establish, h]
      simp only [Core.gen, List.map_cons, List.map_append, List.map_nil, Ctx.drafted_site, h,
        body.drafted_gen hinner]
      rfl
  | .loop body => by simp [Core.gen, h, Core.drafted_genAll h _ _ body]
  | .call args operator => by
      have hinner : (c.posts (args.map fun _ => .push)).scope
          = (c'.posts (args.map fun _ => .push)).scope := by simp [Ctx.scope_posts, h]
      simp only [Core.gen, List.map_append, List.map_cons, List.map_nil, Ctx.drafted_site, hinner,
        operator.drafted_gen hinner, Core.drafted_genAll h _ _ args]

theorem Core.drafted_genAll {c c' : Ctx} (h : c.scope = c'.scope) (start : Nat)
    (posts : List Post) : (es : List Core) →
    (Core.genAll c start posts es).map Site.drafted
      = (Core.genAll c' start posts es).map Site.drafted
  | [] => by simp [Core.genAll]
  | e :: es => by
      cases posts with
      | nil => simp [Core.genAll]
      | cons p posts =>
          have hpost : (c.post p).scope = (c'.post p).scope := by simp [Ctx.post, h]
          simp only [Core.genAll, List.map_append, e.drafted_gen h, List.map_map,
            Core.drafted_genAll hpost _ posts es]
          congr 2
          exact List.map_congr_left fun i _ => by simp [h]

end

theorem Core.drafted_gen_eq (c : Ctx) (start : Nat) (tail : Bool) (e : Core) :
    (e.gen c start tail).map Site.drafted = e.code c.scope start tail :=
  Core.drafted_gen (show c.scope = c.scope.ctx.scope from rfl) start tail e

theorem Core.drafted_genAll_eq (c : Ctx) (start : Nat) (posts : List Post) (es : List Core) :
    (Core.genAll c start posts es).map Site.drafted = Core.codeAll c.scope start posts es :=
  Core.drafted_genAll (show c.scope = c.scope.ctx.scope from rfl) start posts es

/-! ## Code from the code of the parts -/

section Parts

variable (s : Scope) (start : Nat) (tail : Bool)

@[simp] theorem Core.length_code (e : Core) : (e.code s start tail).length = e.length := by
  simp [Core.code, Core.length_gen]

@[simp] theorem Core.length_codeAll (posts : List Post) (es : List Core) :
    (Core.codeAll s start posts es).length = Core.lengthOf posts es := by
  simp [Core.codeAll, Core.length_genAll]

@[simp] theorem Core.codeAll_nil (posts : List Post) : Core.codeAll s start posts [] = [] := by
  simp [Core.codeAll, Core.genAll]

theorem Core.codeAll_cons (p : Post) (posts : List Post) (e : Core) (es : List Core) :
    Core.codeAll s start (p :: posts) (e :: es) = e.code s start false ++
      (p.instrs.map (s.site · .any) ++
        Core.codeAll (s.post p) (start + e.length + p.instrs.length) posts es) := by
  rw [Core.codeAll, Core.genAll, List.map_append, List.map_append, List.map_map,
    Core.drafted_gen_eq, Core.drafted_genAll_eq]
  rfl

@[simp] theorem Core.code_const (v : Value) :
    (Core.const v).code s start tail = [s.site ⟨.const, 0, v⟩ .any] := rfl

@[simp] theorem Core.code_ref (x : Value) (inlined : Option Value) :
    (Core.ref x inlined).code s start tail = [s.site (refInstr s x inlined) .any] := rfl

theorem Core.code_assign (x : Value) (e : Core) :
    (Core.assign x e).code s start tail =
      e.code s start false ++ [s.site (setInstr s x) .any] := by
  simp only [Core.code, Core.gen, List.map_append]
  rfl

theorem Core.code_exit (k : Value) (e : Core) :
    (Core.exit k e).code s start tail =
      e.code s start false ++ [s.site (exitInstr s k) .any] := by
  simp only [Core.code, Core.gen, List.map_append]
  rfl

theorem Core.code_cond (a b d : Core) :
    (Core.cond a b d).code s start tail =
      a.code s start false ++
        s.site ⟨.jumpIfFalse, 0, .ofInt (start + a.length + b.length + 2 : Nat)⟩ .any ::
        (b.code s (start + a.length + 1) tail ++
          s.site ⟨.jump, 0, .ofInt (start + a.length + b.length + 2 + d.length : Nat)⟩ .any ::
          d.code s (start + a.length + b.length + 2) tail) := by
  simp only [Core.code, Core.gen, List.map_append, List.map_cons]
  rfl

theorem Core.code_seq (init : List Core) (last : Core) :
    (Core.seq init last).code s start tail =
      Core.codeAll s start (init.map fun _ => .next) init ++
        last.code s (start + Core.lengthOf (init.map fun _ => .next) init) tail := by
  simp only [Core.code, Core.gen, List.map_append]
  rfl

/-- A form in front of others. -/
theorem Core.code_seq_singleton (e last : Core) :
    (Core.seq [e] last).code s start tail =
      e.code s start false ++ last.code s (start + e.length) tail := by
  simp [Core.code, Core.gen, Core.genAll, Core.lengthOf, Post.instrs]

theorem Core.code_bind (names : List Value) (inits : List Core) (body : Core) :
    (Core.bind names inits body).code s start tail =
      Core.codeAll s start (names.map fun _ => .push) inits ++
        (body.code ((s.posts (names.map fun _ => .push)).nameTop names)
          (start + Core.lengthOf (names.map fun _ => .push) inits) tail ++
          if names.isEmpty then []
          else [((s.posts (names.map fun _ => .push)).nameTop names).site
            ⟨.drop, names.length, .nil⟩ .any]) := by
  have hinner : ((s.ctx.posts (names.map fun _ => .push)).nameTop names).scope
      = (s.posts (names.map fun _ => .push)).nameTop names := by
    simp [Ctx.nameTop, Ctx.scope_posts, Scope.ctx]
  rw [Core.code, Core.gen, List.map_append, List.map_append, Core.drafted_genAll_eq,
    Core.drafted_gen_eq, hinner]
  split <;> simp only [List.map_nil, List.map_cons, Ctx.drafted_site, hinner, Scope.scope_ctx]

theorem Core.code_dynBind (names : List Value) (inits : List Core) (body : Core) :
    (Core.dynBind names inits body).code s start tail =
      Core.codeAll s start (names.map .bind) inits ++
        (body.code (s.posts (names.map .bind))
          (start + Core.lengthOf (names.map .bind) inits) false ++
          if names.isEmpty then []
          else [(s.posts (names.map .bind)).site ⟨.dynUnbind, names.length, .nil⟩ .any]) := by
  have hinner : (s.ctx.posts (names.map .bind)).scope = s.posts (names.map .bind) := by
    simp [Ctx.scope_posts, Scope.ctx]
  rw [Core.code, Core.gen, List.map_append, List.map_append, Core.drafted_genAll_eq,
    Core.drafted_gen_eq, hinner]
  split <;> simp [hinner]

theorem Core.code_withCont (k : Value) (body : Core) :
    (Core.withCont k body).code s start tail =
      s.site ⟨.withCont, 0, .ofInt (start + body.length + 2 : Nat)⟩ .any ::
        (body.code { s with conts := k :: s.conts } (start + 1) false ++
          [s.site ⟨.popCont, 0, .nil⟩ .any]) := by
  rw [Core.code, Core.gen, List.map_cons, List.map_append, Core.drafted_gen_eq]
  rfl

theorem Core.code_loop (body : List Core) :
    (Core.loop body).code s start tail =
      Core.codeAll s start (body.map fun _ => .next) body ++
        [s.site ⟨.jump, 0, .ofInt start⟩ .any] := by
  simp only [Core.code, Core.gen, List.map_append]
  rfl

theorem Core.code_call (args : List Core) (operator : Core) :
    (Core.call args operator).code s start tail =
      Core.codeAll s start (args.map fun _ => .push) args ++
        (operator.code (s.posts (args.map fun _ => .push))
          (start + Core.lengthOf (args.map fun _ => .push) args) false ++
          [(s.posts (args.map fun _ => .push)).site
            ⟨if tail then .tailCall else .call, args.length, .nil⟩ .any]) := by
  have hinner : (s.ctx.posts (args.map fun _ => .push)).scope
      = s.posts (args.map fun _ => .push) := by
    simp [Ctx.scope_posts, Scope.ctx]
  rw [Core.code, Core.gen, List.map_append, List.map_append, Core.drafted_genAll_eq,
    Core.drafted_gen_eq, hinner]
  simp only [List.map_nil, List.map_cons, Ctx.drafted_site, hinner, Scope.scope_ctx]

/-- How the copies of a procedure are fetched and pushed. -/
def codeFetches (s : Scope) : List (Scope → Instr) → List Site
  | [] => []
  | f :: fs =>
    s.site (f s) .any :: s.site ⟨.push, 0, .nil⟩ .any :: codeFetches (s.push .temp) fs

theorem drafted_genFetches_eq (c : Ctx) (fs : List (Scope → Instr)) :
    (genFetches c fs).map Site.drafted = codeFetches c.scope fs := by
  induction fs generalizing c with
  | nil => rfl
  | cons f fs ih =>
      simp only [genFetches, List.map_cons, Ctx.drafted_site, ih, codeFetches]
      rfl

theorem Core.code_lambda (code maker : Value) (copies : Captures) :
    (Core.lambda code copies maker).code s start tail =
      if copies.count = 0 then [s.site ⟨.const, 0, code⟩ .any]
      else s.site ⟨.const, 0, code⟩ (.code copies.count) :: s.site ⟨.push, 0, .nil⟩ .any ::
        (codeFetches (s.push .temp) copies.fetches ++
          [((s.push .temp).posts (copies.fetches.map fun _ => .push)).site
              ⟨.makeArray, copies.count, .nil⟩ .any,
            (s.push .temp).site ⟨.push, 0, .nil⟩ .any,
            ((s.push .temp).push .temp).site ⟨.const, 0, maker⟩ .maker,
            ((s.push .temp).push .temp).site ⟨.call, 2, .nil⟩ .any]) := by
  rw [Core.code, Core.gen, genLambda]
  split
  · rfl
  · simp only [genJoin, List.map_cons, List.map_append, drafted_genFetches_eq, List.map_nil,
      Ctx.drafted_site, Ctx.drafted_giving, Ctx.scope_posts]
    rfl

end Parts

end CellLisp
