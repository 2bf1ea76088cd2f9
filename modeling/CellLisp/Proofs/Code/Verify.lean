import CellLisp.Proofs.Code.Core

/-!
# `CellLisp.Proofs.Code.Verify` — compiled code is safe

The code of a form is safe wherever it stands, provided that what follows it takes the
operands it began with and its value (`Core.safe`).  The proof goes by recursion on the
form; what the compiler's scope says of the operand stack is `Models`, and it is what makes
every offset that a name resolves to the offset of a variable, and every offset of the
environment that of the environment.

| | |
| :-- | :-- |
| `Segment` | a piece of code stands in a listing at an instruction |
| `Models` | the entries of a scope stand for words of these kinds |
| `Coherent` | scope, operands and continuations of a place go together |
| `SegmentOk` | the instructions of a piece are safe |
-/

namespace CellLisp

/-! ## Pieces of a listing -/

/-- A piece stands in a listing at an instruction. -/
def Segment (l : List Site) (start : Nat) (xs : List Site) : Prop :=
  ∀ i, i < xs.length → l[start + i]? = xs[i]?

theorem Segment.left {l xs ys : List Site} {start : Nat} (h : Segment l start (xs ++ ys)) :
    Segment l start xs := by
  intro i hi
  rw [h i (by simp; omega), List.getElem?_append_left hi]

theorem Segment.right {l xs ys : List Site} {start n : Nat} (h : Segment l start (xs ++ ys))
    (hn : n = start + xs.length) : Segment l n ys := by
  intro i hi
  have := h (xs.length + i) (by simp; omega)
  rw [List.getElem?_append_right (by omega), Nat.add_sub_cancel_left] at this
  rw [hn, Nat.add_assoc, this]

theorem Segment.head {l xs : List Site} {x : Site} {start : Nat} (h : Segment l start (x :: xs)) :
    l[start]? = some x := by
  simpa using h 0 (by simp)

theorem Segment.tail {l xs : List Site} {x : Site} {start : Nat} (h : Segment l start (x :: xs)) :
    Segment l (start + 1) xs :=
  Segment.right (show Segment l start ([x] ++ xs) from h) rfl

/-! ## Arriving -/

theorem Arrives.of_forget {l : List Site} {n : Nat} {sh : Shape} (h : Arrives l n sh.forget) :
    Arrives l n sh := by
  obtain ⟨s, hs, he, hv⟩ := h
  exact ⟨s, hs, he, fun k hk => by simpa [Shape.forget] using hv k hk⟩

theorem Segment.arrives {l xs : List Site} {x : Site} {start : Nat} {sh : Shape}
    (h : Segment l start (x :: xs)) (hx : x.shape = sh) : Arrives l start sh :=
  ⟨x, h.head, by rw [hx], fun k hk => by rw [← hx]; exact hk⟩

theorem Nested.mono {l : List Site} {ops ops' : List Kind} {dyns dyns' : Nat}
    {labels : List Label} (h : Nested l ops dyns labels) (ho : ops <:+ ops') (hd : dyns ≤ dyns') :
    Nested l ops' dyns' labels := by
  cases labels with
  | nil => trivial
  | cons k older => exact ⟨h.1.trans ho, Nat.le_trans h.2.1 hd, h.2.2⟩

/-! ## Lengths -/

@[simp] theorem length_genFetches (c : Ctx) (fs : List (Scope → Instr)) :
    (genFetches c fs).length = 2 * fs.length := by
  induction fs generalizing c with
  | nil => rfl
  | cons f fs ih =>
      simp [genFetches, ih]
      omega

@[simp] theorem length_fetches (copies : Captures) : copies.fetches.length = copies.count := by
  simp [Captures.fetches, Captures.count]

theorem length_genLambda (c : Ctx) (code : Value) (copies : Captures) (maker : Value) :
    (genLambda c code copies maker).length = closureLength copies.count := by
  unfold genLambda closureLength
  split
  · rfl
  · simp [genJoin]

mutual

theorem Core.length_gen (c : Ctx) (start : Nat) (tail : Bool) :
    (e : Core) → (e.gen c start tail).length = e.length
  | .const _ | .ref _ _ => by simp [Core.gen, Core.length]
  | .assign _ e | .exit _ e => by simp [Core.gen, Core.length, e.length_gen]
  | .cond a b d => by
      simp [Core.gen, Core.length, a.length_gen, b.length_gen, d.length_gen]
      omega
  | .seq init last => by simp [Core.gen, Core.length, Core.length_genAll, last.length_gen]
  | .bind names inits body => by
      simp [Core.gen, Core.length, Core.length_genAll, body.length_gen]
      split <;> simp <;> omega
  | .dynBind names inits body => by
      simp [Core.gen, Core.length, Core.length_genAll, body.length_gen]
      split <;> simp <;> omega
  | .lambda code copies maker => by simp [Core.gen, Core.length, length_genLambda]
  | .withCont _ body => by simp [Core.gen, Core.length, body.length_gen]
  | .loop body => by simp [Core.gen, Core.length, Core.length_genAll]
  | .call args operator => by
      simp [Core.gen, Core.length, Core.length_genAll, operator.length_gen]
      omega

theorem Core.length_genAll (c : Ctx) (start : Nat) (posts : List Post) :
    (es : List Core) → (Core.genAll c start posts es).length = Core.lengthOf posts es
  | [] => rfl
  | e :: es => by
      cases posts with
      | nil => rfl
      | cons p posts =>
          simp [Core.genAll, Core.lengthOf, e.length_gen, Core.length_genAll _ _ posts es]
          omega

end

/-! ## Scopes and words -/

/-- The entries of a scope stand for words of these kinds; the environment has `n` copies. -/
inductive Models (n : Nat) : List Entry → List Kind → Prop
  | nil : Models n [] []
  | var {x : Value} {es : List Entry} {ks : List Kind} :
      Models n es ks → Models n (.var x :: es) (.any :: ks)
  | env {es : List Entry} {ks : List Kind} :
      Models n es ks → Models n (.env :: es) (.env n :: ks)
  | frame {es : List Entry} {ks : List Kind} :
      Models n es ks → Models n (.frame :: es) (.saved :: .saved :: .saved :: ks)
  | temp {k : Kind} {es : List Entry} {ks : List Kind} :
      Models n es ks → Models n (.temp :: es) (k :: ks)
  | dynamic {x : Value} {es : List Entry} {ks : List Kind} :
      Models n es ks → Models n (.dynamic x :: es) ks

theorem Models.depth {n : Nat} {es : List Entry} {ks : List Kind} (h : Models n es ks) :
    es.foldr (fun e n => e.slots + n) 0 = ks.length := by
  induction h with
  | nil => rfl
  | var _ ih | env _ ih | temp _ ih | dynamic _ ih =>
      rw [List.foldr_cons, ih]
      simp [Entry.slots, Nat.add_comm]
  | frame _ ih =>
      rw [List.foldr_cons, ih]
      simp [Entry.slots]
      omega

/-- A variable is found where a value lies. -/
theorem Models.findEntry {n : Nat} {es : List Entry} {ks : List Kind} (h : Models n es ks)
    {x : Value} {offset k : Nat}
    (hf : Scope.findEntry x offset es = some (.stack k)) :
    offset ≤ k ∧ ks[k - offset]? = some .any := by
  induction h generalizing offset with
  | nil => cases hf
  | @var y _ _ _ ih =>
      simp only [Scope.findEntry] at hf
      split at hf
      · obtain rfl : offset = k := by simpa using hf
        simp
      · obtain ⟨hle, hk⟩ := ih hf
        refine ⟨by omega, ?_⟩
        rw [show k - offset = (k - (offset + 1)) + 1 by omega, List.getElem?_cons_succ, hk]
  | env _ ih | temp _ ih =>
      obtain ⟨hle, hk⟩ := ih hf
      refine ⟨by omega, ?_⟩
      rw [show k - offset = (k - (offset + 1)) + 1 by omega, List.getElem?_cons_succ, hk]
  | frame _ ih =>
      obtain ⟨hle, hk⟩ := ih hf
      refine ⟨by omega, ?_⟩
      rw [show k - offset = (k - (offset + 3)) + 3 by omega]
      simpa using hk
  | dynamic _ ih =>
      simp only [Scope.findEntry] at hf
      split at hf
      · cases hf
      · exact ih hf

/-- The search among entries does not end in the environment. -/
theorem Scope.findEntry_ne_env (x : Value) (es : List Entry) (offset k i : Nat) :
    Scope.findEntry x offset es ≠ some (.env k i) := by
  induction es generalizing offset with
  | nil => simp [Scope.findEntry]
  | cons e es ih =>
      cases e with
      | var y | dynamic y =>
          simp only [Scope.findEntry]
          split
          · simp
          · exact ih _
      | env | frame | temp => exact ih _

/-- The environment is found where it lies. -/
theorem Models.findEnv {n : Nat} {es : List Entry} {ks : List Kind} (h : Models n es ks)
    {offset k : Nat} (hf : Scope.findEnv offset es = some k) :
    offset ≤ k ∧ ks[k - offset]? = some (.env n) := by
  induction h generalizing offset with
  | nil => cases hf
  | env _ _ =>
      obtain rfl : offset = k := by simpa [Scope.findEnv] using hf
      simp
  | var _ ih | temp _ ih =>
      obtain ⟨hle, hk⟩ := ih (by simpa [Scope.findEnv, Entry.slots] using hf)
      refine ⟨by omega, ?_⟩
      rw [show k - offset = (k - (offset + 1)) + 1 by omega, List.getElem?_cons_succ, hk]
  | frame _ ih =>
      obtain ⟨hle, hk⟩ := ih (by simpa [Scope.findEnv, Entry.slots] using hf)
      refine ⟨by omega, ?_⟩
      rw [show k - offset = (k - (offset + 3)) + 3 by omega]
      simpa using hk
  | dynamic _ ih => exact ih (by simpa [Scope.findEnv, Entry.slots] using hf)

theorem Scope.isSome_findEnv (es : List Entry) (offset : Nat) :
    (Scope.findEnv offset es).isSome = decide (Entry.env ∈ es) := by
  induction es generalizing offset with
  | nil => rfl
  | cons e es ih =>
      by_cases h : e = .env
      · simp [Scope.findEnv, h]
      · simp [Scope.findEnv, h, ih, Ne.symm h]

/-! ## Places -/

/-- Copies in the environment of a procedure. -/
def Scope.copies (s : Scope) : Nat := s.closedConts.length + s.closedVars.length

/-- Scope, operands and continuations of a place go together. -/
structure Coherent (fixed : List Kind) (l : List Site) (c : Ctx) : Prop where
  models : Models c.scope.copies c.scope.entries (c.ops ++ fixed)
  conts : c.scope.conts.length = c.labels.length
  nested : Nested l c.ops c.dyns c.labels

/-- An instruction is safe where it stands. -/
structure SiteOk (fixed : List Kind) (l : List Site) (i : Nat) (s : Site) : Prop where
  safe : Site.Safe fixed l i s
  nested : Nested l s.shape.ops s.shape.dyns s.shape.labels
  depth : s.scope.depth = s.shape.ops.length + fixed.length
  inner : s.instr.op ≠ .varargs

/-- The instructions of a piece are safe. -/
def SegmentOk (fixed : List Kind) (l : List Site) (start : Nat) (xs : List Site) : Prop :=
  ∀ i s, xs[i]? = some s → SiteOk fixed l (start + i) s

section Pieces

variable {fixed : List Kind} {l xs ys : List Site} {start : Nat}

theorem segmentOk_nil : SegmentOk fixed l start [] := by
  intro i s hs
  simp at hs

theorem SegmentOk.append (hx : SegmentOk fixed l start xs)
    (hy : SegmentOk fixed l (start + xs.length) ys) : SegmentOk fixed l start (xs ++ ys) := by
  intro i s hs
  rcases Nat.lt_or_ge i xs.length with hi | hi
  · rw [List.getElem?_append_left hi] at hs
    exact hx i s hs
  · rw [List.getElem?_append_right hi] at hs
    have := hy _ s hs
    rwa [show start + xs.length + (i - xs.length) = start + i by omega] at this

theorem SegmentOk.cons {x : Site} (hx : SiteOk fixed l start x)
    (hy : SegmentOk fixed l (start + 1) xs) : SegmentOk fixed l start (x :: xs) := by
  intro i s hs
  cases i with
  | zero =>
      obtain rfl : x = s := by simpa using hs
      exact hx
  | succ i =>
      have := hy i s (by simpa using hs)
      rwa [show start + 1 + i = start + (i + 1) by omega] at this

theorem segmentOk_singleton {x : Site} (hx : SiteOk fixed l start x) :
    SegmentOk fixed l start [x] :=
  .cons hx segmentOk_nil

end Pieces

section Places

variable {fixed : List Kind} {l : List Site} {c : Ctx}

theorem Coherent.depth (hc : Coherent fixed l c) :
    c.scope.depth = c.ops.length + fixed.length := by
  rw [Scope.depth, hc.models.depth, List.length_append]

/-- A site of a place is as safe as its instruction is. -/
theorem Coherent.siteOk (hc : Coherent fixed l c) {i : Nat} {val : Option Kind} {x : Instr}
    {k : Kind} (hs : Site.Safe fixed l i ((c.site val x).giving k)) (hx : x.op ≠ .varargs) :
    SiteOk fixed l i ((c.site val x).giving k) :=
  ⟨hs, hc.nested, hc.depth, hx⟩

theorem Coherent.push (hc : Coherent fixed l c) (k : Kind) : Coherent fixed l (c.push k) :=
  ⟨hc.models.temp, hc.conts, hc.nested.mono (List.suffix_cons _ _) (Nat.le_refl _)⟩

theorem Coherent.post (hc : Coherent fixed l c) (p : Post) : Coherent fixed l (c.post p) := by
  cases p with
  | next => exact ⟨hc.models, hc.conts, hc.nested⟩
  | push => exact hc.push .any
  | bind x => exact ⟨hc.models.dynamic, hc.conts, hc.nested.mono (List.suffix_refl _) (by simp [Ctx.post])⟩

theorem Coherent.posts (hc : Coherent fixed l c) (ps : List Post) :
    Coherent fixed l (c.posts ps) := by
  induction ps generalizing c with
  | nil => exact hc
  | cons p ps ih => exact ih (hc.post p)

/-- A name that resolves to a place on the stack resolves to a value there. -/
theorem Coherent.stack (hc : Coherent fixed l c) {x : Value} {offset : Nat}
    (hx : c.scope.resolve x = .stack offset) : (c.ops ++ fixed)[offset]? = some .any := by
  simp only [Scope.resolve] at hx
  split at hx
  · rename_i place hf
    exact (hc.models.findEntry (hx ▸ hf)).2
  · split at hx
    · cases hx
    · split at hx <;> cases hx

theorem Coherent.envOffset (hc : Coherent fixed l c) {offset : Nat}
    (hx : c.scope.envOffset = some offset) :
    (c.ops ++ fixed)[offset]? = some (.env c.scope.copies) :=
  (hc.models.findEnv hx).2

/-- A name that resolves to a copy resolves to one of the environment there. -/
theorem Coherent.env (hc : Coherent fixed l c) {x : Value} {offset index : Nat}
    (hx : c.scope.resolve x = .env offset index) :
    (c.ops ++ fixed)[offset]? = some (.env c.scope.copies) ∧ index < c.scope.copies := by
  simp only [Scope.resolve] at hx
  split at hx
  · rename_i place hf
    exact (Scope.findEntry_ne_env _ _ _ _ _ (hx ▸ hf)).elim
  · split at hx
    · cases hx
    · rename_i i hi
      split at hx
      · rename_i o ho
        obtain ⟨rfl, rfl⟩ : o = offset ∧ c.scope.closedConts.length + i = index := by simpa using hx
        have hlt := List.findIdx?_eq_some_iff_getElem.1 hi
        exact ⟨hc.envOffset ho, Nat.add_lt_add_left hlt.1 _⟩
      · cases hx

/-- A continuation of the procedure itself is among those of the place. -/
theorem Coherent.contStack (hc : Coherent fixed l c) {k : Value} {offset : Nat}
    (hk : c.scope.resolveCont k = some (.stack offset)) : offset < c.labels.length := by
  simp only [Scope.resolveCont] at hk
  split at hk
  · rename_i i hi
    obtain rfl : i = offset := by simpa using hk
    rw [← hc.conts]
    exact (List.findIdx?_eq_some_iff_getElem.1 hi).1
  · split at hk <;> cases hk

theorem Coherent.contEnv (hc : Coherent fixed l c) {k : Value} {offset index : Nat}
    (hk : c.scope.resolveCont k = some (.env offset index)) :
    (c.ops ++ fixed)[offset]? = some (.env c.scope.copies) ∧ index < c.scope.copies := by
  simp only [Scope.resolveCont] at hk
  split at hk
  · cases hk
  · split at hk
    · rename_i i o hi ho
      obtain ⟨rfl, rfl⟩ : o = offset ∧ i = index := by simpa using hk
      have hlt := (List.findIdx?_eq_some_iff_getElem.1 hi).1
      exact ⟨hc.envOffset ho, Nat.lt_of_lt_of_le hlt (Nat.le_add_right _ _)⟩
    · cases hk

/-- A reference to a variable. -/
theorem Coherent.ref (hc : Coherent fixed l c) {i : Nat} (x : Value) (inlined : Option Value)
    (hnext : Arrives l (i + 1) (c.shape (some .any))) :
    SiteOk fixed l i (c.site none (refInstr c.scope x inlined)) := by
  unfold refInstr
  cases hx : c.scope.resolve x with
  | stack offset => exact hc.siteOk (k := .any) ⟨hc.stack hx, hnext⟩ (by simp)
  | env offset index =>
      exact hc.siteOk (k := .any) ⟨⟨_, _, (hc.env hx).1, rfl, (hc.env hx).2⟩, hnext⟩ (by simp)
  | global =>
      cases inlined with
      | none => exact hc.siteOk (k := .any) hnext (by simp)
      | some v => exact hc.siteOk (k := .any) hnext (by simp)

/-- An assignment to a variable. -/
theorem Coherent.set (hc : Coherent fixed l c) {i : Nat} (x : Value)
    (hnext : Arrives l (i + 1) (c.shape (some .any))) :
    SiteOk fixed l i (c.site (some .any) (setInstr c.scope x)) := by
  unfold setInstr
  cases hx : c.scope.resolve x with
  | stack offset => exact hc.siteOk (k := .any) ⟨hc.stack hx, rfl, hnext⟩ (by simp)
  | env offset index =>
      exact hc.siteOk (k := .any) ⟨⟨_, _, (hc.env hx).1, rfl, (hc.env hx).2⟩, rfl, hnext⟩
        (by simp)
  | global => exact hc.siteOk (k := .any) ⟨rfl, hnext⟩ (by simp)

/-- A reference to a continuation in scope. -/
theorem Coherent.cont (hc : Coherent fixed l c) {i : Nat} {k : Value}
    (hk : (c.scope.resolveCont k).isSome) (hnext : Arrives l (i + 1) (c.shape (some .any))) :
    SiteOk fixed l i (c.site none (contInstr c.scope k)) := by
  unfold contInstr
  cases hx : c.scope.resolveCont k with
  | none => simp [hx] at hk
  | some place =>
      cases place with
      | stack offset => exact hc.siteOk (k := .any) ⟨hc.contStack hx, hnext⟩ (by simp)
      | env offset index =>
          exact hc.siteOk (k := .any)
            ⟨⟨_, _, (hc.contEnv hx).1, rfl, (hc.contEnv hx).2⟩, hnext⟩ (by simp)

/-- An exit to a continuation in scope. -/
theorem Coherent.exit (hc : Coherent fixed l c) {i : Nat} {k : Value}
    (hk : (c.scope.resolveCont k).isSome) :
    SiteOk fixed l i (c.site (some .any) (exitInstr c.scope k)) := by
  unfold exitInstr
  cases hx : c.scope.resolveCont k with
  | none => simp [hx] at hk
  | some place =>
      cases place with
      | stack offset => exact hc.siteOk (k := .any) ⟨hc.contStack hx, rfl⟩ (by simp)
      | env offset index =>
          exact hc.siteOk (k := .any) ⟨⟨_, _, (hc.contEnv hx).1, rfl, (hc.contEnv hx).2⟩, rfl⟩
            (by simp)

end Places

/-! ## Procedures -/

/-- A continuation stays in scope when operands are pushed. -/
theorem Scope.isSome_resolveCont_push (s : Scope) (k : Value) :
    ((s.push .temp).resolveCont k).isSome = (s.resolveCont k).isSome := by
  have henv : ((s.push .temp).envOffset).isSome = s.envOffset.isSome := by
    simp [envOffset, isSome_findEnv, push]
  simp only [resolveCont, show (s.push .temp).conts = s.conts from rfl,
    show (s.push .temp).closedConts = s.closedConts from rfl]
  cases s.conts.idxOf? k with
  | some i => rfl
  | none =>
      cases s.closedConts.idxOf? k with
      | none => rfl
      | some i =>
          cases h : (s.push .temp).envOffset <;> cases h' : s.envOffset <;> simp [h, h'] at henv ⊢

/-- How a copy is fetched is safe in every scope with these operands more. -/
def FetchOk (fixed : List Kind) (l : List Site) (c : Ctx) (f : Scope → Instr) : Prop :=
  ∀ n i, Coherent fixed l (c.posts (List.replicate n .push)) →
    Arrives l (i + 1) ((c.posts (List.replicate n .push)).shape (some .any)) →
    SiteOk fixed l i ((c.posts (List.replicate n .push)).site none
      (f (c.posts (List.replicate n .push)).scope))

section Procedures

variable {fixed : List Kind} {l : List Site} {c : Ctx}

theorem FetchOk.push {f : Scope → Instr} (hf : FetchOk fixed l c f) :
    FetchOk fixed l (c.push .any) f := by
  intro n i hc harr
  have hf := hf (n + 1) i
  simp only [List.replicate_succ] at hf
  exact hf hc harr

/-- Fetching copies is safe, and leads to as many operands more. -/
theorem segmentOk_genFetches {fs : List (Scope → Instr)} {start : Nat}
    (hc : Coherent fixed l c) (hf : ∀ f ∈ fs, FetchOk fixed l c f)
    (hseg : Segment l start (genFetches c fs))
    (hend : Arrives l (start + 2 * fs.length) ((c.posts (fs.map fun _ => .push)).shape none)) :
    SegmentOk fixed l start (genFetches c fs) ∧ Arrives l start (c.shape none) := by
  induction fs generalizing c start with
  | nil => exact ⟨segmentOk_nil, hend⟩
  | cons f fs ih =>
      have hstart : Arrives l start (c.shape none) := hseg.arrives rfl
      have hpush : Arrives l (start + 1) (c.shape (some .any)) := hseg.tail.arrives rfl
      obtain ⟨hok, hnext⟩ := @ih (c.push .any) (start + 2) (hc.push .any)
        (fun g hg => (hf g (List.mem_cons_of_mem _ hg)).push) hseg.tail.tail
        (by rwa [List.length_cons, show start + 2 * (fs.length + 1) = start + 2 + 2 * fs.length
              by omega] at hend)
      refine ⟨.cons ?_ (.cons ?_ hok), hstart⟩
      · exact hf f (by simp) 0 start hc hpush
      · exact hc.siteOk (k := .any) ⟨.any, rfl, hnext.of_forget⟩ (by simp)

/-- Pushed operands lie on top of those before. -/
theorem Ctx.ops_posts_push {α : Type} (c : Ctx) (xs : List α) :
    (c.posts (xs.map fun _ => .push)).ops = List.replicate xs.length .any ++ c.ops := by
  induction xs generalizing c with
  | nil => rfl
  | cons x xs ih =>
      have := ih (c.post .push)
      rw [List.map_cons, Ctx.posts, List.foldl_cons]
      refine this.trans ?_
      show List.replicate xs.length Kind.any ++ (.any :: c.ops) = _
      rw [List.length_cons, List.replicate_succ', List.append_assoc]
      rfl

theorem Ctx.labels_posts (c : Ctx) (ps : List Post) : (c.posts ps).labels = c.labels := by
  induction ps generalizing c with
  | nil => rfl
  | cons p ps ih => exact ih (c.post p)

theorem Ctx.dyns_posts_push {α : Type} (c : Ctx) (xs : List α) :
    (c.posts (xs.map fun _ => .push)).dyns = c.dyns := by
  induction xs generalizing c with
  | nil => rfl
  | cons x xs ih => exact ih (c.post .push)

theorem Scope.isSome_resolveCont_posts_push (s : Scope) (k : Value) (n : Nat) :
    ((s.posts (List.replicate n .push)).resolveCont k).isSome = (s.resolveCont k).isSome := by
  induction n generalizing s with
  | zero => rfl
  | succ n ih => exact (ih (s.push .temp)).trans (s.isSome_resolveCont_push k)

theorem Ctx.scope_posts (c : Ctx) (ps : List Post) : (c.posts ps).scope = c.scope.posts ps := by
  induction ps generalizing c with
  | nil => rfl
  | cons p ps ih => exact ih (c.post p)

theorem fetchOk_fetches {copies : Captures} (hk : ∀ k ∈ copies.conts, (c.scope.resolveCont k).isSome) :
    ∀ f ∈ copies.fetches, FetchOk fixed l c f := by
  intro f hf n i hc harr
  rcases List.mem_append.1 hf with hf | hf
  · obtain ⟨k, hmem, rfl⟩ := List.mem_map.1 hf
    refine hc.cont ?_ harr
    rw [Ctx.scope_posts, Scope.isSome_resolveCont_posts_push]
    exact hk k hmem
  · obtain ⟨x, -, rfl⟩ := List.mem_map.1 hf
    exact hc.ref x none harr

/-- Joining code to its copies is safe. -/
theorem segmentOk_genJoin {start : Nat} {code maker : Value} {copies : Captures}
    (hc : Coherent fixed l c) (hk : ∀ k ∈ copies.conts, (c.scope.resolveCont k).isSome)
    (hseg : Segment l start (genJoin c code copies maker))
    (hend : Arrives l (start + (2 * copies.count + 6)) (c.shape (some .any))) :
    SegmentOk fixed l start (genJoin c code copies maker) := by
  unfold genJoin at hseg ⊢
  have hinner := hc.push (.code copies.count)
  have hjoined := hinner.push (.env copies.count)
  have hlen := length_genFetches (c.push (.code copies.count)) copies.fetches
  rw [length_fetches] at hlen
  have hlast := hseg.tail.tail.right (n := start + 2 + 2 * copies.count) (by rw [hlen])
  have hops := (c.push (.code copies.count)).ops_posts_push copies.fetches
  have hdyns := (c.push (.code copies.count)).dyns_posts_push copies.fetches
  have hlabels := (c.push (.code copies.count)).labels_posts (copies.fetches.map fun _ => .push)
  rw [length_fetches] at hops
  obtain ⟨hfetch, hfirst⟩ := segmentOk_genFetches hinner
    (fetchOk_fetches fun k hmem => by
      rw [← hk k hmem]
      exact c.scope.isSome_resolveCont_push k)
    hseg.tail.tail.left (by rw [length_fetches]; exact hlast.arrives rfl)
  refine .cons ?_ (.cons ?_ (.append hfetch ?_))
  · exact hc.siteOk (hseg.tail.arrives rfl) (by simp)
  · exact hc.siteOk (k := .any) ⟨_, rfl, hfirst.of_forget⟩ (by simp)
  · rw [hlen]
    refine .cons ?_ (.cons ?_ (.cons ?_ (segmentOk_singleton ?_)))
    · refine (hinner.posts _).siteOk (k := .any) ⟨?_, ?_, ?_, ?_⟩ (by simp)
      · simp only [Ctx.site, Ctx.shape, Site.giving, hops]
        simp
      · simp only [Ctx.site, Ctx.shape, Site.giving, hops]
        simp
      · exact ⟨_, hlast.tail.tail.tail.head, rfl, rfl⟩
      · refine hlast.tail.arrives ?_
        simp only [Ctx.site, Ctx.shape, Site.giving, hops, hdyns, hlabels]
        simp
    · exact hinner.siteOk (k := .any) ⟨_, rfl, (hlast.tail.tail.arrives rfl).of_forget⟩ (by simp)
    · exact hjoined.siteOk (hlast.tail.tail.tail.arrives rfl) (by simp)
    · refine hjoined.siteOk (k := .any) (.inr ⟨rfl, rfl, _, _, rfl, ?_⟩) (by simp)
      rwa [show start + 1 + 1 + 2 * copies.count + 1 + 1 + 1 + 1 = start + (2 * copies.count + 6)
        by omega]

/-- A procedure is safe. -/
theorem segmentOk_genLambda {start : Nat} {code maker : Value} {copies : Captures}
    (hc : Coherent fixed l c) (hk : ∀ k ∈ copies.conts, (c.scope.resolveCont k).isSome)
    (hseg : Segment l start (genLambda c code copies maker))
    (hend : Arrives l (start + closureLength copies.count) (c.shape (some .any))) :
    SegmentOk fixed l start (genLambda c code copies maker) := by
  unfold genLambda closureLength at *
  split at hseg
  · rename_i hzero
    rw [if_pos hzero] at hend ⊢
    exact segmentOk_singleton (hc.siteOk (k := .any) hend (by simp))
  · rename_i hpos
    rw [if_neg hpos] at hend ⊢
    exact segmentOk_genJoin hc hk hseg hend

end Procedures

/-! ## Binding forms -/

@[simp] theorem Scope.copies_posts (s : Scope) (ps : List Post) : (s.posts ps).copies = s.copies := by
  induction ps generalizing s with
  | nil => rfl
  | cons p ps ih =>
      refine (ih (s.post p)).trans ?_
      cases p <;> rfl

theorem Scope.entries_posts_push (s : Scope) (names : List Value) :
    (s.posts (names.map fun _ => .push)).entries
      = List.replicate names.length .temp ++ s.entries := by
  induction names generalizing s with
  | nil => rfl
  | cons x names ih =>
      refine (ih (s.push .temp)).trans ?_
      show List.replicate names.length Entry.temp ++ (.temp :: s.entries) = _
      rw [List.length_cons, List.replicate_succ', List.append_assoc]
      rfl

/-- The top operands become variables. -/
theorem Scope.entries_nameTop_posts (s : Scope) (names : List Value) :
    ((s.posts (names.map fun _ => .push)).nameTop names).entries
      = (names.map Entry.var).reverse ++ s.entries := by
  simp only [nameTop, s.entries_posts_push names]
  simp

theorem Models.vars {n : Nat} {es : List Entry} {ks : List Kind} (h : Models n es ks)
    (names : List Value) :
    Models n ((names.map Entry.var).reverse ++ es) (List.replicate names.length .any ++ ks) := by
  induction names generalizing es ks with
  | nil => exact h
  | cons x names ih =>
      have hx : Models n (.var x :: es) (.any :: ks) := h.var
      simpa [List.replicate_succ', List.append_assoc] using ih hx

section Binding

variable {fixed : List Kind} {l : List Site} {c : Ctx}

theorem Coherent.bind (hc : Coherent fixed l c) (names : List Value) :
    Coherent fixed l ((c.posts (names.map fun _ => .push)).nameTop names) := by
  have hp := hc.posts (names.map fun _ => .push)
  refine ⟨?_, hp.conts, hp.nested⟩
  have hm := hc.models.vars names
  rw [← List.append_assoc, ← c.ops_posts_push names, ← c.scope.entries_nameTop_posts names,
    ← c.scope.copies_posts (names.map fun _ => .push), ← Ctx.scope_posts] at hm
  exact hm

theorem Coherent.establish (hc : Coherent fixed l c) (k : Value) {target : Nat}
    (ht : Arrives l target (c.shape (some .any))) : Coherent fixed l (c.establish k target) :=
  ⟨hc.models, congrArg (· + 1) hc.conts,
    ⟨List.suffix_refl _, Nat.le_refl _, ht, hc.nested⟩⟩

end Binding

theorem Ctx.ops_posts_bind (c : Ctx) (names : List Value) : (c.posts (names.map .bind)).ops = c.ops := by
  induction names generalizing c with
  | nil => rfl
  | cons x names ih => exact ih (c.post (.bind x))

theorem Ctx.posts_next {α : Type} (c : Ctx) (xs : List α) : c.posts (xs.map fun _ => .next) = c := by
  induction xs with
  | nil => rfl
  | cons x xs ih => exact ih

theorem Ctx.dyns_posts_bind (c : Ctx) (names : List Value) :
    (c.posts (names.map .bind)).dyns = c.dyns + names.length := by
  induction names generalizing c with
  | nil => rfl
  | cons x names ih =>
      refine (ih (c.post (.bind x))).trans ?_
      simp [Ctx.post, Post.dyns]
      omega

/-! ## Where a form begins -/

mutual

/-- The first instruction of a form asks nothing of the value register. -/
theorem Core.gen_head {c : Ctx} (start : Nat) (tail : Bool) : (e : Core) → e.Ok c.scope →
    ∃ s rest, e.gen c start tail = s :: rest ∧ s.shape = c.shape none
  | .const _, _ | .ref _ _, _ => ⟨_, _, rfl, rfl⟩
  | .assign _ e, h => by
      obtain ⟨s, rest, he, hs⟩ := e.gen_head start false h
      exact ⟨s, _, by rw [Core.gen, he, List.cons_append], hs⟩
  | .exit _ e, h => by
      obtain ⟨s, rest, he, hs⟩ := e.gen_head start false h.2
      exact ⟨s, _, by rw [Core.gen, he, List.cons_append], hs⟩
  | .cond a _ _, h => by
      obtain ⟨s, rest, he, hs⟩ := a.gen_head start false h.1
      exact ⟨s, _, by rw [Core.gen, he, List.cons_append], hs⟩
  | .seq init last, h => by
      rcases Core.genAll_head start init h.1 (by simp) with rfl | ⟨s, rest, he, hs⟩
      · exact last.gen_head start tail h.2
      · exact ⟨s, _, by rw [Core.gen, he, List.cons_append], hs⟩
  | .bind names inits body, h => by
      rcases Core.genAll_head start inits h.2.1 (by simp [h.1]) with rfl | ⟨s, rest, he, hs⟩
      · obtain rfl : names = [] := by simpa using h.1
        obtain ⟨s, rest, he, hs⟩ := body.gen_head (c := (c.posts []).nameTop []) start tail h.2.2
        exact ⟨s, _, by simp [Core.gen, Core.genAll, Core.lengthOf, he]; rfl, hs⟩
      · exact ⟨s, _, by rw [Core.gen, he, List.cons_append], hs⟩
  | .dynBind names inits body, h => by
      rcases Core.genAll_head start inits h.2.1 (by simp [h.1]) with rfl | ⟨s, rest, he, hs⟩
      · obtain rfl : names = [] := by simpa using h.1
        obtain ⟨s, rest, he, hs⟩ := body.gen_head (c := c) start false h.2.2
        exact ⟨s, _, by simp [Core.gen, Core.genAll, Core.lengthOf, Ctx.posts, he]; rfl, hs⟩
      · exact ⟨s, _, by rw [Core.gen, he, List.cons_append], hs⟩
  | .lambda code copies maker, _ => by
      rw [Core.gen, genLambda]
      split
      · exact ⟨_, _, rfl, rfl⟩
      · exact ⟨_, _, rfl, rfl⟩
  | .withCont _ _, _ => ⟨_, _, rfl, rfl⟩
  | .loop body, h => by
      rcases Core.genAll_head start body h (by simp) with rfl | ⟨s, rest, he, hs⟩
      · exact ⟨_, _, rfl, rfl⟩
      · exact ⟨s, _, by rw [Core.gen, he, List.cons_append], hs⟩
  | .call args operator, h => by
      rcases Core.genAll_head start args h.1 (by simp) with rfl | ⟨s, rest, he, hs⟩
      · obtain ⟨s, rest, he, hs⟩ := operator.gen_head (c := c) start false h.2
        exact ⟨s, _, by simp [Core.gen, Core.genAll, Core.lengthOf, Ctx.posts, he]; rfl, hs⟩
      · exact ⟨s, _, by rw [Core.gen, he, List.cons_append], hs⟩

theorem Core.genAll_head {c : Ctx} (start : Nat) {posts : List Post} : (es : List Core) →
    Core.OkAll c.scope posts es → posts.length = es.length →
    es = [] ∨ ∃ s rest, Core.genAll c start posts es = s :: rest ∧ s.shape = c.shape none
  | [], _, _ => .inl rfl
  | e :: es, h, hlen => by
      cases posts with
      | nil => simp at hlen
      | cons p posts =>
          obtain ⟨s, rest, he, hs⟩ := e.gen_head start false h.1
          exact .inr ⟨s, _, by rw [Core.genAll, he, List.cons_append], hs⟩

end

/-- The machine comes to a form whatever is in the value register. -/
theorem Core.arrives {e : Core} {l : List Site} {c : Ctx} {start : Nat} {tail : Bool}
    (hok : e.Ok c.scope) (hseg : Segment l start (e.gen c start tail)) :
    Arrives l start (c.shape none) := by
  obtain ⟨s, rest, he, hs⟩ := e.gen_head start tail hok
  exact Segment.arrives (he ▸ hseg) hs

theorem Core.arrivesAll {es : List Core} {l : List Site} {c : Ctx} {start : Nat}
    {posts : List Post} (hok : Core.OkAll c.scope posts es) (hlen : posts.length = es.length)
    (hseg : Segment l start (Core.genAll c start posts es))
    (hend : Arrives l (start + Core.lengthOf posts es) ((c.posts posts).shape none)) :
    Arrives l start (c.shape none) := by
  rcases Core.genAll_head start es hok hlen with rfl | ⟨s, rest, he, hs⟩
  · obtain rfl : posts = [] := by simpa using hlen
    exact hend
  · exact Segment.arrives (he ▸ hseg) hs

/-! ## Forms -/

section Forms

variable {fixed : List Kind} {l : List Site}

mutual

/-- The code of a form is safe where what follows takes its value. -/
theorem Core.safe {c : Ctx} {start : Nat} {tail : Bool} : (e : Core) → Coherent fixed l c →
    e.Ok c.scope → (tail = true → c.labels = [] ∧ c.dyns = 0) →
    Segment l start (e.gen c start tail) →
    Arrives l (start + e.length) (c.shape (some .any)) →
    SegmentOk fixed l start (e.gen c start tail)
  | .const v, hc, _, _, _, hend => segmentOk_singleton (hc.siteOk (k := .any) hend (by simp))
  | .ref x inlined, hc, _, _, _, hend => segmentOk_singleton (hc.ref x inlined hend)
  | .assign x e, hc, hok, _, hseg, hend => by
      rw [Core.gen] at hseg ⊢
      have hset := hseg.right rfl
      rw [e.length_gen] at hset
      refine .append (e.safe hc hok nofun hseg.left (hset.arrives rfl)) ?_
      rw [e.length_gen]
      exact segmentOk_singleton (hc.set x hend)
  | .exit k e, hc, hok, _, hseg, hend => by
      rw [Core.gen] at hseg ⊢
      have hexit := hseg.right rfl
      rw [e.length_gen] at hexit
      refine .append (e.safe hc hok.2 nofun hseg.left (hexit.arrives rfl)) ?_
      exact segmentOk_singleton (hc.exit hok.1)
  | .cond a b d, hc, hok, htail, hseg, hend => by
      rw [Core.gen] at hseg ⊢
      have hskip := hseg.right rfl
      rw [a.length_gen] at hskip
      have hleave := hskip.tail.right rfl
      rw [b.length_gen] at hleave
      rw [show start + a.length + 1 + b.length = start + a.length + b.length + 1 by omega]
        at hleave
      have hend' : Arrives l (start + a.length + b.length + 2 + d.length)
          (c.shape (some .any)) := by
        rw [Core.length] at hend
        rwa [show start + (a.length + b.length + d.length + 2)
          = start + a.length + b.length + 2 + d.length by omega] at hend
      refine .append (a.safe hc hok.1 nofun hseg.left (hskip.arrives rfl)) ?_
      rw [a.length_gen]
      refine .cons (hc.siteOk (k := .any) ⟨⟨_, rfl, ?_⟩, ?_⟩ (by simp)) (.append ?_ ?_)
      · exact (Core.arrives hok.2.2 hleave.tail).of_forget
      · exact (Core.arrives hok.2.1 hskip.tail.left).of_forget
      · refine b.safe hc hok.2.1 htail hskip.tail.left ?_
        rw [show start + a.length + 1 + b.length = start + a.length + b.length + 1 by omega]
        exact hleave.arrives rfl
      · rw [b.length_gen,
          show start + a.length + 1 + b.length = start + a.length + b.length + 1 by omega]
        exact .cons (hc.siteOk (k := .any) ⟨_, rfl, hend'⟩ (by simp))
          (d.safe hc hok.2.2 htail hleave.tail hend')
  | .seq init last, hc, hok, htail, hseg, hend => by
      rw [Core.gen] at hseg ⊢
      have hlast := hseg.right rfl
      rw [Core.length_genAll] at hlast
      have hposts : c.posts (init.map fun _ => .next) = c := Ctx.posts_next c init
      refine .append (Core.safeAll init hc hok.1 (by simp) hseg.left ?_) ?_
      · rw [hposts]
        exact Core.arrives hok.2 hlast
      · rw [Core.length_genAll]
        refine last.safe hc hok.2 htail hlast ?_
        rwa [Nat.add_assoc]
  | .bind names inits body, hc, hok, htail, hseg, hend => by
      rw [Core.gen] at hseg ⊢
      have hbody := hseg.right rfl
      rw [Core.length_genAll] at hbody
      have hdrop := hbody.right rfl
      rw [body.length_gen] at hdrop
      have hinner := hc.bind names
      have hops := c.ops_posts_push names
      have hdyns := c.dyns_posts_push names
      have hlabels := c.labels_posts (names.map fun _ => .push)
      have hscope := c.scope_posts (names.map fun _ => .push)
      have hlen : (names.map fun _ => Post.push).length = inits.length := by simp [hok.1]
      rw [Core.Ok, ← hscope] at hok
      refine .append (Core.safeAll inits hc hok.2.1 hlen hseg.left ?_) (.append ?_ ?_)
      · exact Core.arrives (c := (c.posts (names.map fun _ => .push)).nameTop names) hok.2.2
          hbody.left
      · rw [Core.length_genAll]
        refine body.safe hinner hok.2.2 (fun ht => ?_) hbody.left ?_
        · obtain ⟨h1, h2⟩ := htail ht
          exact ⟨hlabels.trans h1, hdyns.trans h2⟩
        · by_cases hn : names.isEmpty = true
          · obtain rfl : names = [] := by simpa using hn
            simpa [Core.length, Ctx.posts, Ctx.nameTop, Ctx.shape, Nat.add_assoc] using hend
          · rw [if_neg hn] at hdrop
            exact hdrop.arrives rfl
      · rw [Core.length_genAll, body.length_gen]
        by_cases hn : names.isEmpty = true
        · rw [if_pos hn]
          exact segmentOk_nil
        · rw [if_neg hn]
          refine segmentOk_singleton (hinner.siteOk (k := .any) ⟨?_, ?_⟩ (by simp))
          · simp only [Ctx.site, Ctx.shape, Ctx.nameTop, hops, Site.giving]
            simp
          · rw [Core.length, if_neg hn] at hend
            simp only [Ctx.site, Ctx.shape, Ctx.nameTop, hops, hdyns, hlabels, Site.giving]
            simpa [Ctx.shape, Nat.add_assoc] using hend
  | .dynBind names inits body, hc, hok, _, hseg, hend => by
      rw [Core.gen] at hseg ⊢
      have hbody := hseg.right rfl
      rw [Core.length_genAll] at hbody
      have hdrop := hbody.right rfl
      rw [body.length_gen] at hdrop
      have hinner := hc.posts (names.map .bind)
      have hops := c.ops_posts_bind names
      have hdyns := c.dyns_posts_bind names
      have hlabels := c.labels_posts (names.map .bind)
      have hscope := c.scope_posts (names.map .bind)
      have hlen : (names.map Post.bind).length = inits.length := by simp [hok.1]
      rw [Core.Ok, ← hscope] at hok
      refine .append (Core.safeAll inits hc hok.2.1 hlen hseg.left ?_) (.append ?_ ?_)
      · exact Core.arrives hok.2.2 hbody.left
      · rw [Core.length_genAll]
        refine body.safe hinner hok.2.2 nofun hbody.left ?_
        by_cases hn : names.isEmpty = true
        · obtain rfl : names = [] := by simpa using hn
          simpa [Core.length, Ctx.posts, Nat.add_assoc] using hend
        · rw [if_neg hn] at hdrop
          exact hdrop.arrives rfl
      · rw [Core.length_genAll, body.length_gen]
        by_cases hn : names.isEmpty = true
        · rw [if_pos hn]
          exact segmentOk_nil
        · rw [if_neg hn]
          refine segmentOk_singleton (hinner.siteOk (k := .any) ⟨?_, ?_⟩ (by simp))
          · simp only [Ctx.site, Ctx.shape, Site.giving, hdyns]
            simp
          · rw [Core.length, if_neg hn] at hend
            simpa [Ctx.site, Ctx.shape, hops, hdyns, hlabels, Site.giving, Nat.add_assoc]
              using hend
  | .lambda code copies maker, hc, hok, _, hseg, hend => by
      rw [Core.gen] at hseg ⊢
      exact segmentOk_genLambda hc hok hseg hend
  | .withCont k body, hc, hok, _, hseg, hend => by
      rw [Core.gen] at hseg ⊢
      have hend' : Arrives l (start + body.length + 2) (c.shape (some .any)) := hend
      have hinner := hc.establish k hend'
      have hpop := hseg.tail.right rfl
      rw [body.length_gen, show start + 1 + body.length = start + body.length + 1 by omega] at hpop
      refine .cons (hc.siteOk (k := .any) ⟨_, rfl, hend', ?_⟩ (by simp)) (.append ?_ ?_)
      · exact (Core.arrives (c := c.establish k (start + body.length + 2)) hok
          hseg.tail.left).of_forget
      · refine body.safe hinner hok nofun hseg.tail.left ?_
        rw [show start + 1 + body.length = start + body.length + 1 by omega]
        exact hpop.arrives rfl
      · rw [body.length_gen, show start + 1 + body.length = start + body.length + 1 by omega]
        exact segmentOk_singleton
          ⟨⟨_, _, rfl, hend'⟩, hinner.nested, hc.depth, by simp [Ctx.site]⟩
  | .loop body, hc, hok, _, hseg, _ => by
      rw [Core.gen] at hseg ⊢
      have hjump := hseg.right rfl
      rw [Core.length_genAll] at hjump
      have hposts : c.posts (body.map fun _ => .next) = c := Ctx.posts_next c body
      have hlast : Arrives l (start + Core.lengthOf (body.map fun _ => .next) body)
          ((c.posts (body.map fun _ => .next)).shape none) := by
        rw [hposts]
        exact hjump.arrives rfl
      have hstart := Core.arrivesAll hok (by simp) hseg.left hlast
      refine .append (Core.safeAll body hc hok (by simp) hseg.left hlast) ?_
      exact segmentOk_singleton (hc.siteOk (k := .any) ⟨_, rfl, hstart⟩ (by simp))
  | .call args operator, hc, hok, htail, hseg, hend => by
      rw [Core.gen] at hseg ⊢
      have hop := hseg.right rfl
      rw [Core.length_genAll] at hop
      have hcall := hop.right rfl
      rw [operator.length_gen] at hcall
      have hinner := hc.posts (args.map fun _ => .push)
      have hops := c.ops_posts_push args
      have hdyns := c.dyns_posts_push args
      have hlabels := c.labels_posts (args.map fun _ => .push)
      have hscope := c.scope_posts (args.map fun _ => .push)
      rw [Core.Ok, ← hscope] at hok
      refine .append (Core.safeAll args hc hok.1 (by simp) hseg.left ?_) (.append ?_ ?_)
      · exact Core.arrives hok.2 hop.left
      · rw [Core.length_genAll]
        exact operator.safe hinner hok.2 nofun hop.left (hcall.arrives rfl)
      · rw [Core.length_genAll, operator.length_gen]
        refine segmentOk_singleton ?_
        cases tail with
        | true =>
            obtain ⟨h1, h2⟩ := htail rfl
            refine hinner.siteOk (k := .any) ⟨rfl, ?_, ?_, ?_, ?_⟩ (by simp)
            · simp only [Ctx.site, Ctx.shape, Site.giving, hops]
              simp
            · simp only [Ctx.site, Ctx.shape, Site.giving, hops]
              simp
            · simp only [Ctx.site, Ctx.shape, Site.giving, hlabels, h1]
            · simp only [Ctx.site, Ctx.shape, Site.giving, hdyns, h2]
        | false =>
            refine hinner.siteOk (k := .any) (.inl ⟨rfl, ?_, ?_, ?_⟩) (by simp)
            · simp only [Ctx.site, Ctx.shape, Site.giving, hops]
              simp
            · simp only [Ctx.site, Ctx.shape, Site.giving, hops]
              simp
            · rw [Core.length] at hend
              simp only [Ctx.site, Ctx.shape, Site.giving, hops, hdyns, hlabels]
              simpa [Ctx.shape, Nat.add_assoc] using hend

theorem Core.safeAll {c : Ctx} {start : Nat} {posts : List Post} : (es : List Core) →
    Coherent fixed l c → Core.OkAll c.scope posts es → posts.length = es.length →
    Segment l start (Core.genAll c start posts es) →
    Arrives l (start + Core.lengthOf posts es) ((c.posts posts).shape none) →
    SegmentOk fixed l start (Core.genAll c start posts es)
  | [], _, _, _, _, _ => by
      rw [Core.genAll]
      exact segmentOk_nil
  | e :: es, hc, hok, hlen, hseg, hend => by
      cases posts with
      | nil => simp at hlen
      | cons p posts =>
          rw [Core.genAll] at hseg ⊢
          rw [Core.lengthOf] at hend
          have hlen' : posts.length = es.length := by simpa using hlen
          have hpost := hseg.right rfl
          rw [e.length_gen] at hpost
          have hrest := hpost.right (n := start + e.length + p.instrs.length) (by simp)
          have hend' : Arrives l
              (start + e.length + p.instrs.length + Core.lengthOf posts es)
              (((c.post p).posts posts).shape none) := by
            rwa [show start + (e.length + p.instrs.length + Core.lengthOf posts es)
              = start + e.length + p.instrs.length + Core.lengthOf posts es by omega] at hend
          have hnext := Core.arrivesAll (c := c.post p) hok.2 hlen' hrest hend'
          have hall := Core.safeAll es (hc.post p) hok.2 hlen' hrest hend'
          refine .append (e.safe hc hok.1 nofun hseg.left ?_) (.append ?_ ?_)
          · cases p with
            | next => exact Arrives.of_forget hnext
            | push => exact hpost.arrives rfl
            | bind x => exact hpost.arrives rfl
          · rw [e.length_gen]
            cases p with
            | next => exact segmentOk_nil
            | push =>
                exact segmentOk_singleton
                  (hc.siteOk (k := .any) ⟨_, rfl, Arrives.of_forget hnext⟩ (by simp))
            | bind x =>
                exact segmentOk_singleton
                  (hc.siteOk (k := .any) ⟨rfl, Arrives.of_forget hnext⟩ (by simp))
          · rw [e.length_gen, List.length_map]
            exact hall

end

end Forms

end CellLisp
