import CellLisp.Proofs.Reference.Closures

/-!
# `CellLisp.Proofs.Reference.Simulation` — code does what its form evaluates to

Where the code of a form stands in a procedure that is at work, the machine comes to what the form
evaluates to, unless a store or the stack is full (`Evals.does`): by induction on the derivation,
with one lemma for each rule.

What is known of how a form ends is said of the place behind its code (`Stage.AwaitsForm`): it may
end with a value there; in tail position it may have returned instead; it may have exited to where
the procedure or one of those that wait for it has established a continuation; and it may have
failed.
-/

namespace CellLisp.Reference

/-- A procedure that has been compiled may be called. -/
theorem Lambda.At.isTame {p : Lambda} {h : Heap} {f code : Value} {array : Option Value} {arity : Arity}
    (hp : p.At h f code array arity) : h.isTame false f = true := by
  have hentry := hp.entry
  unfold Heap.entry? at hentry
  unfold Heap.isTame
  split at hentry
  · obtain ⟨rfl, -⟩ := Prod.mk.inj (Option.some.inj hentry)
    obtain ⟨b, hb, -⟩ := hp.carries.exists_bytecode
    unfold Heap.bytecode? at hb
    split at hb
    · rename_i i hi
      rw [hi, Option.map_some]
      split at hb
      · rename_i hc
        rw [hc]
      · cases hb
    · cases hb
  · rename_i i
    cases hc : h.cell i with
    | closure code' env =>
        by_cases hi : i = 0
        · subst hi
          rfl
        · rw [Value.cell?_eq_some_iff.2 ⟨_, rfl, hi⟩, Option.map_some, hc]
    | _ => rw [hc] at hentry; cases hentry
  · cases hentry

namespace Stage

variable {C : Course} {S : Stage C} {tail : Bool} {book : Book} {E E' E₁ : Env} {s : Scope} {k : Kind}
  {ps : List Value} {pc start n : Nat} {f v x c : Value} {t t' : State} {P : Value → Env → State → Prop}
  {Q : Goal} {e : Core} {posts : List Post} {es : List Core}

/-! ## What comes of how a form ends -/

/-- What comes of a form that does not end with a value. -/
structure Leaves (S : Stage C) (tail : Bool) (book : Book) (E : Env) (Q : Goal) : Prop where
  exits : ∀ c v E' t', Q (.exit c v) E' t' → E.Onto E' → S.Escapes tail book E' c v t'
  fails : ∀ cause E' t', Q (.error cause) E' t' → ∀ s : State, s.store = t' → C.refusal cause s

/-- The code of a form stands at a place, and it is known what comes of how the form ends. -/
structure AwaitsForm (S : Stage C) (tail : Bool) (e : Core) (book : Book) (ps : List Value) (s : Scope)
    (start : Nat) (E : Env) (Q : Goal) : Prop where
  code : Segment S.sites start (e.code s start tail)
  names : Scoped S.self ps s E
  conts : tail = true → E.conts = []
  leaves : S.Leaves tail book E Q
  value : ∀ v E' t', Q (.value v) E' t' → E.Like E' → S.Goes book E' (start + e.length) v t'
  returns : tail = true → ∀ v E' t', Q (.value v) E' t' → S.Returns book v t'

/-- The same of parts one behind the other; what stands behind them does not look at the value. -/
structure AwaitsParts (S : Stage C) (posts : List Post) (es : List Core) (book : Book) (ps : List Value)
    (s : Scope) (start : Nat) (E : Env) (Q : Goal) : Prop where
  length : posts.length = es.length
  code : Segment S.sites start (Core.codeAll s start posts es)
  names : Scoped S.self ps s E
  leaves : S.Leaves false book E Q
  value : ∀ v E' t', Q (.value v) E' t' → E.Posted posts E' →
    ∀ u, S.Goes book E' (start + Core.lengthOf posts es) u t'

/-- The same of a call. -/
structure AwaitsCall (S : Stage C) (tail : Bool) (n : Nat) (book : Book) (pc : Nat) (E : Env) (Q : Goal) :
    Prop where
  code : ∃ (s : Scope) (k : Kind), S.sites[pc]? = some (s.site ⟨if tail then .tailCall else .call, n, .nil⟩ k)
  operands : (E.operands n).length = n
  conts : tail = true → E.conts = []
  exits : ∀ c v t', Q (.exit c v) E t' → S.Escapes tail book (E.drop n) c v t'
  fails : ∀ cause t', Q (.error cause) E t' → ∀ s : State, s.store = t' → C.refusal cause s
  value : tail = false → ∀ v t', Q (.value v) E t' → S.Goes book (E.drop n) (pc + 1) v t'
  returns : tail = true → ∀ v t', Q (.value v) E t' → S.Returns book v t'

/-- Where the code of a task stands the run finishes, if it is known what comes of its end. -/
def Does (S : Stage C) (task : Task) (E : Env) (t : State) (Q : Goal) : Prop :=
  match task with
  | .form tail e => ∀ book ps s start v, S.AwaitsForm tail e book ps s start E Q → S.Goes book E start v t
  | .parts posts es => ∀ book ps s start v, S.AwaitsParts posts es book ps s start E Q →
      S.Goes book E start v t
  | .enter tail f n => ∀ book pc, S.AwaitsCall tail n book pc E Q → S.Goes book E pc f t

/-- It need not be the last thing that the procedure does. -/
theorem AwaitsForm.inner (hcode : Segment S.sites start (e.code s start false))
    (hnames : Scoped S.self ps s E) (hleaves : S.Leaves false book E Q)
    (hvalue : ∀ v E' t', Q (.value v) E' t' → E.Like E' → S.Goes book E' (start + e.length) v t') :
    S.AwaitsForm false e book ps s start E Q where
  code := hcode
  names := hnames
  conts ht := absurd ht Bool.false_ne_true
  leaves := hleaves
  value := hvalue
  returns ht := absurd ht Bool.false_ne_true

theorem Leaves.after (h : S.Leaves tail book E Q) : S.Leaves false book E (Q.after P) where
  exits c v E' t' hq honto := by
    cases tail with
    | true => exact (h.exits c v E' t' hq honto).of_tail
    | false => exact h.exits c v E' t' hq honto
  fails := h.fails

theorem Leaves.cut (h : S.Leaves tail book E Q) : S.Leaves tail book E (Q.cut E) where
  exits c v E' t' hq honto :=
    (h.exits c v (E'.cut E) t' hq honto.like_cut.onto).of_above (Env.above_cut E' E)
  fails cause E' t' hq := h.fails cause (E'.cut E) t' hq

theorem Leaves.onto (h : S.Leaves tail book E Q) (hE : E.Onto E') : S.Leaves tail book E' Q where
  exits c v E'' t' hq honto := h.exits c v E'' t' hq (hE.trans honto)
  fails := h.fails

theorem Leaves.undone (h : S.Leaves tail book E Q) (n : Nat) : S.Leaves false book E (Q.undone E n) where
  exits := (h.cut.after (P := fun _ _ _ => True)).exits
  fails := h.cut.fails

/-! ## Forms without parts -/

theorem Does.const (hq : Q (.value x) E t) : S.Does (.form tail (.const x)) E t Q :=
  fun _ _ _ _ _ h => .const h.code.head (h.value x E t hq (.refl E))

theorem Does.refLocal {inlined : Option Value} (hx : S.self.local? E t x = some v)
    (hq : Q (.value v) E t) : S.Does (.form tail (.ref x inlined)) E t Q :=
  fun _ _ _ _ _ h => .refLocal h.code.head h.names hx (h.value v E t hq (.refl E))

theorem Does.refInlined (hx : S.self.meant E x = .global) (hq : Q (.value v) E t) :
    S.Does (.form tail (.ref x (some v))) E t Q := by
  intro book ps s start u h
  have hs := h.code
  rw [Core.code_ref] at hs
  replace hs := hs.head
  simp only [refInstr, h.names.global hx] at hs
  exact .const hs (h.value v E t hq (.refl E))

theorem Does.refGlobal {r : Symbol} (hx : S.self.meant E x = .global) (hr : t.heap.symbol? x = some r)
    (hq : Q (globalOutcome t.heap x r.value) E t) : S.Does (.form tail (.ref x none)) E t Q := by
  intro book ps s start u h
  have hs := h.code
  rw [Core.code_ref] at hs
  replace hs := hs.head
  simp only [refInstr, h.names.global hx] at hs
  refine .globalRef hs hr (fun v hv => h.value v E t ?_ (.refl E)) fun s hv => h.leaves.fails _ E t ?_ s
  · rwa [hv] at hq
  · rwa [hv] at hq

theorem Does.lambda {code maker : Value} {copies : Captures} (hcount : copies.count = 0)
    (hq : Q (.value code) E t) : S.Does (.form tail (.lambda code copies maker)) E t Q := by
  intro book ps s start v h
  have hs := h.code
  have hvalue := h.value code E t hq (.refl E)
  rw [Core.code_lambda, if_pos hcount] at hs
  rw [Core.length, closureLength, if_pos hcount] at hvalue
  exact .const hs.head hvalue

theorem Does.closure {code maker : Value} {copies : Captures} {vs : List Value}
    (hcount : copies.count ≠ 0) (hvs : S.self.copied? E t copies = some vs)
    (hq : ∀ f t', t.Encloses (code :: (vs ++ S.self.keeps E)) code vs f t' → Q (.value f) E t') :
    S.Does (.form tail (.lambda code copies maker)) E t Q :=
  fun _ _ _ _ _ h => .closure h.code hcount h.names hvs fun f t' hencloses =>
    h.value f E t' (hq f t' hencloses) (.refl E)

/-! ## Assignments, branches, sequences -/

theorem Does.assign (he : S.Does (.form false e) E t (Q.after fun v E t =>
      ∃ E' t', S.self.assign? E t x v = some (E', t') ∧ Q (.value v) E' t')) :
    S.Does (.form tail (.assign x e)) E t Q := by
  intro book ps s start v h
  have hcode := h.code
  rw [Core.code_assign] at hcode
  have hset := (hcode.right rfl).head
  rw [Core.length_code] at hset
  refine he book ps s start v (.inner hcode.left h.names h.leaves.after ?_)
  rintro v E₁ t₁ ⟨E₂, t₂, hassign, hq⟩ hlike
  refine .assign hset (h.names.like hlike) hassign (h.value v E₂ t₂ hq (hlike.trans ?_))
  unfold Self.assign? at hassign
  split at hassign
  · obtain ⟨rfl, -⟩ := Prod.mk.inj (Option.some.inj hassign)
    exact Env.like_set E₁ x v
  · obtain ⟨-, -, he⟩ := Option.map_eq_some_iff.1 hassign
    obtain ⟨rfl, -⟩ := Prod.mk.inj he
    exact .refl _
  · obtain ⟨rfl, -⟩ := Prod.mk.inj (Option.some.inj hassign)
    exact .refl _

theorem Does.cond {test yes no : Core} (htest : S.Does (.form false test) E t (Q.after P))
    (hbranch : ∀ v E t, P v E t → S.Does (.form tail (if v.isNil then no else yes)) E t Q) :
    S.Does (.form tail (.cond test yes no)) E t Q := by
  intro book ps s start v h
  have hcode := h.code
  have hbound := hcode.length_le (by simp [Core.length])
  rw [Core.length_code, Core.length] at hbound
  have hend : start + (Core.cond test yes no).length
      = start + test.length + yes.length + 2 + no.length := by
    rw [Core.length]
    omega
  rw [Core.code_cond] at hcode
  have hif := hcode.right rfl
  rw [Core.length_code] at hif
  have hjump := hif.tail.right rfl
  rw [Core.length_code] at hjump
  have hno : Segment S.sites (start + test.length + yes.length + 2)
      (no.code s (start + test.length + yes.length + 2) tail) := by
    have hno := hjump.tail
    rwa [show start + test.length + 1 + yes.length + 1 = start + test.length + yes.length + 2 by omega]
      at hno
  refine htest book ps s start v (.inner hcode.left h.names h.leaves.after ?_)
  intro v E₁ t₁ hp hlike
  have hdoes := hbranch v E₁ t₁ hp
  have hconts : tail = true → E₁.conts = [] := fun ht => hlike.conts.trans (h.conts ht)
  refine .jumpIfFalse hif.head (by omega) ?_
  by_cases hv : v.isNil = true
  · rw [if_pos hv] at hdoes ⊢
    refine hdoes book ps s _ v ⟨hno, h.names.like hlike, hconts, h.leaves.onto hlike.onto, ?_, h.returns⟩
    intro u E₂ t₂ hq hlike₂
    exact hend ▸ h.value u E₂ t₂ hq (hlike.trans hlike₂)
  · rw [if_neg hv] at hdoes ⊢
    refine hdoes book ps s _ v
      ⟨hif.tail.left, h.names.like hlike, hconts, h.leaves.onto hlike.onto, ?_, h.returns⟩
    intro u E₂ t₂ hq hlike₂
    exact .jump hjump.head (by omega) (hend ▸ h.value u E₂ t₂ hq (hlike.trans hlike₂))

theorem Does.seq {init : List Core} {last : Core}
    (hinit : S.Does (.parts (init.map fun _ => .next) init) E t (Q.after P))
    (hlast : ∀ v E t, P v E t → S.Does (.form tail last) E t Q) :
    S.Does (.form tail (.seq init last)) E t Q := by
  intro book ps s start v h
  have hcode := h.code
  rw [Core.code_seq] at hcode
  have hrest := hcode.right rfl
  rw [Core.length_codeAll] at hrest
  refine hinit book ps s start v ⟨List.length_map _, hcode.left, h.names, h.leaves.after, ?_⟩
  intro v E₁ t₁ hp hposted u
  have hlike := hposted.like (Env.filterMap_entry_next init)
  refine hlast v E₁ t₁ hp book ps s _ u ⟨hrest, h.names.like hlike, fun ht =>
    hlike.conts.trans (h.conts ht), h.leaves.onto hlike.onto, fun v E₂ t₂ hq hlike₂ => ?_, h.returns⟩
  rw [Nat.add_assoc]
  exact h.value v E₂ t₂ hq (hlike.trans hlike₂)

theorem Does.loop {body : List Core}
    (hbody : S.Does (.parts (body.map fun _ => .next) body) E t (Q.after P))
    (hagain : ∀ v E t, P v E t → S.Does (.form tail (.loop body)) E t Q) :
    S.Does (.form tail (.loop body)) E t Q := by
  intro book ps s start v h
  have hcode := h.code
  have hbound := hcode.length_le (by simp [Core.length])
  rw [Core.code_loop] at hcode
  have hjump := (hcode.right rfl).head
  rw [Core.length_codeAll] at hjump
  refine hbody book ps s start v ⟨List.length_map _, hcode.left, h.names, h.leaves.after, ?_⟩
  intro v E₁ t₁ hp hposted u
  have hlike := hposted.like (Env.filterMap_entry_next body)
  exact .jump hjump (by omega) (hagain v E₁ t₁ hp book ps s start u { h with
    names := h.names.like hlike
    conts := fun ht => hlike.conts.trans (h.conts ht)
    leaves := h.leaves.onto hlike.onto
    value := fun v E₂ t₂ hq hlike₂ => h.value v E₂ t₂ hq (hlike.trans hlike₂) })

/-! ## Parts -/

theorem Does.done (hq : Q (.value .nil) E t) : S.Does (.parts posts []) E t Q := by
  intro book ps s start v h
  obtain rfl := List.eq_nil_of_length_eq_zero h.length
  exact h.value .nil E t hq (.refl E) v

theorem Does.part {post : Post} (he : S.Does (.form false e) E t (Q.after P))
    (hfollow : ∀ v E t, P v E t → (follow v E t post).isSome)
    (hes : ∀ v E t E' t', P v E t → follow v E t post = some (E', t') → S.Does (.parts posts es) E' t' Q) :
    S.Does (.parts (post :: posts) (e :: es)) E t Q := by
  intro book ps s start v h
  have hcode := h.code
  rw [Core.codeAll_cons] at hcode
  have hpost := hcode.right rfl
  rw [Core.length_code] at hpost
  have hrest := hpost.right rfl
  rw [List.length_map] at hrest
  refine he book ps s start v (.inner hcode.left h.names h.leaves.after ?_)
  intro v E₁ t₁ hp hlike
  obtain ⟨⟨E₂, t₂⟩, hnext⟩ := Option.isSome_iff_exists.1 (hfollow v E₁ t₁ hp)
  have hnames := (h.names.like hlike).post hnext
  have hposted {F : Env} (hF : E₂.Posted posts F) : E.Posted (post :: posts) F := .cons hlike hnext hF
  have hes := hes v E₁ t₁ E₂ t₂ hp hnext
  have hends (u : Value) : S.Goes book E₂ (start + e.length + post.instrs.length) u t₂ := by
    refine hes book ps _ _ u ⟨Nat.succ.inj h.length, hrest, hnames, h.leaves.onto ?_, ?_⟩
    · exact (Env.Posted.cons hlike hnext (.refl E₂)).onto
    · intro w E₃ t₃ hq hE₃ u
      have hvalue := h.value w E₃ t₃ hq (hposted hE₃) u
      rw [Core.lengthOf] at hvalue
      rw [show start + e.length + post.instrs.length + Core.lengthOf posts es
        = start + (e.length + post.instrs.length + Core.lengthOf posts es) by omega]
      exact hvalue
  cases post with
  | next =>
      cases hnext
      exact hends v
  | push =>
      cases hnext
      exact .push hpost.head (hends v)
  | bind x =>
      obtain ⟨r, hr, he⟩ := Option.map_eq_some_iff.1 hnext
      cases he
      exact .dynBind hpost.head hr (hends v)

/-! ## Forms that bind -/

theorem Does.bind {names : List Value} {inits : List Core} {body : Core}
    (hlen : names.length = inits.length)
    (hinits : S.Does (.parts (names.map fun _ => .push) inits) E t ((Q.cut E).after P))
    (hbody : ∀ v E' t, P v E' t → S.Does (.form tail body) (E'.name names) t (Q.cut E)) :
    S.Does (.form tail (.bind names inits body)) E t Q := by
  intro book ps s start v h
  have hcode := h.code
  rw [Core.code_bind] at hcode
  have hrest := hcode.right rfl
  rw [Core.length_codeAll] at hrest
  have hdrop := hrest.right rfl
  rw [Core.length_code] at hdrop
  refine hinits book ps s start v
    ⟨by rw [List.length_map, hlen], hcode.left, h.names, h.leaves.cut.after, ?_⟩
  intro v E₁ t₁ hp hposted u
  have honto : E.Onto (E₁.name names) := ⟨⟨_, hposted.name.symm⟩, hposted.params, hposted.onto.conts⟩
  have hwords : (E₁.name names).words = E₁.words := Env.words_name hposted.operands.1
  refine Goes.of_words ?_ hwords rfl rfl
  refine hbody v E₁ t₁ hp book ps _ _ u ⟨hrest.left, h.names.name hposted, fun ht =>
    hposted.conts.trans (h.conts ht), h.leaves.cut.onto honto, fun w E₂ t₂ hq hlike => ?_,
      fun ht w E₂ t₂ hq => h.returns ht w _ t₂ hq⟩
  obtain ⟨hcut, hle, hwords⟩ := hposted.unname hlike
  have hvalue := h.value w (E₂.cut E) t₂ hq hcut
  rw [Core.length] at hvalue
  cases names with
  | nil =>
      have hE : E₂.cut E = E₂ := ((hposted.like rfl).trans hlike).cut_eq
      rw [hE] at hvalue
      rwa [Nat.add_assoc]
  | cons x names =>
      refine .drop hdrop.head hle hwords rfl ?_ ?_
      · exact hcut.conts.trans (hposted.conts.symm.trans hlike.conts.symm)
      · rwa [Nat.add_assoc, Nat.add_assoc]

theorem Does.dynBind {names : List Value} {inits : List Core} {body : Core}
    (hlen : names.length = inits.length)
    (hinits : S.Does (.parts (names.map .bind) inits) E t ((Q.cut E).after P))
    (hbody : ∀ v E' t', P v E' t' → S.Does (.form false body) E' t' (Q.undone E names.length)) :
    S.Does (.form tail (.dynBind names inits body)) E t Q := by
  intro book ps s start v h
  have hcode := h.code
  rw [Core.code_dynBind] at hcode
  have hrest := hcode.right rfl
  rw [Core.length_codeAll] at hrest
  have hundo := hrest.right rfl
  rw [Core.length_code] at hundo
  refine hinits book ps s start v
    ⟨by rw [List.length_map, hlen], hcode.left, h.names, h.leaves.cut.after, ?_⟩
  intro v E₁ t₁ hp hposted u
  refine hbody v E₁ t₁ hp book ps _ _ u (.inner hrest.left (h.names.posted hposted)
    ((h.leaves.undone names.length).onto hposted.onto) fun w E₂ t₂ hq hlike => ?_)
  obtain ⟨hcut, hwords⟩ := hposted.unbind hlike
  have hvalue := h.value w (E₂.cut E) _ hq hcut
  rw [Core.length] at hvalue
  cases names with
  | nil =>
      have hE : E₂.cut E = E₂ := ((hposted.like rfl).trans hlike).cut_eq
      rw [hE, List.length_nil, Nat.sub_zero, State.unwound_of_le (Nat.le_refl _)] at hvalue
      rwa [Nat.add_assoc]
  | cons x names =>
      refine .dynUnbind hundo.head hwords rfl ?_ ?_
      · exact hcut.conts.trans (hposted.conts.symm.trans hlike.conts.symm)
      · rwa [Nat.add_assoc, Nat.add_assoc]

/-! ## Continuations -/

theorem Does.withCont {name : Value} {body : Core}
    (hbody : ∀ k t', t.Establishes (S.self.keeps E) k t' → S.Does (.form false body)
      (E.establish name k) t' (Q.caught S.self E t.machine.dyns.size k)) :
    S.Does (.form tail (.withCont name body)) E t Q := by
  intro book ps s start v h
  have hcode := h.code
  have hbound := hcode.length_le (by simp [Core.length])
  rw [Core.length_code, Core.length] at hbound
  have hend : start + (Core.withCont name body).length = start + body.length + 2 := by
    rw [Core.length]
    omega
  rw [Core.code_withCont] at hcode
  have hpop := hcode.tail.right rfl
  rw [Core.length_code] at hpop
  refine .withCont (x := name) hcode.head (by omega) fun k t₁ r hestablishes hmarks hnames => ?_
  -- what it comes to behind the form
  have harrives {E₁ : Env} {w : Value} {t₂ : State} (hlike : E.Like (E₁.cut E))
      (hq : ∀ t', State.Drifts t₂ (w :: S.self.keeps (E₁.cut E)) t' → Q (.value w) (E₁.cut E) t')
      (t₃ : State) (hdrifts : t₂.Drifts (w :: S.self.keeps (E₁.cut E)) t₃) :
      S.Goes book (E₁.cut E) (start + body.length + 2) w t₃ := by
    rw [← hend]
    exact h.value w _ t₃ (hq t₃ hdrifts) hlike
  have habove : E.Onto (E.establish name k) := (E.above_establish name k).onto
  refine hbody k t₁ hestablishes ((k, r) :: book) ps _ _ v
    (.inner hcode.tail.left (h.names.establish name k) ⟨?_, ?_⟩ ?_)
  · intro c w E₁ t₂ hq honto
    change (if c = k then _ else _) at hq
    by_cases hc : c = k
    · rw [if_pos hc] at hq
      subst hc
      exact hmarks.escapes hnames honto (harrives (habove.trans honto).like_cut hq)
    · rw [if_neg hc] at hq
      have hescapes := h.leaves.exits c w _ t₂ hq (habove.trans honto).like_cut.onto
      refine Escapes.newer ?_ (k, r)
      cases tail with
      | true => exact hescapes.of_tail
      | false => exact hescapes.of_above (Env.above_cut E₁ E)
  · exact fun cause E₁ t₂ hq => h.leaves.fails cause _ t₂ hq
  · intro w E₁ t₂ hq hlike
    have hlike' : E.Like (E₁.cut E) := (habove.trans hlike.onto).like_cut
    have hcut : E₁.cut E = { E₁ with conts := E.conts } := by
      have hown : E₁.own.length = E.own.length := hlike.length_own
      have hconts : E₁.conts = (name, k) :: E.conts := hlike.conts
      simp [Env.cut, hown, hconts]
    refine .popCont hpop.head hlike.conts fun t₃ hdrifts => ?_
    rw [← hcut] at hdrifts ⊢
    rw [show start + 1 + body.length + 1 = start + body.length + 2 by omega]
    exact harrives hlike' hq t₃ hdrifts

theorem Does.exit {name : Value} (he : S.Does (.form false e) E t (Q.after fun v E t =>
      ∃ k, S.self.cont? E t name = some k ∧ (t.heap.cont? k).isSome ∧
        (k ∈ S.self.inForce E → Q (.exit k v) E t) ∧
        (k ∉ S.self.inForce E → Q (.error .exitedCont) E t))) :
    S.Does (.form tail (.exit name e)) E t Q := by
  intro book ps s start v h
  have hcode := h.code
  rw [Core.code_exit] at hcode
  have hexit := (hcode.right rfl).head
  rw [Core.length_code] at hexit
  refine he book ps s start v (.inner hcode.left h.names h.leaves.after ?_)
  rintro w E₁ t₁ ⟨k, hk, hcont, hin, hout⟩ hlike
  exact .exit hexit (h.names.like hlike) hk hcont tail
    (fun hforce => h.leaves.exits k w E₁ t₁ (hin hforce) hlike.onto)
    fun hforce => h.leaves.fails _ E₁ t₁ (hout hforce)

/-! ## Calls -/

theorem Does.call {args : List Core} {operator : Core} {R : Value → Env → State → Prop}
    (hargs : S.Does (.parts (args.map fun _ => .push) args) E t ((Q.cut E).after P))
    (hoperator : ∀ v E' t, P v E' t → S.Does (.form false operator) E' t ((Q.cut E).after R))
    (henter : ∀ f E' t', R f E' t' → S.Does (.enter tail f args.length) E' t' (Q.cut E)) :
    S.Does (.form tail (.call args operator)) E t Q := by
  intro book ps s start v h
  have hcode := h.code
  rw [Core.code_call] at hcode
  have hrest := hcode.right rfl
  rw [Core.length_codeAll] at hrest
  have hcall := (hrest.right rfl).head
  rw [Core.length_code] at hcall
  refine hargs book ps s start v ⟨List.length_map _, hcode.left, h.names, h.leaves.cut.after, ?_⟩
  intro v E₁ t₁ hp hposted u
  refine hoperator v E₁ t₁ hp book ps _ _ u (.inner hrest.left (h.names.posted hposted)
    (h.leaves.cut.after.onto hposted.onto) ?_)
  intro f E₂ t₂ hr hlike
  obtain ⟨hlen, hdrop, hcut⟩ := (hposted.trans_like hlike).operands
  refine henter f E₂ t₂ hr book _ ⟨⟨_, _, hcall⟩, hlen, fun ht => hdrop.conts.trans (h.conts ht), ?_,
    ?_, ?_, ?_⟩
  · intro c w t₃ hq
    rw [← hcut]
    exact h.leaves.exits c w _ t₃ hq (hcut ▸ hdrop.onto)
  · exact fun cause t₃ hq => h.leaves.fails cause _ t₃ hq
  · intro _ w t₃ hq
    have hvalue := h.value w _ t₃ hq (hcut ▸ hdrop)
    rw [Core.length, hcut] at hvalue
    rwa [Nat.add_assoc, Nat.add_assoc]
  · exact fun ht w t₃ hq => h.returns ht w _ t₃ hq

/-- What is called may be called. -/
theorem AwaitsCall.goes (h : S.AwaitsCall tail n book pc E Q) (htame : ∀ w : System,
      w.state.machine.val = f → w.state.store = t → w.heap.isTame false f = true)
    (next : ∀ w u fs r, S.Calls tail book E n pc f t w u fs r → C.Finishes w.state) :
    S.Goes book E pc f t := by
  obtain ⟨s, k, hs⟩ := h.code
  refine .call hs h.operands h.conts ?_ next
  rintro w g hworks hpc rfl hstore
  exact permits_of_isTame (hworks.instr? (hpc ▸ hs)) (htame w rfl hstore)

/-- The names that a procedure begins with. -/
theorem scoped_bound {σ : Self} {p : Lambda} {code : Value} {args : List Value}
    {list : Value} (hself : σ.copies = p.copies) (harray : σ.array.isSome = (p.copies.count != 0))
    (hle : p.fixed.length ≤ args.length) :
    Scoped σ p.params.reverse (p.proc code).scope (p.bound args list) where
  params := Lambda.bound_names hle
  entries := by
    change (if p.copies.count = 0 then [Entry.frame] else [.env, .frame])
      ++ (p.params.map Entry.var).reverse = _
    by_cases hcount : p.copies.count = 0
    · rw [hcount] at harray
      cases ha : σ.array with
      | none => simp [hcount, Lambda.bound]
      | some a => rw [ha] at harray; cases harray
    · cases ha : σ.array with
      | none =>
          rw [ha] at harray
          simp [hcount] at harray
      | some a => simp [hcount, Lambda.bound]
  conts := rfl
  closedVars := by rw [hself]; rfl
  closedConts := by rw [hself]; rfl

/-- The code of the body, and what comes behind it. -/
theorem segment_body {S : Stage C} {p : Proc} (h : S.sites = p.sites.map Site.drafted) :
    Segment S.sites p.entry.length (p.body.code p.scope p.entry.length p.tail) ∧
      S.sites[p.entry.length + p.body.length]? = some (p.scope.site ⟨.ret, 0, .nil⟩ .any) := by
  have hall : Segment S.sites 0 (p.sites.map Site.drafted) := by
    rw [h]
    intro i _
    rw [Nat.zero_add]
  rw [p.drafted_sites] at hall
  have hsegment := hall.right (n := p.entry.length) (by rw [List.length_map, Nat.zero_add])
  have hret := (hsegment.right rfl).head
  rw [Core.length_code] at hret
  exact ⟨hsegment.left, hret⟩

theorem Does.enterCode {code : Value} {array : Option Value} {arity : Arity} {p : Lambda}
    (hp : p.At t.heap f code array arity) (haccepts : arity.accepts n = true)
    (hbody : ∀ S' : Stage C, S'.self = S.self.callee tail (E.drop n) code array p → ∀ E' t',
      p.Receives t S'.self (E.operands n).reverse E' t' → S'.Does (.form true p.body) E' t' (Q.back E)) :
    S.Does (.enter tail f n) E t Q := by
  intro book pc h
  refine h.goes (fun w _ hstore => ?_) fun w u fs r hcalls => ?_
  · subst hstore
    exact hp.isTame
  have hlen : arity.accepts (E.operands n).length = true := by rwa [h.operands]
  refine hcalls.goes hp hlen fun v E' t' hreceives => ?_
  let S' := hcalls.waits.callee code array p
  obtain ⟨hcode, hret⟩ := segment_body (S := S') (p := p.proc code) rfl
  have hle : p.fixed.length ≤ (E.operands n).reverse.length := by
    rw [List.length_reverse]
    exact hp.arity.le_of_accepts hlen
  have hconts : E'.conts = [] ∧ Scoped S'.self p.params.reverse (p.proc code).scope E' := by
    have hbound := hreceives.bound
    split at hbound
    · obtain ⟨list, rfl, -⟩ := hbound
      exact ⟨rfl, scoped_bound rfl hp.array hle⟩
    · obtain ⟨-, rfl⟩ := hbound
      exact ⟨rfl, scoped_bound rfl hp.array hle⟩
  have hreturns (v : Value) (t' : State) (hq : Q (.value v) E t') : S'.Returns book v t' :=
    hcalls.waits.returns rfl rfl (fun ht => h.value ht v t' hq) fun ht => h.returns ht v t' hq
  exact hbody S' rfl E' t' hreceives book p.params.reverse (p.proc code).scope _ v
    { code := hcode
      names := hconts.2
      conts := fun _ => hconts.1
      leaves := ⟨fun c v E'' t'' hq _ => hcalls.waits.escapes rfl (h.exits c v t'' hq),
        fun cause E'' t'' hq => h.fails cause t'' hq⟩
      value := fun v E'' t'' hq _ => .ret hret (hreturns v t'' hq)
      returns := fun _ v E'' t'' hq => hreturns v t'' hq }

theorem Does.enterWrong {code : Value} {array : Option Value} {arity : Arity} {p : Lambda}
    (hp : p.At t.heap f code array arity) (haccepts : arity.accepts n = false)
    (hq : Q (.error (.arity (t.heap.procName f) arity n)) E t) : S.Does (.enter tail f n) E t Q := by
  intro book pc h
  refine h.goes (fun w _ hstore => ?_) fun w u fs r hcalls => hcalls.refused hp ?_ ?_
  · subst hstore
    exact hp.isTame
  · rwa [h.operands]
  · rw [h.operands]
    exact h.fails _ t hq

theorem isTame_native {h : Heap} {i : Nat} {r : Native} (hcell : h.cell i = .native r)
    (htame : r.procedure.isTame false = true) : h.isTame false (.ref .native i) = true := by
  unfold Heap.isTame
  by_cases hi : i = 0
  · subst hi
    rfl
  · rw [Value.cell?_eq_some_iff.2 ⟨_, rfl, hi⟩, Option.map_some, hcell]
    exact htame

theorem Does.enterNative {i : Nat} {r : Native} (hcell : t.heap.cell i = .native r)
    (htame : r.procedure.isTame false = true) (haccepts : r.arity.accepts n = true)
    (happly : ∀ u : State, u.store = t → u.WellFormed none →
      E.operands n ++ S.self.below tail (E.drop n) ++ S.self.liveBelow tail (E.drop n) ⊆ u.rootValues →
        nativeGoal Q E (Builtin.apply r.procedure (E.operands n).reverse u)) :
    S.Does (.enter tail (.ref .native i) n) E t Q := by
  intro book pc h
  refine h.goes (fun w _ hstore => ?_) fun w u fs r hcalls => hcalls.served hcell ?_ happly
    (fun v t' hq ht => h.value ht v t' hq) (fun v t' hq ht => h.returns ht v t' hq) h.fails
  · subst hstore
    exact isTame_native hcell htame
  · rwa [h.operands]

theorem Does.nativeWrong {i : Nat} {r : Native} (hcell : t.heap.cell i = .native r)
    (htame : r.procedure.isTame false = true) (haccepts : r.arity.accepts n = false)
    (hq : Q (.error (.arity (t.heap.symbolName r.name) r.arity n)) E t) :
    S.Does (.enter tail (.ref .native i) n) E t Q := by
  intro book pc h
  refine h.goes (fun w _ hstore => ?_) fun w u fs r hcalls => hcalls.native_refused hcell ?_ ?_
  · subst hstore
    exact isTame_native hcell htame
  · rwa [h.operands]
  · rw [h.operands]
    exact h.fails _ t hq

theorem Does.notProcedure (hf : f.isProcedure = false)
    (hq : Q (.error (.notProcedure (t.heap.print f))) E t) : S.Does (.enter tail f n) E t Q := by
  intro book pc h
  refine h.goes (fun w hval _ => ?_) fun w u fs r hcalls => hcalls.not_procedure hf (h.fails _ t hq)
  -- a value with a built-in procedure has its tag
  have hholds : w.heap.Holds f := hval ▸ w.wellFormed.holds_val
  unfold Heap.isTame
  cases hi : f.cell? with
  | none => rfl
  | some i =>
      obtain ⟨tag, rfl, hne⟩ := Value.cell?_eq_some_iff.1 hi
      obtain ⟨-, htag⟩ := hholds tag i rfl hne
      rw [Option.map_some]
      cases hc : w.heap.cell i with
      | native r =>
          rw [hc] at htag
          rw [← htag] at hf
          cases hf
      | _ => rfl

end Stage

/-! ## Every evaluation -/

/-- Where the code of a task stands the machine does what the task evaluates to. -/
theorem Evals.does {C : Course} {σ : Self} {task : Task} {E : Env} {t : State} {Q : Goal}
    (h : Evals σ task E t Q) : ∀ S : Stage C, S.self = σ → S.Does task E t Q := by
  induction h with
  | const hq => exact fun S _ => .const hq
  | refLocal hx hq => rintro S rfl; exact .refLocal hx hq
  | refInlined hx hq => rintro S rfl; exact .refInlined hx hq
  | refGlobal hx hr hq => rintro S rfl; exact .refGlobal hx hr hq
  | assign _ ih => rintro S rfl; exact .assign (ih S rfl)
  | cond _ _ ih ih' => exact fun S hS => .cond (ih S hS) fun v E t hp => ih' v E t hp S hS
  | seq _ _ ih ih' => exact fun S hS => .seq (ih S hS) fun v E t hp => ih' v E t hp S hS
  | bind hlen _ _ ih ih' => exact fun S hS => .bind hlen (ih S hS) fun v E t hp => ih' v E t hp S hS
  | dynBind hlen _ _ ih ih' =>
      exact fun S hS => .dynBind hlen (ih S hS) fun v E t hp => ih' v E t hp S hS
  | lambda hcount hq => exact fun S _ => .lambda hcount hq
  | closure hcount hvs hq => rintro S rfl; exact .closure hcount hvs hq
  | withCont _ ih => rintro S rfl; exact .withCont fun k t' hk => ih k t' hk S rfl
  | exit _ ih => rintro S rfl; exact .exit (ih S rfl)
  | loop _ _ ih ih' => exact fun S hS => .loop (ih S hS) fun v E t hp => ih' v E t hp S hS
  | call _ _ _ ih ih' ih'' =>
      exact fun S hS => .call (ih S hS) (fun v E t hp => ih' v E t hp S hS)
        fun f E t hr => ih'' f E t hr S hS
  | done hq => exact fun S _ => .done hq
  | part _ hfollow _ ih ih' =>
      exact fun S hS => .part (ih S hS) hfollow fun v E t E' t' hp he => ih' v E t E' t' hp he S hS
  | enterCode hp haccepts _ ih =>
      rintro S rfl
      exact .enterCode hp haccepts fun S' hS' E' t' hr => ih E' t' (hS' ▸ hr) S' hS'
  | enterWrong hp haccepts hq => exact fun S _ => .enterWrong hp haccepts hq
  | enterNative hcell htame haccepts happly =>
      rintro S rfl
      exact .enterNative hcell htame haccepts happly
  | nativeWrong hcell htame haccepts hq => exact fun S _ => .nativeWrong hcell htame haccepts hq
  | notProcedure hf hq => exact fun S _ => .notProcedure hf hq

end CellLisp.Reference
