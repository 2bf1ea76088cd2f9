import CellLisp.Proofs.Reference.Source

/-!
# `CellLisp.Proofs.Reference.Captured` — what the walk over a body comes upon

Before the body of a procedure is compiled a walk over it collects what the procedure copies.  In a
form whose parts call no expander and are not evaluated while compiling (`Heap.Plain`) it comes upon
exactly the names that are free in the form and bound around the procedure (`Covered`):

    walkTails, walkBindings, …   do, if the walk over parts does (`Covers`)
    walkTo                       does, to any depth (`covers_walkTo`)

A step that only looks things up (`Comp.Consults`) leaves the state and the draft as they are.
-/

namespace CellLisp

open Reference

/-! ## Steps that look things up -/

/-- A step of a compilation only looks, at the draft as at the state. -/
def Comp.Consults {α : Type} (act : Comp α) (d : Draft) (s : State) (P : α → Prop) : Prop :=
  Looks (act d) s fun p => p.2 = d ∧ P p.1

namespace Comp.Consults

variable {α β : Type} {act : Comp α} {f : α → Comp β} {d : Draft} {s : State} {P P' : α → Prop}
  {Q : β → Prop}

theorem pure {a : α} (h : P a) : Consults (pure a) d s P := Looks.pure ⟨rfl, h⟩

theorem mono (h : Consults act d s P) (himp : ∀ a, P a → P' a) : Consults act d s P' :=
  Looks.mono h fun _ hp => hp.imp_right (himp _)

theorem bind (h : Consults act d s P) (hf : ∀ a, P a → Consults (f a) d s Q) :
    Consults (act >>= f) d s Q := by
  refine Looks.bind h ?_
  rintro ⟨a, _⟩ ⟨rfl, ha⟩
  exact hf a ha

theorem lift {act : Act α} (h : Looks act s P) : Consults (liftM act : Comp α) d s P :=
  Looks.bind h fun _ ha => Looks.pure ⟨rfl, ha⟩

theorem gets {g : State → α} : Consults (liftM (CellLisp.gets g) : Comp α) d s (· = g s) :=
  lift (Looks.gets rfl)

theorem heap {g : Heap → α} : Consults (Comp.heap g) d s (· = g s.heap) := ⟨rfl, rfl, rfl⟩

theorem scope : Consults Comp.scope d s (· = d.scope) := ⟨rfl, rfl, rfl⟩

theorem halt (cause : Fatal) : Consults (CellLisp.halt cause : Comp α) d s P := lift (Looks.halt _)

theorem reject (cause : FormError) : Consults (Comp.reject cause : Comp α) d s P :=
  lift (Looks.fail _)

end Comp.Consults

/-- A pair taken apart; nil twice for anything else. -/
def Heap.parted (h : Heap) (v : Value) : Value × Value := (h.pair? v).getD (.nil, .nil)

section Lookups

variable {d : Draft} {s : State} {head args list : Value}

theorem Comp.consults_parts (head args : Value) :
    Consults (parts head args) d s fun ps => s.heap.items? args = some ps.toArray := by
  refine .bind .heap ?_
  rintro _ rfl
  split
  · rename_i items hitems
    exact .pure (by rw [hitems])
  · exact .bind .heap fun _ _ => .reject _

theorem Comp.consults_bindings (head list : Value) :
    Consults (bindings head list) d s fun bs => s.heap.bindings? list = some bs := by
  refine .bind .heap ?_
  rintro _ rfl
  split
  · rename_i bs hbs
    exact .pure hbs
  · exact .reject _

theorem Captures.consults_split (v : Value) : Comp.Consults (split v) d s (· = s.heap.parted v) := by
  refine .bind .heap ?_
  rintro _ rfl
  exact .pure rfl

/-- A name of no expander. -/
theorem Comp.consults_expander? (hhead : ∀ r, s.heap.symbol? head = some r → r.role ≠ .expander) :
    Consults (expander? head) d s (· = none) := by
  refine .bind .scope fun sc _ => ?_
  split
  · exact .pure rfl
  · have hsymbol : Consults (symbol head) d s fun r => s.heap.symbol? head = some r := by
      refine .bind .heap ?_
      rintro _ rfl
      split
      · rename_i r hr
        exact .pure hr
      · exact .halt _
    refine .bind hsymbol fun r hr => ?_
    split
    · rename_i hrole _
      exact absurd hrole (hhead r hr)
    · exact .pure rfl

end Lookups

/-! ## Forms without expanders -/

namespace Heap

/-- A form is a part of another one, or a part of a part of it, to any depth. -/
inductive Inside (h : Heap) (k : WellKnown) (f : Value) : Value → Prop
  | self : Inside h k f f
  | part {g e : Value} {bound : List Mention} : Inside h k f g → h.Part k g bound e → Inside h k f e

/-- No part of a form is evaluated while compiling, and none calls an expander. -/
def Plain (h : Heap) (k : WellKnown) (f : Value) : Prop :=
  ∀ g head args, h.Inside k f g → h.pair? g = some (head, args) →
    k.special? head ≠ some .comptime ∧ ∀ r, h.symbol? head = some r → r.role ≠ .expander

variable {h : Heap} {k : WellKnown} {f g v head args name body : Value} {bound : List Mention} {r : Mention}
  {special : SpecialForm}

theorem Part.inside (hpart : h.Part k f bound g) (hin : h.Inside k g v) : h.Inside k f v := by
  induction hin with
  | self => exact .part .self hpart
  | part _ hpart' ih => exact .part ih hpart'

theorem Plain.part (hf : h.Plain k f) (hpart : h.Part k f bound g) : h.Plain k g :=
  fun e hd tl hin => hf e hd tl (hpart.inside hin)

/-- What the parts of a form are, with what it binds around them, by what its head names. -/
def HasPart (h : Heap) (f args : Value) : Option SpecialForm → List Mention → Value → Prop
  | none, bound, g => bound = [] ∧ h.Element g f
  | some .cond, bound, g | some .sequence, bound, g | some .assign, bound, g
  | some .loop, bound, g => bound = [] ∧ h.Element g args
  | some .bind, bound, g => ∃ bs, h.bindings? (h.parted args).1 = some bs ∧
      ((bound = [] ∧ ∃ b ∈ bs, g = b.2) ∨
        (bound = bs.map (.var ·.1) ∧ h.Element g (h.parted args).2))
  | some .dynamicBind, bound, g => bound = [] ∧
      ((∃ bs, h.bindings? (h.parted args).1 = some bs ∧ ∃ b ∈ bs, g = b.2) ∨
        h.Element g (h.parted args).2)
  | some .lambda, bound, g => ∃ name params body,
      h.items? args = some (name :: params :: body).toArray ∧
      bound = (h.parameterNames params).map .var ∧ g ∈ body
  | some .withCont, bound, g => bound = [.cont (h.parted args).1] ∧ h.Element g (h.parted args).2
  | some .exit, bound, g => bound = [] ∧ h.Element g (h.parted args).2
  | some .quote, _, _ | some .comptime, _, _ => False

theorem element_iff {tail : Value} (hp : h.pair? v = some (head, tail)) :
    h.Element g v ↔ g = head ∨ h.Element g tail := by
  refine ⟨fun hel => ?_, ?_⟩
  · cases hel with
    | head hp' =>
        cases hp.symm.trans hp'
        exact .inl rfl
    | tail hp' hel =>
        cases hp.symm.trans hp'
        exact .inr hel
  · rintro (rfl | hel)
    · exact .head hp
    · exact .tail hp hel

theorem parted_of_pair? {p : Value × Value} (hp : h.pair? v = some p) : h.parted v = p := by
  rw [parted, hp]
  rfl

/-- Where there is an element behind the first one, there is a pair. -/
theorem pair?_of_element (hel : h.Element g (h.parted v).2) : h.pair? v = some (h.parted v) := by
  cases hp : h.pair? v with
  | some p => rw [parted_of_pair? hp]
  | none =>
      rw [parted, hp] at hel
      cases hel with
      | head hp' | tail hp' => cases hp'

/-- So there is where the first element is a list of bindings. -/
theorem pair?_of_init {bs : List (Value × Value)} {b : Value × Value}
    (hbs : h.bindings? (h.parted v).1 = some bs) (hb : b ∈ bs) : h.pair? v = some (h.parted v) := by
  cases hp : h.pair? v with
  | some p => rw [parted_of_pair? hp]
  | none =>
      rw [parted, hp, bindings?, Option.getD_none, items?_nil] at hbs
      cases hbs
      cases hb

theorem Part.exists_pair (hpart : h.Part k f bound g) : ∃ p, h.pair? f = some p := by
  cases hpart with
  | lambdaBody hspecial _ =>
      obtain ⟨_, _, hp, -⟩ := hspecial
      exact ⟨_, hp⟩
  | element hp | operand hp | init hp | bindBody hp | dynamicBody hp | contBody hp | exitValue hp =>
      exact ⟨_, hp⟩

theorem Part.hasPart (hpart : h.Part k f bound g) (hp : h.pair? f = some (head, args)) :
    h.HasPart f args (k.special? head) bound g := by
  cases hpart with
  | element hp' hs hel =>
      cases hp.symm.trans hp'
      rw [hs]
      exact ⟨rfl, hel⟩
  | operand hp' hs hmem hel =>
      cases hp.symm.trans hp'
      rw [hs]
      simp only [List.mem_cons, List.not_mem_nil, or_false] at hmem
      rcases hmem with rfl | rfl | rfl | rfl <;> exact ⟨rfl, hel⟩
  | init hp' hs hmem hargs hbs hb =>
      cases hp.symm.trans hp'
      rw [hs]
      simp only [List.mem_cons, List.not_mem_nil, or_false] at hmem
      rcases hmem with rfl | rfl
      · exact ⟨_, by rw [parted_of_pair? hargs]; exact hbs, .inl ⟨rfl, _, hb, rfl⟩⟩
      · exact ⟨rfl, .inl ⟨_, by rw [parted_of_pair? hargs]; exact hbs, _, hb, rfl⟩⟩
  | bindBody hp' hs hargs hbs hel =>
      cases hp.symm.trans hp'
      rw [hs, HasPart, parted_of_pair? hargs]
      exact ⟨_, hbs, .inr ⟨rfl, hel⟩⟩
  | dynamicBody hp' hs hargs hel =>
      cases hp.symm.trans hp'
      rw [hs, HasPart, parted_of_pair? hargs]
      exact ⟨rfl, .inr hel⟩
  | lambdaBody hspecial hg =>
      obtain ⟨head', args', hp', hs, hitems⟩ := hspecial
      cases hp.symm.trans hp'
      rw [hs]
      exact ⟨_, _, _, hitems, rfl, hg⟩
  | contBody hp' hs hargs hel =>
      cases hp.symm.trans hp'
      rw [hs, HasPart, parted_of_pair? hargs]
      exact ⟨rfl, hel⟩
  | exitValue hp' hs hargs hel =>
      cases hp.symm.trans hp'
      rw [hs, HasPart, parted_of_pair? hargs]
      exact ⟨rfl, hel⟩

theorem HasPart.part {special? : Option SpecialForm} (hpart : h.HasPart f args special? bound g)
    (hp : h.pair? f = some (head, args)) (hs : k.special? head = special?) : h.Part k f bound g := by
  cases special? with
  | none =>
      obtain ⟨rfl, hel⟩ := hpart
      exact .element hp hs hel
  | some special =>
      cases special with
      | quote | comptime => exact hpart.elim
      | cond | sequence | assign | loop =>
          obtain ⟨rfl, hel⟩ := hpart
          exact .operand hp hs (by simp) hel
      | bind =>
          obtain ⟨bs, hbs, ⟨rfl, b, hb, rfl⟩ | ⟨rfl, hel⟩⟩ := hpart
          · exact .init hp hs (by simp) (pair?_of_init hbs hb) hbs hb
          · exact .bindBody hp hs (pair?_of_element hel) hbs hel
      | dynamicBind =>
          obtain ⟨rfl, ⟨bs, hbs, b, hb, rfl⟩ | hel⟩ := hpart
          · exact .init hp hs (by simp) (pair?_of_init hbs hb) hbs hb
          · exact .dynamicBody hp hs (pair?_of_element hel) hel
      | lambda =>
          obtain ⟨name, params, body, hitems, rfl, hg⟩ := hpart
          exact .lambdaBody ⟨head, args, hp, hs, hitems⟩ hg
      | withCont =>
          obtain ⟨rfl, hel⟩ := hpart
          exact .contBody hp hs (pair?_of_element hel) hel
      | exit =>
          obtain ⟨rfl, hel⟩ := hpart
          exact .exitValue hp hs (pair?_of_element hel) hel

/-! ### Where a name is free -/

/-- In what is no pair only a symbol is free, in itself. -/
theorem free_iff_of_no_pair (hp : h.pair? f = none) :
    h.Free k r f ↔ f.isSymbol = true ∧ r = .var f := by
  refine ⟨fun hfree => ?_, ?_⟩
  · cases hfree with
    | symbol hx => exact ⟨hx, rfl⟩
    | exit hp' _ _ =>
        rw [hp] at hp'
        cases hp'
    | part hpart _ _ =>
        obtain ⟨p, hp'⟩ := hpart.exists_pair
        rw [hp] at hp'
        cases hp'
  · rintro ⟨hx, rfl⟩
    exact .symbol hx

/-- A name is free in a form because the form exits from it, or because it is free in a part. -/
theorem free_iff_of_pair {special? : Option SpecialForm} (hnot : f.isSymbol = false)
    (hp : h.pair? f = some (head, args)) (hs : k.special? head = special?) :
    h.Free k r f ↔
      (special? = some .exit ∧ ∃ name rest, h.pair? args = some (name, rest) ∧ r = .cont name) ∨
        ∃ bound g, h.HasPart f args special? bound g ∧ r ∉ bound ∧ h.Free k r g := by
  subst hs
  refine ⟨fun hfree => ?_, ?_⟩
  · cases hfree with
    | symbol hx =>
        rw [hnot] at hx
        cases hx
    | exit hp' hs hargs =>
        cases hp.symm.trans hp'
        exact .inl ⟨hs, _, _, hargs, rfl⟩
    | part hpart hr hg => exact .inr ⟨_, _, hpart.hasPart hp, hr, hg⟩
  · rintro (⟨hs, name, rest, hargs, rfl⟩ | ⟨bound, g, hpart, hr, hg⟩)
    · exact .exit hp hs hargs
    · exact .part (hpart.part hp rfl) hr hg

theorem free_iff_of_part {special? : Option SpecialForm} (hnot : f.isSymbol = false)
    (hp : h.pair? f = some (head, args)) (hs : k.special? head = special?)
    (hne : special? ≠ some .exit) :
    h.Free k r f ↔ ∃ bound g, h.HasPart f args special? bound g ∧ r ∉ bound ∧ h.Free k r g :=
  (free_iff_of_pair hnot hp hs).trans (or_iff_right fun hexit => hne hexit.1)

end Heap

open Heap

/-! ## What is found -/

/-- The names bound between the procedure and a form. -/
def Bound.mentions (b : Bound) : List Mention := b.conts.map .cont ++ b.vars.map .var

theorem Bound.var_mem_mentions {b : Bound} {x : Value} : .var x ∈ b.mentions ↔ x ∈ b.vars := by
  simp [mentions]

theorem Bound.cont_mem_mentions {b : Bound} {x : Value} : .cont x ∈ b.mentions ↔ x ∈ b.conts := by
  simp [mentions]

theorem Bound.not_mem_mentions_append {r : Mention} (b : Bound) (xs : List Value) :
    r ∉ ({ b with vars := xs ++ b.vars } : Bound).mentions ↔ r ∉ xs.map .var ∧ r ∉ b.mentions := by
  simp only [mentions, List.map_append, List.mem_append]
  tauto

/-- To the names found those have been added that are as said and bound around the procedure. -/
structure Captures.Grown (ns : Names) (P : Mention → Prop) (c c' : Captures) : Prop where
  mem_iff : ∀ r, r ∈ c'.mentions ↔ r ∈ c.mentions ∨ P r ∧ ns r = true

namespace Captures.Grown

variable {ns : Names} {P P' : Mention → Prop} {c c' c'' : Captures}

theorem refl (h : ∀ r, ¬P r) : c.Grown ns P c where
  mem_iff r := (or_iff_left fun hr => h r hr.1).symm

theorem congr (h : c.Grown ns P c') (hiff : ∀ r, ns r = true → (P r ↔ P' r)) : c.Grown ns P' c' where
  mem_iff r := (h.mem_iff r).trans (or_congr_right (and_congr_left (hiff r)))

theorem trans (h : c.Grown ns P c') (h' : c'.Grown ns P' c'') :
    c.Grown ns (fun r => P r ∨ P' r) c'' where
  mem_iff r := by rw [h'.mem_iff, h.mem_iff, or_assoc, ← or_and_right]

end Captures.Grown

namespace Captures

variable {scope : Scope} {bound : Bound} {c : Captures} {x : Value}

theorem grown_addVar : c.Grown scope.names (fun r => r = .var x ∧ x ∉ bound.vars)
    (c.addVar scope bound x) := by
  refine ⟨fun q => ?_⟩
  by_cases hq : q = .var x
  · subst hq
    by_cases hc : x ∈ c.vars <;> by_cases hb : x ∈ bound.vars <;> cases hs : scope.binds x <;>
      simp [addVar, mentions, Scope.names, hc, hb, hs]
  · simp only [hq, false_and, or_false]
    unfold addVar
    split <;> simp [mentions, hq]

theorem grown_addCont : c.Grown scope.names (fun r => r = .cont x ∧ x ∉ bound.conts)
    (c.addCont scope bound x) := by
  refine ⟨fun q => ?_⟩
  by_cases hq : q = .cont x
  · subst hq
    by_cases hc : x ∈ c.conts <;> by_cases hb : x ∈ bound.conts <;>
      cases hs : (scope.resolveCont x).isSome <;>
      simp [addCont, mentions, Scope.names, hc, hb, hs]
  · simp only [hq, false_and, or_false]
    unfold addCont
    split <;> simp [mentions, hq]

end Captures

/-! ## Walks -/

/-- A walk over a form comes upon what is free in it, apart from what is bound in between. -/
def Covered (act : Comp Captures) (d : Draft) (s : State) (bound : Bound) (c : Captures) (f : Value) :
    Prop :=
  Comp.Consults act d s
    (c.Grown d.scope.names fun r => r ∉ bound.mentions ∧ s.heap.Free s.known r f)

/-- A walk does so over any form without expanders. -/
def Covers (walk : Walker) (d : Draft) (s : State) : Prop :=
  ∀ (bound : Bound) (c : Captures) (f : Value), s.heap.Plain s.known f →
    Covered (walk bound c f) d s bound c f

section Walk

open Comp

variable {call : Caller} {walk : Walker} {d : Draft} {s : State} {bound : Bound} {c : Captures}
  {f v head args : Value}

theorem covers_walkTails (hwalk : Covers walk d s) {n : Nat}
    (hv : ∀ g, s.heap.Element g v → s.heap.Plain s.known g) :
    Consults (Captures.walkTails walk bound n c v) d s
      (c.Grown d.scope.names fun r => r ∉ bound.mentions ∧
        ∃ g, s.heap.Element g v ∧ s.heap.Free s.known r g) := by
  induction n generalizing c v with
  | zero => exact .halt _
  | succ n ih =>
      rw [Captures.walkTails]
      refine .bind .heap ?_
      rintro _ rfl
      cases hp : s.heap.pair? v with
      | none =>
          refine .pure (.refl ?_)
          rintro r ⟨-, g, hel, -⟩
          cases hel with
          | head hp' | tail hp' => rw [hp] at hp'; cases hp'
      | some p =>
          obtain ⟨hd, tl⟩ := p
          refine .bind (hwalk bound c hd (hv hd (.head hp))) fun c' hc' => ?_
          refine (ih fun g hg => hv g (.tail hp hg)).mono fun c'' hc'' => (hc'.trans hc'').congr ?_
          intro r _
          simp only [Heap.element_iff hp, or_and_right, exists_or, exists_eq_left, and_or_left]

theorem covers_walkAll (hwalk : Covers walk d s)
    (hv : ∀ g, s.heap.Element g v → s.heap.Plain s.known g) :
    Consults (Captures.walkAll walk bound c v) d s
      (c.Grown d.scope.names fun r => r ∉ bound.mentions ∧
        ∃ g, s.heap.Element g v ∧ s.heap.Free s.known r g) :=
  .bind .gets fun _ _ => covers_walkTails hwalk hv

/-- Forms one behind the other. -/
theorem covers_walkFold (hwalk : Covers walk d s) {vs : List Value}
    (hvs : ∀ g ∈ vs, s.heap.Plain s.known g) :
    Consults (vs.foldlM (walk bound) c) d s
      (c.Grown d.scope.names fun r => r ∉ bound.mentions ∧ ∃ g ∈ vs, s.heap.Free s.known r g) := by
  induction vs generalizing c with
  | nil =>
      refine .pure (.refl ?_)
      rintro r ⟨-, g, hg, -⟩
      exact absurd hg List.not_mem_nil
  | cons v vs ih =>
      rw [List.foldlM_cons]
      refine .bind (hwalk bound c v (hvs v List.mem_cons_self)) fun c' hc' => ?_
      refine (ih fun g hg => hvs g (List.mem_cons_of_mem _ hg)).mono fun c'' hc'' =>
        (hc'.trans hc'').congr ?_
      intro r _
      simp only [List.mem_cons, or_and_right, exists_or, exists_eq_left, and_or_left]

/-- A binding form: the names are bound around the body only, if they are variables. -/
theorem covers_walkBindings (hwalk : Covers walk d s) (lexical : Bool) {list body : Value}
    {P : Mention → Prop} (hargs : s.heap.parted args = (list, body))
    (hinits : ∀ bs, s.heap.bindings? list = some bs → ∀ b ∈ bs, s.heap.Plain s.known b.2)
    (hbody : ∀ bs, s.heap.bindings? list = some bs →
      ∀ g, s.heap.Element g body → s.heap.Plain s.known g)
    (hP : ∀ bs, s.heap.bindings? list = some bs → ∀ r, P r ↔
      (∃ b ∈ bs, s.heap.Free s.known r b.2) ∨ (lexical = true → r ∉ bs.map (.var ·.1)) ∧
        ∃ g, s.heap.Element g body ∧ s.heap.Free s.known r g) :
    Consults (Captures.walkBindings walk bound c lexical head args) d s
      (c.Grown d.scope.names fun r => r ∉ bound.mentions ∧ P r) := by
  unfold Captures.walkBindings
  refine .bind (Captures.consults_split _) ?_
  rintro _ rfl
  rw [hargs]
  refine .bind (Comp.consults_bindings head list) fun bs hbs => ?_
  have hfold : bs.foldlM (fun c b => walk bound c b.2) c = (bs.map (·.2)).foldlM (walk bound) c := by
    rw [List.foldlM_map]
  rw [hfold]
  have hplain : ∀ g ∈ bs.map (·.2), s.heap.Plain s.known g := by
    rintro _ hg
    obtain ⟨b, hb, rfl⟩ := List.mem_map.1 hg
    exact hinits bs hbs b hb
  refine .bind (covers_walkFold hwalk hplain) fun c' hc' => ?_
  refine (covers_walkAll hwalk (hbody bs hbs)).mono fun c'' hc'' => (hc'.trans hc'').congr ?_
  intro r _
  have hinner : r ∉ (if lexical = true then { bound with vars := bs.map (·.1) ++ bound.vars }
      else bound).mentions ↔ (lexical = true → r ∉ bs.map (.var ·.1)) ∧ r ∉ bound.mentions := by
    cases lexical with
    | false => simp
    | true => simpa using Bound.not_mem_mentions_append bound (bs.map (·.1))
  rw [hP bs hbs, hinner]
  simp only [List.mem_map, exists_exists_and_eq_and, and_or_left, and_assoc, and_left_comm]

/-- A procedure within the procedure. -/
theorem covers_walkLambda (hwalk : Covers walk d s) {P : Mention → Prop}
    (hbody : ∀ name params body, s.heap.items? args = some (name :: params :: body).toArray →
      ∀ g ∈ body, s.heap.Plain s.known g)
    (hP : ∀ name params body, s.heap.items? args = some (name :: params :: body).toArray → ∀ r,
      P r ↔ r ∉ (s.heap.parameterNames params).map .var ∧ ∃ g ∈ body, s.heap.Free s.known r g) :
    Consults (Captures.walkLambda walk bound c head args) d s
      (c.Grown d.scope.names fun r => r ∉ bound.mentions ∧ P r) := by
  unfold Captures.walkLambda
  refine .bind (Comp.consults_parts head args) fun ps hps => ?_
  split
  · rename_i name params body
    refine .bind .heap ?_
    rintro _ rfl
    refine (covers_walkFold hwalk (hbody name params body hps)).mono fun c' hc' => hc'.congr ?_
    intro r _
    have hinner := @Bound.not_mem_mentions_append r bound (s.heap.parameterNames params)
    refine (and_congr_left' hinner).trans ?_
    rw [hP name params body hps, and_assoc, and_left_comm]
  · exact .bind .heap fun _ _ => .reject _

/-- A call of no expander, or a special form all of whose parts are looked at. -/
theorem covers_walkCall (hwalk : Covers walk d s)
    (hhead : ∀ r, s.heap.symbol? head = some r → r.role ≠ .expander)
    (hv : (if (s.known.special? head).isSome then args else f) = v)
    (hplain : ∀ g, s.heap.Element g v → s.heap.Plain s.known g) :
    Consults (Captures.walkCall call walk bound c f head args) d s
      (c.Grown d.scope.names fun r => r ∉ bound.mentions ∧
        ∃ g, s.heap.Element g v ∧ s.heap.Free s.known r g) := by
  unfold Captures.walkCall
  have hrest : Consults (liftM (CellLisp.gets fun s => (s.known.special? head).isSome) >>= fun special =>
      Captures.walkAll walk bound c (if special then args else f)) d s
      (c.Grown d.scope.names fun r => r ∉ bound.mentions ∧
        ∃ g, s.heap.Element g v ∧ s.heap.Free s.known r g) := by
    refine .bind .gets ?_
    rintro _ rfl
    rw [hv]
    exact covers_walkAll hwalk hplain
  split
  · exact hrest
  · refine .bind (consults_expander? hhead) ?_
    rintro _ rfl
    exact hrest

/-! ### One form -/

section Form

variable (hwalk : Covers walk d s) (hf : s.heap.Plain s.known f) (hnot : f.isSymbol = false)
  (hp : s.heap.pair? f = some (head, args))

include hwalk hf hnot hp

theorem covered_bind (hs : s.known.special? head = some .bind) :
    Covered (Captures.walkBindings walk bound c true head args) d s bound c f := by
  rcases hargs : s.heap.parted args with ⟨list, body⟩
  have hparts (bound' g) (hpart : s.heap.HasPart f args (some .bind) bound' g) : s.heap.Plain s.known g :=
    hf.part (hpart.part hp hs)
  simp only [HasPart, hargs] at hparts
  refine covers_walkBindings hwalk true hargs
    (fun bs hbs b hb => hparts _ _ ⟨bs, hbs, .inl ⟨rfl, b, hb, rfl⟩⟩)
    (fun bs hbs g hg => hparts _ _ ⟨bs, hbs, .inr ⟨rfl, hg⟩⟩) fun bs hbs r => ?_
  rw [free_iff_of_part hnot hp hs (by simp)]
  simp only [HasPart, hargs]
  constructor
  · rintro ⟨_, g, ⟨bs', hbs', hpart⟩, hnames, hg⟩
    obtain rfl := Option.some.inj (hbs.symm.trans hbs')
    rcases hpart with ⟨-, b, hb, rfl⟩ | ⟨rfl, hel⟩
    · exact .inl ⟨b, hb, hg⟩
    · exact .inr ⟨fun _ => hnames, g, hel, hg⟩
  · rintro (⟨b, hb, hg⟩ | ⟨hnames, g, hel, hg⟩)
    · exact ⟨[], b.2, ⟨bs, hbs, .inl ⟨rfl, b, hb, rfl⟩⟩, List.not_mem_nil, hg⟩
    · exact ⟨_, g, ⟨bs, hbs, .inr ⟨rfl, hel⟩⟩, hnames trivial, hg⟩

theorem covered_dynamicBind (hs : s.known.special? head = some .dynamicBind) :
    Covered (Captures.walkBindings walk bound c false head args) d s bound c f := by
  rcases hargs : s.heap.parted args with ⟨list, body⟩
  have hparts (bound' g) (hpart : s.heap.HasPart f args (some .dynamicBind) bound' g) :
      s.heap.Plain s.known g := hf.part (hpart.part hp hs)
  simp only [HasPart, hargs] at hparts
  refine covers_walkBindings hwalk false hargs
    (fun bs hbs b hb => hparts _ _ ⟨rfl, .inl ⟨bs, hbs, b, hb, rfl⟩⟩)
    (fun _ _ g hg => hparts _ _ ⟨rfl, .inr hg⟩) fun bs hbs r => ?_
  rw [free_iff_of_part hnot hp hs (by simp)]
  simp only [HasPart, hargs]
  constructor
  · rintro ⟨_, g, ⟨-, hpart⟩, -, hg⟩
    rcases hpart with ⟨bs', hbs', b, hb, rfl⟩ | hel
    · obtain rfl := Option.some.inj (hbs.symm.trans hbs')
      exact .inl ⟨b, hb, hg⟩
    · exact .inr ⟨fun h => absurd h Bool.false_ne_true, g, hel, hg⟩
  · rintro (⟨b, hb, hg⟩ | ⟨-, g, hel, hg⟩)
    · exact ⟨[], b.2, ⟨rfl, .inl ⟨bs, hbs, b, hb, rfl⟩⟩, List.not_mem_nil, hg⟩
    · exact ⟨[], g, ⟨rfl, .inr hel⟩, List.not_mem_nil, hg⟩

theorem covered_lambda (hs : s.known.special? head = some .lambda) :
    Covered (Captures.walkLambda walk bound c head args) d s bound c f := by
  refine covers_walkLambda hwalk (fun name params body hargs g hg =>
    hf.part (.lambdaBody ⟨head, args, hp, hs, hargs⟩ hg)) fun name params body hargs r => ?_
  rw [free_iff_of_part hnot hp hs (by simp)]
  constructor
  · rintro ⟨_, g, ⟨name', params', body', hargs', rfl, hg⟩, hnames, hfree⟩
    have heq := congrArg Array.toList (Option.some.inj (hargs.symm.trans hargs'))
    obtain ⟨rfl, rfl, rfl⟩ : name = name' ∧ params = params' ∧ body = body' := by simpa using heq
    exact ⟨hnames, g, hg, hfree⟩
  · rintro ⟨hnames, g, hg, hfree⟩
    exact ⟨_, g, ⟨name, params, body, hargs, rfl, hg⟩, hnames, hfree⟩

theorem covered_withCont (hs : s.known.special? head = some .withCont) :
    Covered (do
      let (name, body) ← Captures.split args
      Captures.walkAll walk { bound with conts := name :: bound.conts } c body) d s bound c f := by
  refine .bind (Captures.consults_split args) ?_
  rintro _ rfl
  rcases hargs : s.heap.parted args with ⟨name, body⟩
  have hparts (bound' g) (hpart : s.heap.HasPart f args (some .withCont) bound' g) :
      s.heap.Plain s.known g := hf.part (hpart.part hp hs)
  simp only [HasPart, hargs] at hparts
  refine (covers_walkAll hwalk fun g hg => hparts _ _ ⟨rfl, hg⟩).mono fun c' hc' =>
    hc'.congr fun r _ => ?_
  have hinner : r ∉ ({ bound with conts := name :: bound.conts } : Bound).mentions ↔
      r ∉ [Mention.cont name] ∧ r ∉ bound.mentions := by
    simp only [Bound.mentions, List.map_cons, List.cons_append, List.mem_cons, List.not_mem_nil, or_false,
      not_or]
  rw [free_iff_of_part hnot hp hs (by simp), hinner]
  simp only [HasPart, hargs]
  constructor
  · rintro ⟨⟨hname, hr⟩, g, hel, hg⟩
    exact ⟨hr, _, g, ⟨rfl, hel⟩, hname, hg⟩
  · rintro ⟨hr, _, g, ⟨rfl, hel⟩, hname, hg⟩
    exact ⟨⟨hname, hr⟩, g, hel, hg⟩

theorem covered_exit (hs : s.known.special? head = some .exit)
    (hnil : d.scope.names (.cont .nil) = false) :
    Covered (do
      let (name, rest) ← Captures.split args
      Captures.walkAll walk bound (c.addCont (← Comp.scope) bound name) rest) d s bound c f := by
  refine .bind (Captures.consults_split args) ?_
  rintro _ rfl
  rcases hargs : s.heap.parted args with ⟨name, rest⟩
  have hparts (bound' g) (hpart : s.heap.HasPart f args (some .exit) bound' g) :
      s.heap.Plain s.known g := hf.part (hpart.part hp hs)
  simp only [HasPart, hargs] at hparts
  refine .bind .scope ?_
  rintro _ rfl
  refine (covers_walkAll hwalk fun g hg => hparts _ _ ⟨rfl, hg⟩).mono fun c' hc' =>
    (Captures.grown_addCont.trans hc').congr fun r hns => ?_
  rw [free_iff_of_pair hnot hp hs]
  simp only [HasPart, hargs]
  constructor
  · rintro (⟨rfl, hr⟩ | ⟨hr, g, hel, hg⟩)
    · refine ⟨fun hk => hr (Bound.cont_mem_mentions.1 hk), .inl ⟨trivial, name, rest, ?_, rfl⟩⟩
      -- there is no continuation without a name
      cases hpair : s.heap.pair? args with
      | some p => rw [← hargs, parted_of_pair? hpair]
      | none =>
          rw [parted, hpair] at hargs
          cases hargs
          rw [hnil] at hns
          cases hns
    · exact ⟨hr, .inr ⟨_, g, ⟨rfl, hel⟩, List.not_mem_nil, hg⟩⟩
  · rintro ⟨hr, ⟨-, name', rest', hargs', rfl⟩ | ⟨_, g, ⟨-, hel⟩, -, hg⟩⟩
    · cases hargs.symm.trans (parted_of_pair? hargs')
      exact .inl ⟨rfl, fun hk => hr (Bound.cont_mem_mentions.2 hk)⟩
    · exact .inr ⟨hr, g, hel, hg⟩

/-- A call, or a special form all of whose parts are looked at. -/
theorem covered_call {special? : Option SpecialForm}
    (hspecial : special? ∈ [none, some .cond, some .sequence, some .assign, some .loop])
    (hs : s.known.special? head = special?)
    (hhead : ∀ r, s.heap.symbol? head = some r → r.role ≠ .expander) :
    Covered (Captures.walkCall call walk bound c f head args) d s bound c f := by
  have hiff (bound' g) : s.heap.HasPart f args special? bound' g ↔
      bound' = [] ∧ s.heap.Element g (if special?.isSome then args else f) := by
    simp only [List.mem_cons, List.not_mem_nil, or_false] at hspecial
    rcases hspecial with rfl | rfl | rfl | rfl | rfl <;> exact .rfl
  have hne : special? ≠ some .exit := by
    rintro rfl
    simp at hspecial
  refine (covers_walkCall hwalk hhead (by rw [hs]) fun g hg =>
    hf.part (((hiff [] g).2 ⟨rfl, hg⟩).part hp hs)).mono fun c' hc' => hc'.congr fun r _ => ?_
  rw [free_iff_of_part hnot hp hs hne]
  simp only [hiff, and_assoc, exists_and_left, exists_eq_left, List.not_mem_nil, not_false_eq_true,
    true_and]

end Form

theorem covers_walkForm (hwalk : Covers walk d s) (hnil : d.scope.names (.cont .nil) = false) :
    Covers (Captures.walkForm call walk) d s := by
  intro bound c f hf
  unfold Captures.walkForm
  split
  · rename_i hsymbol
    refine .bind .scope ?_
    rintro _ rfl
    refine .pure (Captures.grown_addVar.congr fun r _ => ?_)
    rw [free_iff_of_no_pair (Heap.pair?_of_isSymbol hsymbol)]
    constructor
    · rintro ⟨rfl, hr⟩
      exact ⟨fun hx => hr (Bound.var_mem_mentions.1 hx), hsymbol, rfl⟩
    · rintro ⟨hr, -, rfl⟩
      exact ⟨rfl, fun hx => hr (Bound.var_mem_mentions.2 hx)⟩
  · rename_i hsymbol
    have hnot : f.isSymbol = false := Bool.eq_false_iff.2 hsymbol
    refine .bind .heap ?_
    rintro _ rfl
    cases hp : s.heap.pair? f with
    | none =>
        refine .pure (.refl ?_)
        rintro r ⟨-, hfree⟩
        exact hsymbol ((free_iff_of_no_pair hp).1 hfree).1
    | some p =>
        obtain ⟨head, args⟩ := p
        obtain ⟨hcomptime, hhead⟩ := hf f head args .self hp
        refine .bind .gets ?_
        rintro _ rfl
        cases hs : s.known.special? head with
        | none => exact covered_call hwalk hf hnot hp (by simp) hs hhead
        | some special =>
            cases special with
            | quote =>
                refine .pure (.refl ?_)
                rintro r ⟨-, hfree⟩
                obtain ⟨_, g, hpart, -⟩ := (free_iff_of_part hnot hp hs (by simp)).1 hfree
                exact hpart
            | comptime => exact absurd hs hcomptime
            | cond | sequence | assign | loop => exact covered_call hwalk hf hnot hp (by simp) hs hhead
            | bind => exact covered_bind hwalk hf hnot hp hs
            | dynamicBind => exact covered_dynamicBind hwalk hf hnot hp hs
            | lambda => exact covered_lambda hwalk hf hnot hp hs
            | withCont => exact covered_withCont hwalk hf hnot hp hs
            | exit => exact covered_exit hwalk hf hnot hp hs hnil

/-- The walk, to any depth. -/
theorem covers_walkTo (n : Nat) (hnil : d.scope.names (.cont .nil) = false) :
    Covers (Captures.walkTo call n) d s := by
  induction n with
  | zero => exact fun _ _ _ _ => .halt _
  | succ n ih => exact covers_walkForm ih hnil

/-- A procedure copies exactly what is bound around it and free in its body, its parameters apart.
The walk that finds this out changes nothing. -/
theorem Captures.mem_mentions_iff_of_walk {n : Nat} {params body : List Value} {c : Captures}
    {d' : Draft} {s' : State} (hplain : ∀ g ∈ body, s.heap.Plain s.known g)
    (hnil : d.scope.names (.cont .nil) = false)
    (hwalk : body.foldlM (Captures.walkTo call n ⟨params, []⟩) {} d s = .ok (c, d') s') :
    s' = s ∧ d' = d ∧ ∀ r, r ∈ c.mentions ↔
      (r ∉ params.map .var ∧ ∃ g ∈ body, s.heap.Free s.known r g) ∧ d.scope.names r = true := by
  obtain ⟨rfl, rfl, hgrown⟩ := Looks.of_ok (covers_walkFold (covers_walkTo n hnil) hplain) hwalk
  refine ⟨rfl, rfl, fun r => (hgrown.mem_iff r).trans ?_⟩
  simp [mentions, Bound.mentions]

/-- So they are the copies of a procedure that says what its form says. -/
theorem Captures.copies_of_walk {n : Nat} {params body : List Value} {c : Captures} {d' : Draft}
    {s' : State} (hplain : ∀ g ∈ body, s.heap.Plain s.known g)
    (hnil : d.scope.names (.cont .nil) = false)
    (hwalk : body.foldlM (Captures.walkTo call n ⟨params, []⟩) {} d s = .ok (c, d') s') :
    Copies s.heap s.known d.scope.names params body c where
  within r hr := (((mem_mentions_iff_of_walk hplain hnil hwalk).2.2 r).1 hr).2
  covers g hg r hfree hr hns :=
    ((mem_mentions_iff_of_walk hplain hnil hwalk).2.2 r).2 ⟨⟨hr, g, hg, hfree⟩, hns⟩

end Walk
end CellLisp
