import CellLisp.Proofs.Library.Lists

/-!
# `CellLisp.Proofs.Library.Definitions` — definitions of procedures
-/

namespace CellLisp

open Library

/-! ## Lists that end in a value -/

section Onto

variable {h : Heap} {v b : Value} {us vs : List Value}

theorem Heap.Onto.unique (hb : h.pair? b = none) (hu : h.Onto v us b) (hv : h.Onto v vs b) :
    us = vs := by
  induction hu generalizing vs with
  | nil =>
      cases hv with
      | nil => rfl
      | cons hp => cases hb.symm.trans hp
  | cons hp _ ih =>
      cases hv with
      | nil => cases hb.symm.trans hp
      | cons hp' hv =>
          obtain ⟨rfl, rfl⟩ := Prod.mk.inj (Option.some.inj (hp.symm.trans hp'))
          rw [ih hb hv]

/-- The pairs stand in cells of their own. -/
theorem Heap.Onto.exists_cell (ho : h.Onto v us b) :
    ∀ j < us.length, ∃ i, (h.cell i).isFree = false ∧
      ∃ vs, h.Onto (.ref .pair i) vs b ∧ vs.length = j + 1 := by
  induction ho with
  | nil => nofun
  | @cons v a d b us hp ho ih =>
      intro j hj
      rcases Nat.lt_or_eq_of_le (Nat.le_of_lt_succ hj) with hlt | rfl
      · exact ih j hlt
      · obtain ⟨i, rfl, hc⟩ := Heap.pair_of_pair? hp
        exact ⟨i, by rw [hc]; rfl, _, .cons hp ho, rfl⟩

theorem Heap.Onto.length_le (hb : h.pair? b = none) (ho : h.Onto v us b) :
    us.length ≤ h.cells.size := by
  cases hn : us.length with
  | zero => exact Nat.zero_le _
  | succ n =>
      refine Heap.lt_size_of_ranked
        (R := fun j i => ∃ vs, h.Onto (.ref .pair i) vs b ∧ vs.length = j + 1)
        (fun j hj => ho.exists_cell j (by omega)) ?_
      rintro i j j' ⟨us, hus, hj⟩ ⟨us', hus', hj'⟩
      rw [hus.unique hb hus'] at hj
      omega

end Onto

/-! ## The arity of a parameter list -/

section Arity

variable {σ : String → Nat} {t : State} {below fixed : List Value} {n : Nat} {params rest : Value}

end Arity

/-! ## Templates -/

/-- Pairs with values in between. -/
inductive Template where
  | leaf (value : Value)
  | pair (head tail : Template)

/-- A proper list. -/
def Template.list : List Template → Template
  | [] => .leaf .nil
  | x :: xs => .pair x (list xs)

/-- A value is made of pairs as a template says. -/
def Heap.Shows (h : Heap) (v : Value) : Template → Prop
  | .leaf w => v = w
  | .pair x y => ∃ a d, h.pair? v = some (a, d) ∧ h.Shows a x ∧ h.Shows d y

/-- The values in between. -/
def Template.leaves : Template → List Value
  | .leaf v => [v]
  | .pair x y => x.leaves ++ y.leaves

section Templates

variable {h : Heap} {A B vs : List Value} {v : Value} {s s' : State} {x : Template}
  {xs : List Template}

/-- A value leads to them. -/
theorem Heap.Shows.reaches (hz : (h.cell 0).isFree = true) (hx : h.Shows v x)
    (hv : h.Reaches A v) : ∀ w ∈ x.leaves, h.Reaches A w := by
  induction x generalizing v with
  | leaf u =>
      intro w hw
      obtain rfl := List.mem_singleton.1 hw
      exact hx ▸ hv
  | pair x y ihx ihy =>
      obtain ⟨a, d, hp, ha, hd⟩ := hx
      obtain ⟨hra, hrd⟩ := hv.pair hz hp
      exact fun w hw => (List.mem_append.1 hw).elim (ihx ha hra w) (ihy hd hrd w)

theorem Heap.Lists.shows (hl : h.Lists v vs) (hvs : List.Forall₂ h.Shows vs xs) :
    h.Shows v (.list xs) := by
  induction hl generalizing xs with
  | nil =>
      cases hvs
      rfl
  | cons hp _ ih =>
      cases hvs with
      | cons hx hxs => exact ⟨_, _, hp, hx, ih hxs⟩

/-- What is kept of values is kept of what lies in them. -/
theorem State.Aside.leaves (h : s.Aside (vs ++ A) s') (hvs : List.Forall₂ s.heap.Shows vs xs) :
    s.Aside (xs.flatMap Template.leaves ++ A) s' := by
  refine h.of_reaches fun w hw => ?_
  rcases List.mem_append.1 hw with hw | hw
  · obtain ⟨x, hx, hw⟩ := List.mem_flatMap.1 hw
    obtain ⟨i, hi, rfl⟩ := List.getElem_of_mem hx
    have hlt : i < vs.length := hvs.length_eq ▸ hi
    refine (hvs.get hlt hi).reaches h.zero (State.reaches_word ?_) w hw
    exact List.mem_append_left _ (List.getElem_mem hlt)
  · exact State.reaches_word (List.mem_append_right _ hw)

theorem State.Aside.shows (h : s.Aside A s') (hx : s.heap.Shows v x)
    (hv : s.heap.Reaches (s.anchors ++ A) v) : s'.heap.Shows v x := by
  induction x generalizing v with
  | leaf w => exact hx
  | pair x y ihx ihy =>
      obtain ⟨a, d, hp, ha, hd⟩ := hx
      obtain ⟨hra, hrd⟩ := hv.pair h.zero hp
      exact ⟨a, d, (h.retains.pair? h.zero h.zero' hv).trans hp, ihx ha hra, ihy hd hrd⟩

theorem State.Aside.shows_all (h : s.Aside A s') (hvs : List.Forall₂ s.heap.Shows vs xs)
    (hsub : vs ⊆ A) : List.Forall₂ s'.heap.Shows vs xs := by
  induction hvs with
  | nil => exact .nil
  | cons hx _ ih =>
      obtain ⟨hv, hsub⟩ := List.cons_subset.1 hsub
      exact .cons (h.shows hx (State.reaches_word hv)) (ih hsub)

end Templates

/-! ## Definitions -/

namespace Library

variable (σ : String → Nat) (name params body : Value) (code : Int)

/-- A name as a template. -/
abbrev symbolic (name : String) : Template := .leaf (sym σ name)

/-- `'x` -/
def quoted (x : Value) : Template := .list [symbolic σ "quote", .leaf x]

end Library

/-! ## Forms that make templates -/

/-- An expander at work, with some arguments: its operands are made of pairs as templates say. -/
structure Expands (σ : String → Nat) (role : Value) (c : Errand) (t₀ : State) (as : List Value) (xs : List Template)
    (l : Locals) (t : State) : Prop where
  defining : t.Defining σ role
  args : l.args = as
  ops : List.Forall₂ t.heap.Shows l.ops xs
  aside : t₀.Aside (as ++ c.below) t

section Expanding

variable (σ : String → Nat) (role : Value) (c : Errand) (t₀ : State) (as : List Value)

/-- Where there are operands as some templates say, a form makes what another one says. -/
def Makes (s : Scope) (xs : List Template) (e : Core) (y : Template) : Prop :=
  ∀ (l : Locals) (t : State) (R : Aim), Expands σ role c t₀ as xs l t →
    (∀ v t', Expands σ role c t₀ as xs l t' → t'.heap.Shows v y → R v l t') →
      e.wp c s false R [] l t

/-- So do forms whose values are pushed, one after the other. -/
def MakesAll : Scope → List Template → List Core → List Template → Prop
  | _, _, [], [] => True
  | s, xs, e :: es, y :: ys =>
    Makes σ role c t₀ as s xs e y ∧ MakesAll (s.post .push) (y :: xs) es ys
  | _, _, _, _ => False

variable {σ role c t₀ as} {t t' : State} {xs ys : List Template} {l : Locals} {x y : Template} {v : Value}
  {s : Scope} {P : Locals → State → Prop} {es : List Core} {e₁ e₂ : Core}
  {i n k : Nat}

theorem MakesAll.length_eq (hall : MakesAll σ role c t₀ as s xs es ys) : ys.length = es.length := by
  induction es generalizing s xs ys with
  | nil =>
      cases ys with
      | nil => rfl
      | cons => exact hall.elim
  | cons e es ih =>
      cases ys with
      | nil => exact hall.elim
      | cons y ys => exact congrArg (· + 1) (ih hall.2)

theorem Expands.push (h : Expands σ role c t₀ as xs l t) (hv : t.heap.Shows v x) :
    Expands σ role c t₀ as (x :: xs) (l.push v) t :=
  ⟨h.defining, h.args, .cons hv h.ops, h.aside⟩

/-- Something else goes on. -/
theorem Expands.later (h : Expands σ role c t₀ as xs l t) (haside : t.Aside (l.values ++ c.below) t') :
    Expands σ role c t₀ as xs l t' where
  defining := h.defining.aside haside
  args := h.args
  ops := haside.shows_all h.ops fun _ hu => List.mem_append_left _ (List.mem_append_left _ hu)
  aside := h.aside.trans (haside.mono fun _ hu => by
    simp only [Locals.values, h.args, List.mem_append] at hu ⊢
    tauto)

/-- Forms whose values are pushed leave them on what was there. -/
theorem MakesAll.wpAll (hall : MakesAll σ role c t₀ as s xs es ys)
    (h : Expands σ role c t₀ as xs l t)
    (next : ∀ args t', Expands σ role c t₀ as xs l t' → List.Forall₂ t'.heap.Shows args ys →
      P ⟨args.reverse ++ l.ops, l.args⟩ t') : Core.wpAll c s (es.map fun _ => .push) P [] es l t := by
  induction es generalizing s xs ys l t P with
  | nil =>
      cases ys with
      | nil => exact Core.wpAll_nil (next [] t h .nil)
      | cons => exact hall.elim
  | cons e es ih =>
      cases ys with
      | nil => exact hall.elim
      | cons y ys =>
          obtain ⟨he, hes⟩ := hall
          refine Core.wpAll_push (he _ _ _ h fun v t₁ h₁ hv => ?_)
          refine ih hes (h₁.push hv) fun args t₂ h₂ hargs => ?_
          cases h₂.ops with
          | cons hv hops =>
              have hlast := next (v :: args) t₂ ⟨h₂.defining, h₂.args, hops, h₂.aside⟩ (.cons hv hargs)
              simpa [Locals.push] using hlast

end Expanding

/-! ## The definition of a procedure -/

/-- What is kept of the words of a frame is kept of the arguments of the call. -/
theorem State.Aside.given {s s' : State} {A vs : List Value} {name params body : Value}
    (h : s.Aside ([body, params, name] ++ A) s') (hbody : s.heap.Lists body vs) :
    s.Aside (name :: params :: vs ++ A) s' := by
  refine h.of_elements hbody List.mem_cons_self fun v hv => ?_
  simp only [List.cons_append, List.nil_append, List.mem_cons, List.mem_append] at hv ⊢
  tauto

section Defining

variable {σ : String → Nat} {t : State} {role name params rest : Value}
  {below fixed forms : List Value} {n : Nat}

end Defining

end CellLisp
