import CellLisp.Compile.Form
import CellLisp.Proofs.State.Emit

/-!
# `CellLisp.Proofs.Compile.Steps` — steps of a compilation on typed states

Forms are found from the protected values through pairs, and lists stay as they are while
code is compiled, so what a form consists of is held on to (`System.Held`) whatever
procedures are called for expansions.  What is asked of these calls is a `Steady` caller.

| | |
| :-- | :-- |
| `Comp.comp_bind` | how a step that follows another one runs |
| `Comp.Leads` | what a step of a compilation leads to |
| `Comp.Ready` | the expansions made so far are held |
| `Comp.leads_expand` | the expansion of a form is held |
-/

namespace CellLisp

/-! ## Running -/

namespace Comp

section Running

variable {α β : Type}

theorem comp_bind (x : Comp α) (f : α → Comp β) (d : Draft) (s : State) :
    (x >>= f) d s = match x d s with
      | .ok p s => f p.1 p.2 s
      | .error c s => .error c s := by
  refine (act_bind (x d) (fun p => f p.1 p.2) s).trans ?_
  cases x d s <;> rfl

theorem heap_bind (g : Heap → α) (f : α → Comp β) (d : Draft) (s : State) :
    (heap g >>= f) d s = f (g s.heap) d s := rfl

theorem scope_bind (f : Scope → Comp β) (d : Draft) (s : State) :
    (scope >>= f) d s = f d.scope d s := rfl

end Running

end Comp

/-! ## Leading -/

/-- What a step of a compilation leads to. -/
def Comp.Leads {α : Type} (R : System → System → Prop) (act : Comp α) (w : System)
    (draft : Draft) (Q : α → System → Draft → Prop) : Prop :=
  CellLisp.Leads R (act draft) w fun p w' => Q p.1 w' p.2

namespace Comp.Leads

variable {α β : Type} {R R' : System → System → Prop} {w : System} {draft : Draft}
  {Q : α → System → Draft → Prop}

theorem mono {Q' : α → System → Draft → Prop} {act : Comp α} (h : Leads R act w draft Q)
    (hq : ∀ a w' draft', R w w' → Q a w' draft' → Q' a w' draft') : Leads R act w draft Q' :=
  CellLisp.Leads.mono h fun p w' hr => hq p.1 w' p.2 hr

theorem weaken {act : Comp α} (h : Leads R act w draft Q) (hr : ∀ w', R w w' → R' w w') :
    Leads R' act w draft Q :=
  CellLisp.Leads.weaken h hr

theorem pure [Follows R] {a : α} (hq : Q a w draft) : Leads R (pure a) w draft Q :=
  CellLisp.Leads.pure hq

/-- The plans may be changed afterwards. -/
theorem adjust {Q' : α → System → Draft → Prop} {act : Comp α} (h : Leads R act w draft Q)
    (hadj : ∀ a w' draft', R w w' → Q a w' draft' →
      ∃ u : System, u.state = w'.state ∧ R w u ∧ Q' a u draft') : Leads R act w draft Q' :=
  CellLisp.Leads.adjust h fun p w' => hadj p.1 w' p.2

theorem bindFrom {x : Comp α} {f : α → Comp β} {Q' : β → System → Draft → Prop}
    (hx : Leads R x w draft Q) (hr : ∀ w', R w w' → R' w w')
    (hf : ∀ a w' draft', R w w' → Q a w' draft' →
      Leads (fun _ w₂ => R' w w₂) (f a) w' draft' Q') : Leads R' (x >>= f) w draft Q' :=
  CellLisp.Leads.bindFrom hx hr fun p w' hr' => hf p.1 w' p.2 hr'

theorem bind [Follows R] {x : Comp α} {f : α → Comp β} {Q' : β → System → Draft → Prop}
    (hx : Leads R x w draft Q)
    (hf : ∀ a w' draft', R w w' → Q a w' draft' → Leads R (f a) w' draft' Q') :
    Leads R (x >>= f) w draft Q' :=
  CellLisp.Leads.bind hx fun p w' hr => hf p.1 w' p.2 hr

/-- An action of the system. -/
theorem lift [Follows R] {act : Act α} {Q : α → System → Prop} (h : CellLisp.Leads R act w Q) :
    Leads R (liftM act : Comp α) w draft fun a w' draft' => draft' = draft ∧ Q a w' :=
  CellLisp.Leads.bind h fun _ _ _ hq => CellLisp.Leads.pure ⟨rfl, hq⟩

theorem fail [Follows R] (cause : Error) :
    Leads R (liftM (CellLisp.fail cause : Act α) : Comp α) w draft Q :=
  ⟨w, rfl, Follows.refl w⟩

theorem reject [Follows R] (cause : FormError) :
    Leads R (Comp.reject cause : Comp α) w draft Q :=
  ⟨w, rfl, Follows.refl w⟩

theorem halt (cause : Fatal) : Leads R (liftM (CellLisp.halt cause : Act α) : Comp α) w draft Q :=
  trivial

/-! A step that only looks at the state, or only changes the draft, is carried out. -/

theorem bindScope {f : Scope → Comp β} {Q : β → System → Draft → Prop}
    (h : Leads R (f draft.scope) w draft Q) : Leads R (Comp.scope >>= f) w draft Q := h

theorem bindDraft {f : Draft → Comp β} {Q : β → System → Draft → Prop}
    (h : Leads R (f draft) w draft Q) : Leads R (getThe Draft >>= f) w draft Q := h

theorem bindHeap {g : Heap → α} {f : α → Comp β} {Q : β → System → Draft → Prop}
    (h : Leads R (f (g w.heap)) w draft Q) : Leads R (Comp.heap g >>= f) w draft Q := h

theorem bindGets {g : State → α} {f : α → Comp β} {Q : β → System → Draft → Prop}
    (h : Leads R (f (g w.state)) w draft Q) :
    Leads R ((liftM (CellLisp.gets g) : Comp α) >>= f) w draft Q := h

theorem bindModify {g : Scope → Scope} {f : Unit → Comp β} {Q : β → System → Draft → Prop}
    (h : Leads R (f ()) w { draft with scope := g draft.scope } Q) :
    Leads R (Comp.modifyScope g >>= f) w draft Q := h

theorem modifyScope [Follows R] {g : Scope → Scope} {Q : Unit → System → Draft → Prop}
    (hq : Q () w { draft with scope := g draft.scope }) :
    Leads R (Comp.modifyScope g) w draft Q :=
  ⟨w, rfl, Follows.refl w, hq⟩

end Comp.Leads

/-! ## Parts of forms -/

section Parts

variable {m : Mode} {d : Nat} {w w' : System} {v x : Value}

theorem Heap.exists_of_pair? {h : Heap} {head tail : Value} (hp : h.pair? v = some (head, tail)) :
    ∃ i, v = .ref .pair i ∧ h.cell i = .pair head tail := by
  unfold Heap.pair? at hp
  split at hp
  · rename_i i
    split at hp
    · rename_i a b hc
      cases hp
      exact ⟨i, rfl, hc⟩
    · cases hp
  · cases hp

theorem System.cell?_of_pair {i : Nat} {head tail : Value} (w : System)
    (hc : w.heap.cell i = .pair head tail) : (Value.ref .pair i).cell? = some i := by
  refine Value.cell?_eq_some_iff.2 ⟨_, rfl, ?_⟩
  rintro rfl
  have hzero := w.typed.heap.wf.pool.zero
  rw [show w.state.heap.cell 0 = _ from hc] at hzero
  cases hzero

/-- Head and tail of a list that is held are held. -/
theorem System.Held.pair {head tail : Value} (hm : m.pairs = true) (hv : w.Held m d v)
    (hp : w.heap.pair? v = some (head, tail)) : w.Held m d head ∧ w.Held m d tail := by
  obtain ⟨i, rfl, hc⟩ := Heap.exists_of_pair? hp
  have hcell := w.cell?_of_pair hc
  have hplain : (w.heap.cell i).isPlain = true := by rw [hc]; rfl
  have hshown : w.plans i ≠ some .hidden :=
    hv.good.proper.shown i rfl (Value.cell?_eq_some_iff.1 hcell).choose_spec.2
  have hmem : ∀ u ∈ [head, tail], w.Held m d u := by
    intro u hu
    refine hv.step hcell ?_ (w.good_of_reference hplain (fun _ _ _ => hshown) ?_)
    · rw [hc]
      simpa [Cell.lasting, hm] using hu
    · rw [hc]
      simpa [Heap.references, Cell.block?, Cell.values] using hu
  exact ⟨hmem head (by simp), hmem tail (by simp)⟩

/-- So are the elements along its tails. -/
theorem System.Held.spineFrom (hm : m.pairs = true) {n : Nat} {acc : Array Value}
    (hv : w.Held m d v) (hacc : ∀ u ∈ acc, w.Held m d u) :
    (∀ u ∈ (w.heap.spineFrom acc n v).1, w.Held m d u) ∧
      w.Held m d (w.heap.spineFrom acc n v).2 := by
  induction n generalizing acc v with
  | zero => exact ⟨hacc, hv⟩
  | succ n ih =>
      rw [Heap.spineFrom]
      split
      · rename_i head tail hp
        obtain ⟨hhead, htail⟩ := hv.pair hm hp
        refine ih htail fun u hu => ?_
        rcases Array.mem_push.1 hu with hu | rfl
        · exact hacc u hu
        · exact hhead
      · exact ⟨hacc, hv⟩

theorem System.Held.spine (hm : m.pairs = true) (hv : w.Held m d v) :
    (∀ u ∈ (w.heap.spine v).1, w.Held m d u) ∧ w.Held m d (w.heap.spine v).2 :=
  hv.spineFrom hm (by simp)

theorem System.Held.items (hm : m.pairs = true) (hv : w.Held m d v) {items : Array Value}
    (hi : w.heap.items? v = some items) : ∀ u ∈ items, w.Held m d u := by
  unfold Heap.items? at hi
  simp only at hi
  split at hi
  · cases hi
    exact (hv.spine hm).1
  · cases hi

end Parts

/-! ## Lists of parts -/

section Lists

variable {m : Mode} {d : Nat} {R : System → System → Prop} [Follows R] {w : System}
  {draft : Draft} {v head list args : Value}

/-- The parts of a special form are held. -/
theorem Comp.leads_parts (hm : m.pairs = true) (hargs : w.Held m d args) :
    Comp.Leads R (Comp.parts head args) w draft fun ps w' draft' =>
      w = w' ∧ draft = draft' ∧ (∀ u ∈ ps, w.Held m d u) ∧
        w.heap.items? args = some ps.toArray := by
  unfold Comp.parts
  refine .bindHeap ?_
  split
  · rename_i items hi
    exact .pure ⟨rfl, rfl, fun u hu => hargs.items hm hi u (Array.mem_toList_iff.1 hu), hi⟩
  · exact .bindHeap (.reject _)

/-- Name and initial form of a binding are held, and the name is a symbol. -/
theorem Comp.held_of_binding? {b : Value × Value} (hm : m.pairs = true) (hv : w.Held m d v)
    (hb : Comp.binding? w.heap v = some b) :
    b.1.isSymbol = true ∧ w.Held m d b.1 ∧ w.Held m d b.2 := by
  unfold Comp.binding? at hb
  split at hb
  · rename_i hs
    cases hb
    exact ⟨hs, hv, System.held_nil⟩
  · split at hb
    · rename_i name hi
      obtain ⟨items, hitems, he⟩ := Option.map_eq_some_iff.1 hi
      split at hb
      · rename_i hs
        cases hb
        refine ⟨hs, hv.items hm hitems name ?_, System.held_nil⟩
        rw [← Array.mem_toList_iff, he]
        simp
      · cases hb
    · rename_i name init hi
      obtain ⟨items, hitems, he⟩ := Option.map_eq_some_iff.1 hi
      have hmem : ∀ u ∈ [name, init], w.Held m d u := by
        intro u hu
        refine hv.items hm hitems u ?_
        rw [← Array.mem_toList_iff, he]
        exact hu
      split at hb
      · rename_i hs
        cases hb
        exact ⟨hs, hmem name (by simp), hmem init (by simp)⟩
      · cases hb
    · cases hb

theorem exists_of_mem_mapM {α β : Type} {f : α → Option β} {xs : List α} {ys : List β} {y : β}
    (h : xs.mapM f = some ys) (hy : y ∈ ys) : ∃ x ∈ xs, f x = some y := by
  induction xs generalizing ys with
  | nil =>
      simp only [List.mapM_nil, Option.pure_def, Option.some.injEq] at h
      subst h
      cases hy
  | cons x xs ih =>
      simp only [List.mapM_cons, Option.pure_def, Option.bind_eq_bind, Option.bind_eq_some_iff,
        Option.some.injEq] at h
      obtain ⟨z, hz, zs, hzs, rfl⟩ := h
      rcases List.mem_cons.1 hy with rfl | hy
      · exact ⟨x, List.mem_cons_self, hz⟩
      · obtain ⟨x', hx', he⟩ := ih hzs hy
        exact ⟨x', List.mem_cons_of_mem _ hx', he⟩

/-- The bindings of a form are held. -/
theorem Comp.leads_bindings (hm : m.pairs = true) (hlist : w.Held m d list) :
    Comp.Leads R (Comp.bindings head list) w draft fun bs w' draft' =>
      w = w' ∧ draft = draft' ∧
        ∀ b ∈ bs, b.1.isSymbol = true ∧ w.Held m d b.1 ∧ w.Held m d b.2 := by
  unfold Comp.bindings
  refine .bindHeap ?_
  split
  · rename_i bs hbs
    obtain ⟨items, hitems, hmap⟩ := Option.bind_eq_some_iff.1 hbs
    refine .pure ⟨rfl, rfl, fun b hb => ?_⟩
    obtain ⟨v, hv, hbinding⟩ := exists_of_mem_mapM hmap hb
    exact held_of_binding? hm (hlist.items hm hitems v (Array.mem_toList_iff.1 hv)) hbinding
  · exact .reject _

/-- The record of a symbol. -/
theorem Comp.leads_symbol :
    Comp.Leads R (Comp.symbol v) w draft fun s w' draft' =>
      w = w' ∧ draft = draft' ∧ w.heap.symbol? v = some s := by
  unfold Comp.symbol
  refine .bindHeap ?_
  split
  · rename_i s hs
    exact .pure ⟨rfl, rfl, hs⟩
  · exact .halt _

/-- The expander that a head names is good. -/
theorem Comp.leads_expander? :
    Comp.Leads R (Comp.expander? head) w draft fun r w' draft' =>
      w = w' ∧ draft = draft' ∧ ∀ e, r = some e → w.Good e := by
  unfold Comp.expander?
  refine .bindScope ?_
  split
  · exact .pure ⟨rfl, rfl, nofun⟩
  · refine .bind leads_symbol ?_
    rintro s _ _ - ⟨rfl, rfl, hs⟩
    split
    · rename_i v _ hv
      refine .pure ⟨rfl, rfl, fun e he => ?_⟩
      split at he
      · cases he
        exact System.good_of_symbol? hs hv
      · cases he
    · exact .pure ⟨rfl, rfl, nofun⟩

end Lists

/-! ## Calls and expansions -/

/-- A caller that leaves what lasts as it is, as long as something holds that any step of a
compilation leaves true. -/
structure Steady (m : Mode) (I : System → Prop) (call : Caller) : Prop where
  pairs : m.pairs = true
  yields : ∀ {d w f args}, I w → d ≤ w.state.roots.size → w.Good f →
    (∀ v ∈ args, w.Good v) → Yields m.still d (call f args) w
  stays : ∀ {target d w w'}, w.Spares target → Stable { m with target } d w w' → I w → I w'

/-- The expansions made so far are held, by the list at a protected place. -/
structure Comp.Ready (m : Mode) (I : System → Prop) (d : Nat) (w : System) (draft : Draft) :
    Prop where
  calm : I w
  depth : d ≤ w.state.roots.size
  place : draft.expansionRoot < d
  floor : m.floor ≤ draft.expansionRoot
  kept : w.Good (w.state.roots.getD draft.expansionRoot .nil)
  expansions : ∀ p ∈ draft.expansions, w.Held m (draft.expansionRoot + 1) p.2

section Expansions

variable {m : Mode} {I : System → Prop} {call : Caller} {d : Nat} {w w' : System} {draft : Draft}
  {v : Value}

theorem System.Held.toward {target : Option Nat} (hv : w.Held { m with target } d v) :
    w.Held m d v := ⟨hv.good, hv.anchored⟩

/-- What is held with fewer protected values to start from is held with more. -/
theorem System.Held.of_le {e : Nat} (hv : w.Held m d v) (he : d ≤ e) : w.Held m e v :=
  ⟨hv.good, fun i hi => (hv.anchored i hi).of_le he⟩

theorem System.Held.of_stable {target : Option Nat} (hv : w.Held m d v)
    (hs : Stable { m with target } d w w') : w'.Held m d v := by
  have h : w.Held { m with target } d v := ⟨hv.good, hv.anchored⟩
  exact (h.stable hs).toward

theorem Comp.Ready.stable (hr : Ready m I d w draft) (hcall : Steady m I call)
    {target : Option Nat} (hw : w.Spares target) (hs : Stable { m with target } d w w') :
    Ready m I d w' draft where
  calm := hcall.stays hw hs hr.calm
  depth := hs.depth d (Nat.le_refl d) hr.depth
  place := hr.place
  floor := hr.floor
  kept := hs.sound _ hr.place hr.kept
  expansions p hp := (hr.expansions p hp).of_stable (hs.of_le hr.place)

/-- Another scope makes no difference. -/
theorem Comp.Ready.scope (hr : Ready m I d w draft) (scope : Scope) :
    Ready m I d w { draft with scope } :=
  ⟨hr.calm, hr.depth, hr.place, hr.floor, hr.kept, hr.expansions⟩

/-- An expansion is added to the list of all of them. -/
theorem leads_keepExpansion {place : Nat} (hm : m.pairs = true) (hplace : place < d)
    (hfloor : m.floor ≤ place) (hd : d ≤ w.state.roots.size)
    (hkept : w.Good (w.state.roots.getD place .nil)) (hv : w.Good v) :
    Leads (Stable m d) (Comp.keepExpansion place v) w fun _ w' => w'.Held m (place + 1) v := by
  refine Leads.withRoots (Q := fun _ w' => w'.Held m (place + 1) v) ?_ hd ?_
  · refine Leads.bind (leads_protect hv.holds hd) ?_
    rintro k w₁ - ⟨-, rfl⟩
    have hget : (w.guarding hv.holds).state.roots.getD place .nil = w.state.roots.getD place .nil := by
      show (w.state.roots.push v).getD place .nil = _
      simp only [Array.getD_eq_getD_getElem?, Array.getElem?_push]
      rw [if_neg (by omega)]
    have hv₁ : (w.guarding hv.holds).Good v := ⟨hv.holds, hv.proper⟩
    have hold : (w.guarding hv.holds).Good ((w.guarding hv.holds).state.roots.getD place .nil) := by
      rw [hget]
      exact ⟨hkept.holds, hkept.proper⟩
    refine Leads.bind (Leads.gets (Q := fun u w' => w.guarding hv.holds = w' ∧
      u = (w.guarding hv.holds).state.roots.getD place .nil) ⟨rfl, rfl⟩) ?_
    rintro _ _ - ⟨rfl, rfl⟩
    refine Leads.bind (leads_cons hv₁ hold).stable ?_
    rintro u w₂ - ⟨hg, hu, hpair⟩
    obtain ⟨i, rfl, hcell⟩ := Heap.exists_of_pair? hpair
    have hi : (Value.ref .pair i).cell? = some i := w₂.cell?_of_pair hcell
    have hlast : ∀ x ∈ [v, (w.guarding hv.holds).state.roots.getD place .nil],
        Lasting w₂.heap m.pairs (.ref .pair i) x := by
      intro x hx
      refine .step .refl hi ?_
      rw [hcell, hm]
      exact hx
    refine (leads_setRoot hu hfloor ?_).mono ?_
    · intro x hx
      refine hlast x ?_
      rw [hg.roots] at hx
      simp [Array.getD_eq_getD_getElem?, hx]
    · rintro _ w₃ - ⟨hplans, hstate⟩
      have hv₂ := hg.good hv₁ (by simp)
      refine ⟨⟨?_, by rw [hplans]; exact hv₂.proper⟩, fun _ _ => ⟨.ref .pair i, ?_, ?_⟩⟩
      · rw [System.heap, hstate]
        exact hv₂.holds
      · have hlt : place < w₂.state.roots.size := by
          rw [hg.roots]
          show place < (w.state.roots.push v).size
          rw [Array.size_push]
          omega
        rw [hstate]
        simp only [State.base, List.mem_append]
        refine .inl (.inl (.inr (List.mem_of_getElem? (i := place) ?_)))
        rw [List.getElem?_take, if_pos (Nat.lt_succ_self _), Array.getElem?_toList,
          Array.getElem?_setIfInBounds_self_of_lt hlt]
      · rw [hstate]
        exact hlast v (by simp)
  · exact fun _ w' _ hv' => hv'.stable (w'.stable_cut (Nat.le_trans hplace hd))

theorem Heap.items?_nil (h : Heap) : h.items? .nil = some #[] := by
  have : h.spineFrom #[] h.cells.size .nil = (#[], .nil) := by
    cases h.cells.size <;> rfl
  simp [Heap.items?, Heap.spine, this, Value.isNil]

/-- The arguments of a form that is held are good. -/
theorem Comp.looks_argumentsOf {form : Value} (hm : m.pairs = true) (hf : w.Held m d form) :
    Looks (Comp.argumentsOf form) w.state fun items => ∀ u ∈ items, w.Good u := by
  unfold Comp.argumentsOf
  refine Looks.bind (Looks.gets (Q := fun h => h = w.heap) rfl) ?_
  rintro _ rfl
  simp only
  split
  · rename_i items hi
    refine Looks.pure ?_
    cases hp : w.heap.pair? form with
    | none =>
        rw [hp] at hi
        simp only [Heap.items?_nil, Option.some.injEq] at hi
        subst hi
        simp
    | some p =>
        rw [hp] at hi
        exact fun u hu => ((hf.pair hm hp).2.items hm hi u hu).good
  · unfold typeError
    refine Looks.bind (Looks.gets (Q := fun _ => True) trivial) ?_
    intro _ _
    exact Looks.fail _

/-- The expansion of a form is held. -/
theorem Comp.leads_expand {expander form : Value} (hcall : Steady m I call)
    (hr : Ready m I d w draft) (hf : w.Held m d form) (he : w.Good expander) :
    Comp.Leads (Stable m.still d) (Comp.expand call expander form) w draft fun v w' draft' =>
      w'.Held m d v ∧ Ready m I d w' draft' ∧ draft'.scope = draft.scope ∧
        draft'.expansionRoot = draft.expansionRoot := by
  unfold Comp.expand
  refine .bindDraft ?_
  split
  · rename_i v hl
    obtain ⟨l₁, l₂, he, -⟩ := List.lookup_eq_some_iff.1 hl
    exact .pure ⟨(hr.expansions (form, v) (by rw [he]; simp)).of_le hr.place, hr, rfl, rfl⟩
  · refine .bind (.lift (looks_argumentsOf hcall.pairs hf).leads) ?_
    rintro args _ _ - ⟨rfl, rfl, hargs⟩
    refine .bind (.lift (hcall.yields hr.calm hr.depth he hargs)) ?_
    rintro v w₁ draft hs ⟨rfl, hv⟩
    have hr₁ := hr.stable hcall w.spares_none hs
    refine .bind (.lift (leads_keepExpansion (m := m.still) hcall.pairs hr₁.place hr₁.floor
      hr₁.depth hr₁.kept hv)) ?_
    rintro _ w₂ draft hs₂ ⟨rfl, hv₂⟩
    have hr₂ := hr₁.stable hcall w₁.spares_none hs₂
    have hv₂ : w₂.Held m (draft.expansionRoot + 1) v := hv₂.toward
    refine ⟨w₂, rfl, Follows.refl w₂, hv₂.of_le hr.place, ?_, rfl, rfl⟩
    refine ⟨hr₂.calm, hr₂.depth, hr₂.place, hr₂.floor, hr₂.kept, ?_⟩
    intro p hp
    rcases List.mem_cons.1 hp with rfl | hp
    · exact hv₂
    · exact hr₂.expansions p hp

end Expansions

end CellLisp
