import CellLisp.Proofs.Compile.Steps

/-!
# `CellLisp.Proofs.Compile.Walk` — what the walk over a body finds

The walk looks for references to what is bound around a procedure, and may call procedures
for expansions on the way.  What it records is in scope around the procedure
(`Captures.Within`), whatever the body is.

    walkTails, walkBindings, …   keep that, if the walk over parts does (`WalkOk`)
    walkTo                       does
-/

namespace CellLisp

/-- The names found so far are in scope. -/
structure Captures.Within (scope : Scope) (c : Captures) : Prop where
  vars : ∀ x ∈ c.vars, scope.binds x = true
  conts : ∀ k ∈ c.conts, (scope.resolveCont k).isSome = true

/-- What a walk leads to. -/
structure Walked (m : Mode) (I : System → Prop) (d r : Nat) (scope : Scope) (c : Captures)
    (w : System) (draft : Draft) : Prop where
  within : c.Within scope
  ready : Comp.Ready m I d w draft
  scope : draft.scope = scope
  root : draft.expansionRoot = r

/-- A walk that leads to names in scope. -/
def WalkOk (m : Mode) (I : System → Prop) (walk : Walker) : Prop :=
  ∀ (bound : Bound) {d r w draft scope c v}, Walked m I d r scope c w draft → w.Held m d v →
    Comp.Leads (Stable m.still d) (walk bound c v) w draft (Walked m I d r scope)

section Walk

variable {m : Mode} {I : System → Prop} {call : Caller} {walk : Walker} {d r : Nat}
  {w w' : System} {draft : Draft} {scope : Scope} {bound : Bound} {c : Captures}
  {v head args : Value}

theorem Captures.Within.addVar (h : c.Within scope) (bound : Bound) (x : Value) :
    (c.addVar scope bound x).Within scope := by
  unfold Captures.addVar
  split
  · rename_i hx
    simp only [Bool.and_eq_true] at hx
    refine ⟨fun y hy => ?_, h.conts⟩
    rcases List.mem_append.1 hy with hy | hy
    · exact h.vars y hy
    · obtain rfl := List.mem_singleton.1 hy
      exact hx.2
  · exact h

theorem Captures.Within.addCont (h : c.Within scope) (bound : Bound) (k : Value) :
    (c.addCont scope bound k).Within scope := by
  unfold Captures.addCont
  split
  · rename_i hk
    simp only [Bool.and_eq_true] at hk
    refine ⟨h.vars, fun y hy => ?_⟩
    rcases List.mem_append.1 hy with hy | hy
    · exact h.conts y hy
    · obtain rfl := List.mem_singleton.1 hy
      exact hk.2
  · exact h

/-- The elements along the tails of a list are walked over. -/
theorem leads_walkTails (hcall : Steady m I call) (hwalk : WalkOk m I walk) {n : Nat}
    (h : Walked m I d r scope c w draft) (hv : w.Held m d v) :
    Comp.Leads (Stable m.still d) (Captures.walkTails walk bound n c v) w draft
      (Walked m I d r scope) := by
  induction n generalizing c v w draft with
  | zero => exact .halt _
  | succ n ih =>
      rw [Captures.walkTails]
      refine .bindHeap ?_
      split
      · exact .pure h
      · rename_i hd tl hp
        obtain ⟨hhead, htail⟩ := hv.pair hcall.pairs hp
        refine .bind (hwalk bound h hhead) ?_
        intro c' w₁ draft' hs h'
        exact ih h' (htail.of_stable hs)

theorem leads_walkAll (hcall : Steady m I call) (hwalk : WalkOk m I walk) (bound : Bound)
    (h : Walked m I d r scope c w draft) (hv : w.Held m d v) :
    Comp.Leads (Stable m.still d) (Captures.walkAll walk bound c v) w draft
      (Walked m I d r scope) :=
  .bindGets (leads_walkTails hcall hwalk h hv)

/-- A pair taken apart. -/
theorem leads_split {R : System → System → Prop} [Follows R] (hm : m.pairs = true)
    (hv : w.Held m d v) :
    Comp.Leads R (Captures.split v) w draft fun p w' draft' =>
      w = w' ∧ draft = draft' ∧ w.Held m d p.1 ∧ w.Held m d p.2 := by
  unfold Captures.split
  refine .bindHeap (.pure ⟨rfl, rfl, ?_⟩)
  cases hp : w.heap.pair? v with
  | none => exact ⟨System.held_nil, System.held_nil⟩
  | some p => exact hv.pair hm hp

/-- Forms one behind the other are walked over. -/
theorem leads_walkFold (hwalk : WalkOk m I walk) (bound : Bound) {vs : List Value}
    (h : Walked m I d r scope c w draft) (hv : ∀ v ∈ vs, w.Held m d v) :
    Comp.Leads (Stable m.still d) (vs.foldlM (walk bound) c) w draft (Walked m I d r scope) := by
  induction vs generalizing c w draft with
  | nil => exact .pure h
  | cons v vs ih =>
      rw [List.foldlM_cons]
      refine .bind (hwalk bound h (hv v List.mem_cons_self)) ?_
      intro c' w₁ draft' hs h'
      exact ih h' fun u hu => (hv u (List.mem_cons_of_mem _ hu)).of_stable hs

/-- A binding form is walked over. -/
theorem leads_walkBindings (hcall : Steady m I call) (hwalk : WalkOk m I walk)
    (lexical : Bool) (h : Walked m I d r scope c w draft) (hv : w.Held m d args) :
    Comp.Leads (Stable m.still d) (Captures.walkBindings walk bound c lexical head args) w draft
      (Walked m I d r scope) := by
  unfold Captures.walkBindings
  refine .bind (leads_split hcall.pairs hv) ?_
  rintro ⟨list, body⟩ _ _ - ⟨rfl, rfl, hlist, hbody⟩
  refine .bind (Comp.leads_bindings hcall.pairs hlist) ?_
  rintro bs _ _ - ⟨rfl, rfl, hbs⟩
  have hfold : bs.foldlM (fun c b => walk bound c b.2) c = (bs.map (·.2)).foldlM (walk bound) c := by
    rw [List.foldlM_map]
  rw [hfold]
  refine .bind (leads_walkFold hwalk _ h ?_) ?_
  · intro u hu
    obtain ⟨b, hb, rfl⟩ := List.mem_map.1 hu
    exact (hbs b hb).2.2
  · intro c' w₁ draft' hs h'
    exact leads_walkAll hcall hwalk _ h' (hbody.of_stable hs)

/-- A procedure within the procedure is walked over. -/
theorem leads_walkLambda (hcall : Steady m I call) (hwalk : WalkOk m I walk)
    (h : Walked m I d r scope c w draft) (hv : w.Held m d args) :
    Comp.Leads (Stable m.still d) (Captures.walkLambda walk bound c head args) w draft
      (Walked m I d r scope) := by
  unfold Captures.walkLambda
  refine .bind (Comp.leads_parts hcall.pairs hv) ?_
  rintro ps _ _ - ⟨rfl, rfl, hps, -⟩
  split
  · rename_i body
    refine .bindHeap ?_
    exact leads_walkFold hwalk _ h fun u hu => hps u (by simp [hu])
  · exact .bindHeap (.reject _)

/-- A call is walked over, or what it expands to. -/
theorem leads_walkCall (hcall : Steady m I call) (hwalk : WalkOk m I walk) {form : Value}
    (h : Walked m I d r scope c w draft) (hform : w.Held m d form) (hv : w.Held m d args) :
    Comp.Leads (Stable m.still d) (Captures.walkCall call walk bound c form head args) w draft
      (Walked m I d r scope) := by
  have hwhole : ∀ {w₁ draft'}, Stable m.still d w w₁ → Walked m I d r scope c w₁ draft' →
      Comp.Leads (Stable m.still d) (do
        let special ← gets fun s => (s.known.special? head).isSome
        Captures.walkAll walk bound c (if special then args else form)) w₁ draft'
        (Walked m I d r scope) := by
    intro w₁ draft' hs h'
    refine .bindGets ?_
    split
    · exact leads_walkAll hcall hwalk _ h' (hv.of_stable hs)
    · exact leads_walkAll hcall hwalk _ h' (hform.of_stable hs)
  unfold Captures.walkCall
  split
  · exact hwhole (Follows.refl w) h
  · refine .bind Comp.leads_expander? ?_
    rintro r _ _ - ⟨rfl, rfl, hr⟩
    cases r with
    | none => exact hwhole (Follows.refl w) h
    | some e =>
        refine .bind (Comp.leads_expand hcall h.ready hform (hr e rfl)) ?_
        rintro x w₁ draft' hs ⟨hx, hready, hscope, hroot⟩
        exact hwalk bound ⟨h.within, hready, hscope.trans h.scope, hroot.trans h.root⟩ hx

/-- One form is walked over. -/
theorem walkOk_walkForm (hcall : Steady m I call) (hwalk : WalkOk m I walk) :
    WalkOk m I (Captures.walkForm call walk) := by
  intro bound d r w draft scope c v h hv
  unfold Captures.walkForm
  split
  · refine .bindScope (.pure ⟨?_, h.ready, h.scope, h.root⟩)
    rw [h.scope]
    exact h.within.addVar bound v
  · refine .bindHeap ?_
    split
    · exact .pure h
    · rename_i head args hp
      obtain ⟨-, hargs⟩ := hv.pair hcall.pairs hp
      refine .bindGets ?_
      split
      · exact .pure h
      · exact .pure h
      · exact leads_walkBindings hcall hwalk true h hargs
      · exact leads_walkBindings hcall hwalk false h hargs
      · exact leads_walkLambda hcall hwalk h hargs
      · refine .bind (leads_split hcall.pairs hargs) ?_
        rintro ⟨name, body⟩ _ _ - ⟨rfl, rfl, -, hbody⟩
        exact leads_walkAll hcall hwalk _ h hbody
      · refine .bind (leads_split hcall.pairs hargs) ?_
        rintro ⟨name, rest⟩ _ _ - ⟨rfl, rfl, -, hrest⟩
        refine .bindScope ?_
        refine leads_walkAll hcall hwalk _ ⟨?_, h.ready, h.scope, h.root⟩ hrest
        rw [h.scope]
        exact h.within.addCont bound name
      · exact leads_walkCall hcall hwalk h hv hargs

theorem walkOk_walkTo (hcall : Steady m I call) (n : Nat) :
    WalkOk m I (Captures.walkTo call n) := by
  induction n with
  | zero => exact fun _ _ _ _ _ _ _ _ _ _ => .halt _
  | succ n ih => exact walkOk_walkForm hcall ih

end Walk

end CellLisp
