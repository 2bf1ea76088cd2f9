import CellLisp.Proofs.Compile.Drafted
import CellLisp.Proofs.Compile.Walk

/-!
# `CellLisp.Proofs.Compile.Emission` — what compiling a form emits

While a procedure is compiled, the sites emitted to its code and the compiler's scope are
known (`Comp.Emitting`); each site notes the scope of its own time.  Compiling a form emits
the code of what the form was expanded to (`FormOk`).

| | emits |
| :-- | :-- |
| `leads_op` | one instruction |
| `leads_forM` | parts one behind the other |
| `leads_compileIf`, … | the code of a `Core` |
-/

namespace CellLisp

/-- Code is being emitted to a cell: the scope, and the sites so far. -/
structure Comp.Emitting (m : Mode) (I : System → Prop) (d r : Nat) (a : Arity) (t : Nat)
    (scope : Scope) (sites : List Site) (w : System) (draft : Draft) : Prop where
  ready : Comp.Ready m I d w draft
  target : w.Target (m.toward t) d a t sites
  code : scope.code = .ref .bytecode t
  scope : draft.scope = scope
  root : draft.expansionRoot = r

/-- A form is compiled to the code of a `Core`. -/
def Comp.FormOk (m : Mode) (I : System → Prop) (form : FormCompiler) : Prop :=
  ∀ (tail : Bool) {d r a t scope sites w draft f}, Emitting m I d r a t scope sites w draft →
    w.Held m d f → Comp.Leads (Stable (m.toward t) d) (form f tail) w draft fun _ w' draft' =>
      ∃ e : Core, e.Ok scope ∧
        Emitting m I d r a t scope (sites ++ e.code scope sites.length tail) w' draft'

namespace Comp

section Emission

variable {m : Mode} {I : System → Prop} {call : Caller} {form : FormCompiler} {d r : Nat}
  {a : Arity} {t : Nat} {scope : Scope} {sites : List Site} {w w' : System} {draft : Draft}

theorem Emitting.stable (h : Emitting m I d r a t scope sites w draft) (hcall : Steady m I call)
    (hs : Stable m.still d w w') : Emitting m I d r a t scope sites w' draft :=
  ⟨h.ready.stable hcall w.spares_none hs, h.target.stable hs, h.code, h.scope, h.root⟩

/-- Remarks make no difference. -/
theorem Emitting.warnings (h : Emitting m I d r a t scope sites w draft)
    (warnings : Array Warning) :
    Emitting m I d r a t scope sites w { draft with warnings } :=
  ⟨⟨h.ready.calm, h.ready.depth, h.ready.place, h.ready.floor, h.ready.kept,
    h.ready.expansions⟩, h.target, h.code, h.scope, h.root⟩

/-- The scope is changed. -/
theorem Emitting.modify (h : Emitting m I d r a t scope sites w draft) (g : Scope → Scope)
    (hcode : (g scope).code = scope.code) :
    Emitting m I d r a t (g scope) sites w { draft with scope := g draft.scope } := by
  refine ⟨h.ready.scope _, h.target, hcode.trans h.code, ?_, h.root⟩
  rw [← h.scope]

/-- One instruction is emitted. -/
theorem leads_op {o : Opcode} {n : Nat} {v : Value} {k : Kind} (hcall : Steady m I call)
    (h : Emitting m I d r a t scope sites w draft) (hv : w.heap.Holds v)
    (hk : o = .const → ConstOk w.plans w.state.known.makeClosure v k) :
    Comp.Leads (Stable (m.toward t) d) (Comp.op o n v) w draft fun place w' draft' =>
      place = sites.length ∧
        Emitting m I d r a t scope (sites ++ [scope.site ⟨o, n, v⟩ k]) w' draft' := by
  have hemit : Comp.Leads (Stable (m.toward t) d) (do
      let s ← Comp.scope
      emit s.code o n v : Comp Nat) w draft fun place w' draft' => place = sites.length ∧
        Emitting m I d r a t scope (sites ++ [scope.site ⟨o, n, v⟩ k]) w' draft' := by
    refine .bindScope ?_
    rw [h.scope, h.code]
    refine .mono (.lift (leads_emit h.target (s := scope.site ⟨o, n, v⟩ k) rfl hv hk
      h.ready.depth)) ?_
    rintro place w' _ hs ⟨rfl, hplace, htarget⟩
    exact ⟨hplace, h.ready.stable hcall h.target.spares hs, htarget, h.code, h.scope, h.root⟩
  unfold Comp.op
  split
  · exact .bind (.reject (Q := fun _ _ _ => False) _) fun _ _ _ _ h => h.elim
  · exact hemit

theorem leads_op' {o : Opcode} {n : Nat} {v : Value} {k : Kind} (hcall : Steady m I call)
    (h : Emitting m I d r a t scope sites w draft) (hv : w.heap.Holds v)
    (hk : o = .const → ConstOk w.plans w.state.known.makeClosure v k) :
    Comp.Leads (Stable (m.toward t) d) (Comp.op' o n v) w draft fun _ w' draft' =>
      Emitting m I d r a t scope (sites ++ [scope.site ⟨o, n, v⟩ k]) w' draft' :=
  .bind (leads_op hcall h hv hk) fun _ _ _ _ h => .pure h.2

/-- An instruction other than a constant is emitted. -/
theorem leads_instr {o : Opcode} {n : Nat} {v : Value} (hcall : Steady m I call)
    (h : Emitting m I d r a t scope sites w draft) (hv : w.heap.Holds v) (ho : o ≠ .const) :
    Comp.Leads (Stable (m.toward t) d) (Comp.op' o n v) w draft fun _ w' draft' =>
      Emitting m I d r a t scope (sites ++ [scope.site ⟨o, n, v⟩ .any]) w' draft' :=
  leads_op' hcall h hv fun h => absurd h ho

/-- The value register is pushed. -/
theorem leads_pushTemp (hcall : Steady m I call) (h : Emitting m I d r a t scope sites w draft) :
    Comp.Leads (Stable (m.toward t) d) Comp.pushTemp w draft fun _ w' draft' =>
      Emitting m I d r a t (scope.push .temp) (sites ++ [scope.site ⟨.push, 0, .nil⟩ .any])
        w' draft' := by
  unfold pushTemp
  refine .bind (leads_instr hcall h (holds_nil _) (by simp)) ?_
  intro _ w' draft' _ h'
  exact .modifyScope (h'.modify (·.push .temp) rfl)

/-- A jump is pointed to the next instruction. -/
theorem leads_patchHere {before after : List Site} {s : Site} (hcall : Steady m I call)
    (h : Emitting m I d r a t scope (before ++ s :: after) w draft) (hs : s.instr.op ≠ .const) :
    Comp.Leads (Stable (m.toward t) d) (Comp.patchHere before.length) w draft fun _ w' draft' =>
      Emitting m I d r a t scope
        (before ++ s.pointed (before.length + (after.length + 1)) :: after) w' draft' := by
  unfold patchHere
  refine .bindScope ?_
  unfold here
  refine .bind (Q := fun n w' draft' => w = w' ∧ draft = draft' ∧
    n = before.length + (after.length + 1)) ?_ ?_
  · refine .bindScope ?_
    rw [h.scope, h.code]
    refine .mono (.lift h.target.looks_length.leads) ?_
    rintro n _ _ - ⟨rfl, rfl, hn⟩
    exact ⟨rfl, rfl, by simpa using hn⟩
  · rintro n _ _ - ⟨rfl, rfl, rfl⟩
    rw [h.scope, h.code]
    refine .mono (.lift (leads_patch h.target hs _)) ?_
    rintro _ w' _ hst ⟨rfl, htarget⟩
    exact ⟨h.ready.stable hcall h.target.spares hst, htarget, h.code, h.scope, h.root⟩

/-! ## Variables -/

/-- The record of a symbol whose value a constant has. -/
theorem constOk_of_good {v : Value} (hv : w.Good v) :
    ConstOk w.plans w.state.known.makeClosure v .any := hv.proper

/-- A remark. -/
theorem leads_warn {kind : WarningKind} {x : Value} {R : System → System → Prop} [Follows R] :
    Comp.Leads R (warn kind x) w draft fun _ w' draft' =>
      w = w' ∧ ∃ warnings, draft' = { draft with warnings } :=
  .bindHeap ⟨w, rfl, Follows.refl w, rfl, _, rfl⟩

/-- A reference to a variable. -/
theorem leads_compileRef {x : Value} (hcall : Steady m I call)
    (h : Emitting m I d r a t scope sites w draft) (hx : w.Held m d x) :
    Comp.Leads (Stable (m.toward t) d) (compileRef x) w draft fun _ w' draft' =>
      ∃ inlined, Emitting m I d r a t scope (sites ++ [scope.site (refInstr scope x inlined) .any])
        w' draft' := by
  unfold compileRef
  refine .bindScope ?_
  rw [h.scope]
  split
  · rename_i offset hplace
    refine .mono (leads_instr hcall h (holds_nil _) (by simp)) ?_
    intro _ w' draft' _ h'
    exact ⟨none, by simpa only [refInstr, hplace] using h'⟩
  · rename_i offset index hplace
    refine .mono (leads_instr hcall h (holds_ofInt _ _) (by simp)) ?_
    intro _ w' draft' _ h'
    exact ⟨none, by simpa only [refInstr, hplace] using h'⟩
  · rename_i hplace
    refine .bind leads_symbol ?_
    rintro s _ _ - ⟨rfl, rfl, hs⟩
    split
    · rename_i v _ hv
      have hgood := System.good_of_symbol? hs hv
      refine .mono (leads_op' (k := .any) hcall h hgood.holds fun _ => constOk_of_good hgood) ?_
      intro _ w' draft' _ h'
      exact ⟨some v, by simpa only [refInstr, hplace] using h'⟩
    · have hglobal : ∀ {draft'}, Emitting m I d r a t scope sites w draft' →
          Comp.Leads (Stable (m.toward t) d) (op' .globalRef 0 x) w draft' fun _ w' draft' =>
            ∃ inlined, Emitting m I d r a t scope
              (sites ++ [scope.site (refInstr scope x inlined) .any]) w' draft' := by
        intro draft' h'
        refine .mono (leads_instr hcall h' hx.good.holds (by simp)) ?_
        intro _ w' draft' _ h''
        exact ⟨none, by simpa only [refInstr, hplace] using h''⟩
      split
      · refine .bind leads_warn ?_
        rintro _ _ _ - ⟨rfl, warnings, rfl⟩
        exact hglobal (h.warnings warnings)
      · exact hglobal h

/-- Remarks on an assignment. -/
theorem leads_warnAssign {x v : Value} {R : System → System → Prop} [Follows R] :
    Comp.Leads R (warnAssign x v) w draft fun _ w' draft' =>
      w = w' ∧ ∃ warnings, draft' = { draft with warnings } := by
  unfold warnAssign
  refine .bind leads_symbol ?_
  rintro s _ _ - ⟨rfl, rfl, hs⟩
  have htail : ∀ isLambda : Bool, Comp.Leads R (do
      if s.role = .function && s.declared && !isLambda then warn .assignFunction x
      else if s.role = .constant && s.declared then warn .assignConstant x) w draft
      fun _ w' draft' => w = w' ∧ ∃ warnings, draft' = { draft with warnings } := by
    intro isLambda
    split
    · exact leads_warn
    · split
      · exact leads_warn
      · exact .pure ⟨rfl, draft.warnings, rfl⟩
  refine .bindGets (.bindHeap ?_)
  split
  · exact htail _
  · exact htail _

/-- What follows a remark, or is done without one. -/
theorem leads_remarked {β : Type} {R : System → System → Prop} [Follows R] {remark : Comp Unit}
    {f : Comp β} {p : Prop} [Decidable p] {Q : β → System → Draft → Prop}
    (hremark : Comp.Leads R remark w draft fun _ w' draft' =>
      w = w' ∧ ∃ warnings, draft' = { draft with warnings })
    (h : ∀ warnings, Comp.Leads R f w { draft with warnings } Q) :
    Comp.Leads R (if p then do remark; f else f) w draft Q := by
  split
  · refine .bind hremark ?_
    rintro _ _ _ - ⟨rfl, warnings, rfl⟩
    exact h warnings
  · exact h draft.warnings

/-- An assignment. -/
theorem leads_compileSet {x v : Value} (hcall : Steady m I call) (hform : FormOk m I form)
    (h : Emitting m I d r a t scope sites w draft) (hx : w.Held m d x) (hv : w.Held m d v)
    (tail : Bool) :
    Comp.Leads (Stable (m.toward t) d) (compileSet form x v) w draft fun _ w' draft' =>
      ∃ e : Core, e.Ok scope ∧
        Emitting m I d r a t scope (sites ++ e.code scope sites.length tail) w' draft' := by
  unfold compileSet
  refine .bindScope ?_
  rw [h.scope]
  dsimp only
  refine leads_remarked leads_warnAssign fun warnings => ?_
  refine .bind (hform false (h.warnings warnings) hv) ?_
  rintro _ w₁ draft₁ hs ⟨e, hok, h₁⟩
  have hx₁ := hx.of_stable hs
  refine .mono (Q := fun _ w' draft' => Emitting m I d r a t scope
    (sites ++ e.code scope sites.length false ++ [scope.site (setInstr scope x) .any]) w' draft')
    ?_ fun _ w' draft' _ h₂ => ?_
  · unfold setInstr
    cases scope.resolve x with
    | stack offset => exact leads_instr (o := .stackSet) hcall h₁ (holds_nil _) (by simp)
    | env offset index => exact leads_instr (o := .envSet) hcall h₁ (holds_ofInt _ _) (by simp)
    | global => exact leads_instr (o := .globalSet) hcall h₁ hx₁.good.holds (by simp)
  · refine ⟨.assign x e, hok, ?_⟩
    rw [Core.code_assign, ← List.append_assoc]
    exact h₂

end Emission

end Comp
end CellLisp
