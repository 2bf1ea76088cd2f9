import CellLisp.Proofs.Compile.Closure
import CellLisp.Proofs.State.Reader

/-!
# `CellLisp.Proofs.Compile.Unit` — whole units, and any form

A unit is compiled into code that is not finished before its last instruction is emitted; then
a program may run it.  With that every construct of the language is known to emit the code of
a `Core`, and so does the compiler as a whole, to any depth.

| | |
| :-- | :-- |
| `leads_compileUnit` | the target is a finished procedure that copies nothing |
| `leads_unitCall` | a unit is compiled and run |
| `emits_compileComptime` | forms evaluated while compiling |
| `emits_compileForm` | any form, if the forms within it are compiled as they should be |

A procedure with more parameters than an arity has room for is left aside (`isWide`).
-/

namespace CellLisp

namespace Comp

/-! ## Units -/

section Units

variable {m : Mode} {I : System → Prop} {call : Caller} {form : FormCompiler} {d r : Nat}
  {a : Arity} {t : Nat} {w w' : System} {draft : Draft}

/-- Remarks are logged. -/
theorem leads_settle (w : System) (found : Array Warning) :
    CellLisp.Leads (Grown []) (settle found) w fun _ w' =>
      w'.plans = w.plans ∧ w'.heap = w.heap := by
  refine CellLisp.Leads.foldlM (P := fun _ w' => w'.plans = w.plans ∧ w'.heap = w.heap) ⟨rfl, rfl⟩ ?_
  intro x _ kept w' _ hw'
  unfold keepWarning
  refine CellLisp.Leads.bind (CellLisp.Leads.gets (Q := fun _ u => w' = u) rfl) ?_
  rintro settled _ - rfl
  split
  · exact CellLisp.Leads.pure hw'
  · refine CellLisp.Leads.bind (leads_logLine w' _ _) ?_
    rintro _ w'' - ⟨hplans, hheap⟩
    exact CellLisp.Leads.pure ⟨hplans.trans hw'.1, hheap.trans hw'.2⟩

/-- The procedure that a unit is. -/
def unitProc (code : Value) (e : Core) : Proc := ⟨.new code [.frame], none, false, e⟩

theorem fits_unit {code : Value} {e : Core} (ha : a.isVariadic = false)
    (he : e.Ok (.new code [.frame])) : (unitProc code e).Fits a where
  conts := rfl
  body := he
  fixed := ⟨0, rfl, .inr ⟨rfl, rfl⟩⟩
  least := nofun
  exact _ := ha

/-- What is emitted to with fewer protected values to start from is emitted to with more. -/
theorem target_of_le {e : Nat} {sites : List Site} (ht : w.Target m d a t sites) (he : d ≤ e) :
    w.Target m e a t sites :=
  { ht with anchored := Anchored.of_le ht.anchored he }

/-- Code of a unit may be emitted to the target, once the forms, the target and an empty list of
expansions are protected. -/
theorem emitting_unit {forms : Value} (hI : I w) (ht : w.Target (m.toward t) d a t [])
    (hd : w.state.roots.size = d + 3) (hfloor : m.floor ≤ d)
    (hlast : w.state.roots[d + 2]? = some .nil) (hforms : w.state.roots[d]? = some forms)
    (hgood : w.Good forms) :
    Emitting m I (d + 3) (d + 2) a t (.new (.ref .bytecode t) [.frame]) [] w
        ⟨.new (.ref .bytecode t) [.frame], #[], [], d + 2⟩ ∧ w.Held m (d + 3) forms := by
  refine ⟨⟨⟨hI, Nat.le_of_eq hd.symm, Nat.lt_succ_self _, Nat.le_add_right_of_le hfloor, ?_, nofun⟩,
    target_of_le ht (Nat.le_add_right d 3), rfl, rfl, rfl⟩, System.held_of_mem hgood ?_⟩
  · rw [Array.getD_eq_getD_getElem?, hlast]
    exact w.good_nil
  · simp only [State.base, List.mem_append]
    refine .inl (.inl (.inr (List.mem_of_getElem? (i := d) ?_)))
    rw [List.getElem?_take, if_pos (by omega), Array.getElem?_toList]
    exact hforms

/-- The code of a unit is emitted, and finished. -/
theorem leads_unitBody (hcall : Steady m I call) (hform : FormOk m I form) {fs : List Value}
    (h : Emitting m I d r a t (.new (.ref .bytecode t) [.frame]) [] w draft)
    (ha : a.isVariadic = false) (hfs : ∀ f ∈ fs, w.Held m d f) :
    Comp.Leads (Stable (m.toward t) d) (do
      compileBody form false fs
      op' .ret 0 .nil) w draft fun _ w' _ => w'.Good (.ref .bytecode t) := by
  have hbody : Comp.Leads (Stable (m.toward t) d) (do
      compileBody form false fs
      op' .ret 0 .nil) w draft fun _ w' draft' => ∃ e : Core, e.Ok (.new (.ref .bytecode t) [.frame]) ∧
        Emitting m I d r a t (.new (.ref .bytecode t) [.frame])
          ((unitProc (.ref .bytecode t) e).sites.map Site.drafted) w' draft' := by
    refine Comp.Leads.bind (emits_compileBody hcall hform h hfs) ?_
    rintro _ w₁ draft₁ - ⟨e, he, h₁⟩
    refine (leads_instr hcall h₁ (holds_nil _) (by simp)).mono ?_
    intro _ w₂ draft₂ _ h₂
    refine ⟨e, he, ?_⟩
    rw [drafted_sites]
    exact h₂
  refine hbody.adjust ?_
  rintro _ w' draft' hs ⟨e, he, h'⟩
  have htarget := h'.target
  have hfits := fits_unit ha he
  refine ⟨htarget.finish hfits, rfl, Follows.trans hs (htarget.stable_finish hfits), ?_, ?_, nofun⟩
  · obtain ⟨b, hb, -⟩ := htarget.cell
    rintro _ _ ⟨⟩ -
    rw [show (htarget.finish hfits).heap.cell t = _ from hb]
    exact ⟨rfl, rfl⟩
  · rintro _ ⟨⟩ -
    exact ⟨_, if_pos rfl, rfl⟩

/-- A list of forms is compiled into a unit. -/
theorem leads_compileUnit (hcall : Steady m I call) (hform : FormOk m I form) {forms : Value}
    (hI : I w) (ht : w.Target (m.toward t) d a t []) (hd : d ≤ w.state.roots.size)
    (hfloor : m.floor ≤ w.state.roots.size) (ha : a.isVariadic = false) (hforms : w.Good forms) :
    CellLisp.Leads (Stable (m.toward t) d) (compileUnit form forms (.ref .bytecode t)) w fun _ w' =>
      w'.Good (.ref .bytecode t) := by
  have htarget : w.heap.Holds (.ref .bytecode t) := by
    obtain ⟨b, hb, -⟩ := ht.cell
    rintro _ _ ⟨⟩ -
    rw [hb]
    exact ⟨rfl, rfl⟩
  unfold compileUnit
  refine CellLisp.Leads.withRoots (Q := fun _ w' => w'.Good (.ref .bytecode t)) ?_ hd
    fun _ _ _ hgood => hgood.cut _
  refine CellLisp.Leads.bind (leads_protect hforms.holds hd) ?_
  rintro _ w₁ hs₁ ⟨-, hw₁⟩
  have hd₁ := hs₁.depth d (Nat.le_refl d) hd
  have ht₁ : w₁.Target (m.toward t) d a t [] := by
    rw [hw₁]
    exact ht.stable (System.stable_guarding hforms.holds hd)
  have hholds₁ : w₁.heap.Holds (.ref .bytecode t) := by rw [hw₁]; exact htarget
  refine CellLisp.Leads.bind (leads_protect hholds₁ hd₁) ?_
  rintro _ w₂ hs₂ ⟨-, hw₂⟩
  have hd₂ := hs₂.depth d (Nat.le_refl d) hd₁
  have ht₂ : w₂.Target (m.toward t) d a t [] := by
    rw [hw₂]
    exact ht₁.stable (System.stable_guarding hholds₁ hd₁)
  refine CellLisp.Leads.bind (leads_protect (holds_nil _) hd₂) ?_
  rintro place w₃ hs₃ ⟨hplace, hw₃⟩
  have ht₃ : w₃.Target (m.toward t) w.state.roots.size a t [] := by
    rw [hw₃]
    exact target_of_le (ht₂.stable (System.stable_guarding (holds_nil _) hd₂)) hd
  have hs := Follows.trans (Follows.trans hs₁ hs₂) hs₃
  have hroots : w₃.state.roots = ((w.state.roots.push forms).push (.ref .bytecode t)).push .nil := by
    have h₁ : w₁.state.roots = w.state.roots.push forms := by rw [hw₁]; rfl
    have h₂ : w₂.state.roots = w₁.state.roots.push (.ref .bytecode t) := by rw [hw₂]; rfl
    rw [← h₁, ← h₂, hw₃]
    rfl
  have hgood : w₃.Good forms := by
    have h₁ : w₁.Good forms := by rw [hw₁]; exact ⟨hforms.holds, hforms.proper⟩
    have h₂ : w₂.Good forms := by rw [hw₂]; exact ⟨h₁.holds, h₁.proper⟩
    rw [hw₃]
    exact ⟨h₂.holds, h₂.proper⟩
  obtain ⟨hemitting, hheld⟩ := emitting_unit (hcall.stays ht.spares hs hI) ht₃
    (by simp [hroots]) hfloor (by rw [hroots, Array.getElem?_push, if_pos (by simp)])
    (by simp only [hroots, Array.getElem?_push, Array.size_push]; split <;> grind) hgood
  have hplace : place = w.state.roots.size + 2 := by
    have hsize := congrArg Array.size hroots
    rw [hw₃, show (w₂.guarding (holds_nil _)).state.roots = w₂.state.roots.push .nil from rfl] at hsize
    simp only [Array.size_push] at hsize
    omega
  refine CellLisp.Leads.bind (CellLisp.Leads.gets (Q := fun items? u => w₃ = u ∧
    items? = w₃.heap.items? forms) ⟨rfl, rfl⟩) ?_
  rintro _ _ - ⟨rfl, rfl⟩
  split
  · exact CellLisp.Leads.fail _
  · rename_i items hitems
    subst hplace
    have hitemsHeld : ∀ f ∈ items.toList, w₃.Held m (w.state.roots.size + 3) f := fun f hf =>
      hheld.items hcall.pairs hitems f (Array.mem_toList_iff.1 hf)
    have hbody := leads_unitBody hcall hform hemitting ha hitemsHeld
    have hle : d ≤ w.state.roots.size + 3 := Nat.le_add_right_of_le hd
    refine CellLisp.Leads.bindFrom hbody (fun _ hs' => hs'.of_le hle) ?_
    rintro ⟨_, draft⟩ w₄ hs₄ hgood
    refine CellLisp.Leads.mono (CellLisp.Leads.weaken (leads_settle w₄ draft.warnings).stable
      fun _ hs' => Follows.trans (hs₄.of_le hle) hs') ?_
    rintro _ w₅ - ⟨-, hplans, hheap⟩
    exact ⟨by rw [hheap]; exact hgood.holds, by rw [hplans]; exact hgood.proper⟩

/-- A unit that was made from a state on, with nothing else emitted since, is compiled and
run. -/
theorem leads_unitCall (hcall : Steady m I call) (hform : FormOk m I form) {forms : Value} {e : Nat}
    (hs : Stable m.still d w w') (hnew : ¬w.heap.Reachable w.state.rootValues t) (hde : d ≤ e)
    (hI : I w') (ht : w'.Target (m.toward t) e a t []) (he : e ≤ w'.state.roots.size)
    (hfloor : m.floor ≤ w'.state.roots.size) (ha : a.isVariadic = false) (hforms : w'.Good forms) :
    CellLisp.Leads (fun _ u => Stable m.still d w u) (do
      let _ ← compileUnit form forms (.ref .bytecode t)
      call (.ref .bytecode t) #[]) w' fun v u => u.Good v := by
  have houter : ∀ u, Stable (m.toward t) e w' u → Stable m.still d w u :=
    fun u hs' => Stable.toward (m := m.still) hs hs' hde hnew
  refine CellLisp.Leads.bindFrom (leads_compileUnit hcall hform hI ht he hfloor ha hforms)
    houter ?_
  rintro _ u hs' hgood
  have hu := houter u hs'
  exact (hcall.yields (hcall.stays ht.spares hs' hI) (hs'.depth e (Nat.le_refl e) he) hgood
    fun v hv => absurd hv (Array.not_mem_empty v)).weaken
    fun _ h => Follows.trans hu (h.of_le hde)

/-- Forms are evaluated now, and compiled to their value. -/
theorem emits_compileComptime {scope : Scope} {sites : List Site} {tail : Bool} {body : Value}
    (hcall : Steady m I call) (hform : FormOk m I form)
    (h : Emitting m I d r a t scope sites w draft) (hbody : w.Held m d body) :
    Emits m I d r a t scope sites tail (compileComptime call form body) w draft := by
  have hstill : ∀ {u}, Stable m.still d w u → Stable (m.toward t) d w u :=
    fun hs => Stable.of_still (m := m.toward t) hs
  have hfloor : m.floor ≤ d := Nat.le_trans h.ready.floor (Nat.le_of_lt h.ready.place)
  have hvalue : CellLisp.Leads (Stable m.still d) (CellLisp.withRoots do
      let known ← gets (·.known)
      let unit ← makeBytecode known.comptime .nil (.exactly 0)
      let _ ← protect unit
      let sequence ← cons known.doForm body
      let _ ← protect sequence
      let forms ← cons sequence .nil
      let _ ← compileUnit form forms unit
      call unit #[]) w fun v u => u.Good v := by
    refine CellLisp.Leads.withRoots (Q := fun v u => u.Good v) ?_ h.ready.depth
      fun _ _ _ hv => hv.cut _
    refine CellLisp.Leads.bind (CellLisp.Leads.gets (Q := fun k u => w = u ∧ k = w.state.known)
      ⟨rfl, rfl⟩) ?_
    rintro _ _ - ⟨rfl, rfl⟩
    have hname : w.Held m d w.state.known.comptime :=
      System.held_of_known (by simp [WellKnown.symbols])
    refine CellLisp.Leads.bindFrom (leads_makeBytecode hname System.held_nil _) (fun _ hs => hs) ?_
    rintro _ w₁ hs₁ ⟨hcode, hroots, t', rfl, hfresh⟩
    have hd₁ := hs₁.depth d (Nat.le_refl d) h.ready.depth
    refine CellLisp.Leads.bindFrom (R := Stable m.still d) (leads_protect hcode hd₁)
      (fun _ hs => Follows.trans hs₁ hs) ?_
    rintro _ w₂ hs₂ ⟨-, rfl⟩
    have hs₂ := Follows.trans hs₁ hs₂
    have h₂ := h.stable hcall hs₂
    have hbody₂ := (hbody.of_stable hs₂).of_le (Nat.le_succ_of_le hd₁)
    have hunit : Emitting m I (w₁.state.roots.size + 1) r (.exactly 0) t'
        (.new (.ref .bytecode t') [.frame]) [] (w₁.guarding hcode)
        { draft with scope := .new (.ref .bytecode t') [.frame] } :=
      emitting_fresh h₂.ready h₂.root hfresh rfl
    -- nothing but the unit is emitted to from here on
    have hdo : (w₁.guarding hcode).Good w.state.known.doForm := by
      rw [← hs₂.known]
      exact System.good_of_known (by simp [WellKnown.symbols])
    refine CellLisp.Leads.bindFrom (leads_cons hdo hbody₂.good).stable
      (fun _ hs => Follows.trans hs₂ hs) ?_
    rintro sequence w₃ hs₃ ⟨hg₃, hsequence, -⟩
    have hunit₃ := hunit.stable hcall (hg₃.stable (m := m.still))
    refine CellLisp.Leads.bindFrom (R := Stable m.still d) (leads_protect hsequence.holds
      (by rw [hg₃.roots]; exact h₂.ready.depth)) (fun _ hs => Follows.trans (Follows.trans hs₂ hs₃) hs) ?_
    rintro _ w₄ hs₄ ⟨-, rfl⟩
    have hunit₄ := hunit₃.stable hcall
      (System.stable_guarding (m := m.still) hsequence.holds hunit₃.ready.depth)
    have hsequence₄ : (w₃.guarding hsequence.holds).Good sequence := ⟨hsequence.holds, hsequence.proper⟩
    refine CellLisp.Leads.bindFrom (leads_cons hsequence₄ (System.good_nil _)).stable
      (fun _ hs => Follows.trans (Follows.trans (Follows.trans hs₂ hs₃) hs₄) hs) ?_
    rintro forms w₅ hs₅ ⟨hg₅, hforms, -⟩
    have hunit₅ := hunit₄.stable hcall (hg₅.stable (m := m.still))
    exact leads_unitCall hcall hform (Follows.trans (Follows.trans (Follows.trans hs₂ hs₃) hs₄) hs₅)
      hfresh.new (Nat.le_succ_of_le hd₁) hunit₅.ready.calm hunit₅.target hunit₅.ready.depth
      (Nat.le_trans hfloor (Nat.le_trans (Nat.le_succ_of_le hd₁) hunit₅.ready.depth)) rfl hforms
  refine Comp.Leads.bindFrom (.lift hvalue) (fun _ hs => hstill hs) ?_
  rintro v w₁ _ hs₁ ⟨rfl, hv⟩
  exact (emits_const hcall (h.stable hcall hs₁) hv).weaken fun _ hs => Follows.trans (hstill hs₁) hs

end Units

/-! ## Any form -/

/-- Parameters that an arity has no room for: that many fixed ones. -/
def parameterLimit : Nat := 32768

/-- Whether a form defines a procedure with too many fixed parameters. -/
def isWide (s : State) (f : Value) : Bool :=
  match s.heap.pair? f with
  | none => false
  | some (head, args) =>
    s.known.special? head = some .lambda && match s.heap.items? args with
      | none => false
      | some items => parameterLimit ≤ (s.heap.spine (items.getD 1 .nil)).1.size

section Form

variable {m : Mode} {I : System → Prop} {call : Caller} {form : FormCompiler} {walk : Walker}
  {d r : Nat} {a : Arity} {t : Nat} {scope : Scope} {sites : List Site} {tail : Bool} {w : System}
  {draft : Draft}

/-- A special form. -/
theorem emits_compileSpecial (hcall : Steady m I call) (hform : FormOk m I form)
    (hwalk : WalkOk m I walk) {special : SpecialForm} {head args whole : Value}
    (h : Emitting m I d r a t scope sites w draft) (hargs : w.Held m d args)
    (hnarrow : special = .lambda → ∀ items, w.heap.items? args = some items →
      (w.heap.spine (items.getD 1 .nil)).1.size < parameterLimit) :
    Emits m I d r a t scope sites tail
      (compileSpecial call walk form special head args whole tail) w draft := by
  unfold compileSpecial
  refine .bind (Comp.leads_parts hcall.pairs hargs) ?_
  rintro ps _ _ - ⟨rfl, rfl, hps, hitems⟩
  have hmalformed : Emits m I d r a t scope sites tail
      (do reject (.malformed (← heap (·.symbolName head)) (← heap (·.print whole)))) w draft :=
    .bindHeap (.bindHeap (.reject _))
  split
  · exact emits_const hcall h (hps _ (by simp)).good
  · exact emits_compileIf hcall hform h (hps _ (by simp)) (hps _ (by simp)) nofun
  · refine emits_compileIf hcall hform h (hps _ (by simp)) (hps _ (by simp)) ?_
    rintro _ ⟨⟩
    exact hps _ (by simp)
  · exact emits_compileBody hcall hform h hps
  · split
    · exact leads_compileSet hcall hform h (hps _ (by simp)) (hps _ (by simp)) tail
    · exact hmalformed
  · exact emits_compileLet hcall hform h (hps _ (by simp)) fun f hf => hps f (by simp [hf])
  · exact emits_compileDynamicLet hcall hform h (hps _ (by simp)) fun f hf => hps f (by simp [hf])
  · exact emits_compileComptime hcall hform h hargs
  · split
    · refine emits_compileLambda hcall hform hwalk h (hps _ (by simp))
        (fun f hf => hps f (by simp [hf])) ?_
      exact hnarrow rfl _ hitems
    · exact hmalformed
  · split
    · exact emits_compileWithCont hcall hform h fun f hf => hps f (by simp [hf])
    · exact hmalformed
  · split
    · exact emits_compileExit hcall hform h nofun
    · exact hmalformed
  · split
    · refine emits_compileExit hcall hform h ?_
      rintro _ ⟨⟩
      exact hps _ (by simp)
    · exact hmalformed
  · exact emits_compileLoop hcall hform h hps
  · exact hmalformed

/-- Any form that does not define a procedure with too many parameters. -/
theorem emits_compileForm (hcall : Steady m I call) (hform : FormOk m I form)
    (hwalk : WalkOk m I walk) {f : Value} (h : Emitting m I d r a t scope sites w draft)
    (hf : w.Held m d f) (hnarrow : isWide w.state f = false) :
    Emits m I d r a t scope sites tail (compileForm call walk form f tail) w draft := by
  unfold compileForm
  split
  · refine (leads_compileRef hcall h hf).mono ?_
    rintro _ w' draft' - ⟨inlined, h'⟩
    exact ⟨.ref f inlined, trivial, h'⟩
  · refine .bindHeap ?_
    split
    · exact emits_const hcall h hf.good
    · rename_i head args hpair
      obtain ⟨hhead, hargs⟩ := hf.pair hcall.pairs hpair
      refine .bindGets ?_
      split
      · rename_i special hspecial
        refine emits_compileSpecial hcall hform hwalk h hargs ?_
        rintro rfl items hitems
        rw [isWide, show w.state.heap.pair? f = _ from hpair] at hnarrow
        simp only [hspecial, show w.state.heap.items? args = _ from hitems, decide_true,
          Bool.true_and, decide_eq_false_iff_not, Nat.not_le] at hnarrow
        exact hnarrow
      · refine .bind Comp.leads_expander? ?_
        rintro r? _ _ - ⟨rfl, rfl, hexpander⟩
        split
        · rename_i e
          refine Comp.Leads.bindFrom (Comp.leads_expand hcall h.ready hf (hexpander e rfl))
            (fun _ hs => Stable.of_still (m := m.toward t) hs) ?_
          rintro v w₁ draft₁ hs ⟨hv, hready, hscope, hroot⟩
          have h₁ : Emitting m I d r a t scope sites w₁ draft₁ :=
            ⟨hready, h.target.stable hs, h.code, hscope.trans h.scope, hroot.trans h.root⟩
          exact (hform tail h₁ hv).weaken
            fun _ hs' => Follows.trans (Stable.of_still (m := m.toward t) hs) hs'
        · exact emits_compileCall hcall hform h hhead hargs

end Form

end Comp
end CellLisp
