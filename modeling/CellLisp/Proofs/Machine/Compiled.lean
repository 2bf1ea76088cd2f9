import CellLisp.Proofs.Machine.Evaluation
import CellLisp.Proofs.Machine.Safety

/-!
# `CellLisp.Proofs.Machine.Compiled` — runs of compiled code

A list of forms is compiled into a unit of its own, which is called then, and so are the procedures
that such calls give or store somewhere (`State.Calls`).  In every state of all these runs compiled
code is stack safe (`compileNew_stackSafe`).

| | |
| :-- | :-- |
| `Evaluator.compileNew` | forms are compiled into new code |
| `State.Hands` | a program may get hold of a value |
| `State.Calls` | procedures are called one after the other |
-/

namespace CellLisp

/-! ## New code -/

/-- Compiles a list of forms into new code, and protects that.  The forms do not refer to the
arguments that the code takes. -/
def Evaluator.compileNew (e : Evaluator) (name forms : Value) (a : Arity) : Act Value := do
  let unit ← makeBytecode name .nil a
  let _ ← protect unit
  let _ ← Comp.compileUnit (e.form (← gets (·.config.depthLimit))) forms unit
  return unit

/-- The evaluator of the system compiles as the system does. -/
theorem Evaluator.compileNew_plain (name forms : Value) (a : Arity) :
    plain.compileNew name forms a = (do
      let unit ← makeBytecode name .nil a
      let _ ← protect unit
      let _ ← compile invoke forms unit
      return unit) := by
  unfold compileNew compile
  simp only [bind_assoc]
  rfl

section Compiling

variable {fixed : Nat → Bool} {o : System} {name forms : Value} {a : Arity}

/-- A value that is protected if it refers to a cell. -/
def State.Protects (s : State) (v : Value) : Prop :=
  ∀ i, v.cell? = some i → v ∈ s.roots.toList

theorem System.held_of_protects {m : Mode} {w : System} {v : Value} (hv : w.Good v)
    (hroot : w.state.Protects v) : w.Held m w.state.roots.size v := by
  refine ⟨hv, fun i hi => anchored_of_mem ?_⟩
  simp only [State.base, List.mem_append]
  refine .inl (.inl (.inr ?_))
  rw [← Array.length_toList, List.take_length]
  exact hroot i hi

theorem Evaluator.Cautious.compileNew {e' e : Evaluator} (h : Evaluator.Cautious e' e)
    (name forms : Value) (a : Arity) :
    CellLisp.Cautious (e'.compileNew name forms a) (e.compileNew name forms a) := by
  refine .bind (.refl _) fun unit => .bind (.refl _) fun _ => .bind (.refl _) fun n => ?_
  exact .bind (Comp.cautious_compileUnit (h.form n) forms unit) fun _ => .refl _

/-- Forms are compiled into new code. -/
theorem leads_compileNew (h : o.Resting) (hname : o.Good name) (hforms : o.Good forms)
    (hnamed : o.state.Protects name) (hroot : o.state.Protects forms) (ha : a.isVariadic = false) :
    Leads (Stable (.evaluating fixed o.state.roots.size false) o.state.roots.size)
      ((Evaluator.watched fixed).compileNew name forms a) o fun v w => w.Good v := by
  let d := o.state.roots.size
  let m := Mode.evaluating fixed d false
  let mc := { m with pairs := true, floor := d }
  unfold Evaluator.compileNew
  have hheld : o.Held m d name := System.held_of_protects hname hnamed
  refine Leads.bindFrom (leads_makeBytecode hheld System.held_nil _) (fun _ hs => hs) ?_
  rintro _ w₁ hs₁ ⟨hcode, hroots, t, rfl, hfresh⟩
  have hd₁ : d ≤ w₁.state.roots.size := by rw [hroots]
  have hforms₁ : w₁.Good forms :=
    ((System.held_of_protects hforms hroot).of_stable (m := m) hs₁).good
  refine Leads.bindFrom (leads_protect hcode hd₁) (fun _ hs => Follows.trans hs₁ hs) ?_
  rintro _ w₂ hs₂ ⟨-, rfl⟩
  have hs₂ : Stable m d o (w₁.guarding hcode) := Follows.trans hs₁ hs₂
  have htarget := hfresh.target (m := mc) hcode
  have hresting := h.stable (m := m) rfl o.spares_none hs₂
  refine (Looks.gets (Q := fun _ => True) trivial).andThen hs₂ ?_
  rintro depth -
  have hsteady : Steady mc System.Resting (Watch.caller ⟨true, fixed⟩) :=
    Watch.steady rfl rfl rfl rfl fun _ hj => hj
  have hsize : (w₁.guarding hcode).state.roots.size = w₁.state.roots.size + 1 := Array.size_push _
  have hfloor : (m.toward t).floor ≤ d := Nat.le_refl d
  -- what is emitted to the unit touches nothing that has been there before
  have houter {u : System} (hs : Stable (mc.toward t) (w₁.state.roots.size + 1)
      (w₁.guarding hcode) u) : Stable m d o u :=
    Stable.toward hs₂ ((hs.of_le (Nat.le_succ_of_le hd₁)).unpaired (m := m.toward t) rfl hfloor)
      (Nat.le_refl d) hfresh.new
  refine Leads.bindFrom (Comp.leads_compileUnit hsteady (Comp.formOk_compileNarrow hsteady depth)
    hresting htarget (Nat.le_of_eq hsize.symm) (Nat.le_trans hd₁ (by omega)) ha
    ⟨hforms₁.holds, hforms₁.proper⟩) (fun _ hs => houter hs) ?_
  rintro _ w₃ hs₃ hunit
  exact (Leads.pure hunit).weaken fun _ hs => Follows.trans (houter hs₃) hs

end Compiling

/-! ## Calls -/

/-- A program that is given some values may get hold of another one: it is a number, the symbol of a
name, or found in a pair, a symbol or an array. -/
inductive State.Hands (s : State) (given : List Value) : Value → Prop
  | given {v : Value} : v ∈ given → s.Hands given v
  | immediate {v : Value} : v.cell? = none → s.Hands given v
  | symbol {name : String} {v : Value} : s.findSymbol? name = some v → s.Hands given v
  | inside {u v : Value} {i : Nat} : s.Hands given u → u.cell? = some i →
      (s.heap.cell i).isPlain = true → v ∈ s.heap.references (s.heap.cell i) → s.Hands given v

/-- A run of a procedure calls only what programs may call: compiled code alone joins code to copies. -/
def State.Admits (s : State) (procedure : Value) (args : Array Value) : Prop :=
  (Watch.mk false fun _ => false).admits procedure args s = true

/-- Procedures are called one after the other.  After a call the value that it has given is at hand,
besides those that were and are protected. -/
inductive State.Calls (start : State) (given : List Value) : State → List Value → Prop
  | none : start.Calls given start given
  | returns {s s' : State} {vs : List Value} {procedure v : Value} {args : Array Value} :
      start.Calls given s vs → s.Hands vs procedure → (∀ a ∈ args, s.Hands vs a) →
      s.Admits procedure args → invoke procedure args s = .ok v s' →
      start.Calls given s' (v :: vs.filter (· ∈ s.roots.toList))
  | fails {s s' : State} {vs : List Value} {procedure : Value} {args : Array Value} {cause : Error} :
      start.Calls given s vs → s.Hands vs procedure → (∀ a ∈ args, s.Hands vs a) →
      s.Admits procedure args → invoke procedure args s = .error (.error cause) s' →
      start.Calls given s' (vs.filter (· ∈ s.roots.toList))

section Calls

variable {o w : System} {given vs : List Value} {s : State} {v : Value}

/-- What a program may get hold of is good. -/
theorem State.Hands.good (h : w.state.Hands given v) (hgiven : ∀ u ∈ given, w.Good u) :
    w.Good v := by
  induction h with
  | given hv => exact hgiven _ hv
  | immediate hv => exact ⟨Heap.holds_of_cell?_eq_none hv, proper_of_cell?_eq_none hv⟩
  | symbol hv => exact (System.held_of_findSymbol? (m := .evaluating (fun _ => false) 0 false) (d := 0) hv).good
  | @inside u v i _ hi hplain hv hu =>
      refine w.good_of_reference hplain (fun head tail hcell => ?_) hv
      obtain ⟨tag, rfl, hne⟩ := Value.cell?_eq_some_iff.1 hi
      obtain rfl : tag = .pair := by
        rw [← (hu.holds tag i rfl hne).2, hcell]
        rfl
      exact hu.proper.shown i rfl hne

/-- A call of what is at hand leaves what is protected as it is. -/
theorem System.Resting.called {procedure : Value} {args : Array Value} (h : w.Resting)
    (hvs : ∀ u ∈ vs, w.Good u) (hprocedure : w.state.Hands vs procedure)
    (hargs : ∀ a ∈ args, w.state.Hands vs a) (hadmits : w.state.Admits procedure args) :
    Leads (Stable (.evaluating (fun _ => false) 0 false) w.state.roots.size)
      (invoke procedure args) w fun v w' => w'.Good v := by
  refine Leads.congr (Watch.yields (k := ⟨false, fun _ => false⟩) rfl rfl rfl (fun _ hj => hj) h
    (Nat.le_refl _) (hprocedure.good hvs) fun a ha => (hargs a ha).good hvs) ?_
  exact (if_pos (show (Watch.mk false fun _ => false).admits procedure args w.state = true from hadmits)).symm

/-- What is protected is good after a call if it was before. -/
theorem System.Good.called {w' : System} {v : Value} (hv : w.Good v)
    (hs : Stable (.evaluating (fun _ => false) 0 false) w.state.roots.size w w')
    (hroot : v ∈ w.state.roots.toList) : w'.Good v :=
  ((System.held_of_protects hv fun _ _ => hroot).of_stable (m := .evaluating _ 0 false) hs).good

/-- After any calls the system is at rest, and what is at hand is good. -/
theorem State.Calls.exists_system (h : o.state.Calls given s vs) (ho : o.Resting)
    (hgiven : ∀ v ∈ given, o.Good v) :
    ∃ w : System, w.state = s ∧ w.Resting ∧ (∀ v ∈ vs, w.Good v) ∧
      s.machine.limit = o.state.machine.limit := by
  induction h with
  | none => exact ⟨o, rfl, ho, hgiven, rfl⟩
  | returns _ hprocedure hargs hadmits hinvoke ih =>
      obtain ⟨w, rfl, hw, hvs, hlimit⟩ := ih
      obtain ⟨w', rfl, hs, hv⟩ := (hw.called hvs hprocedure hargs hadmits).of_ok hinvoke
      refine ⟨w', rfl, hw.stable (m := .evaluating _ 0 false) rfl w.spares_none hs, fun u hu => ?_, hs.bound.trans hlimit⟩
      rcases List.mem_cons.1 hu with rfl | hu
      · exact hv
      · obtain ⟨hu, hroot⟩ := List.mem_filter.1 hu
        exact (hvs u hu).called hs (of_decide_eq_true hroot)
  | fails _ hprocedure hargs hadmits hinvoke ih =>
      obtain ⟨w, rfl, hw, hvs, hlimit⟩ := ih
      obtain ⟨w', rfl, hs⟩ :=
        (hw.called hvs hprocedure hargs hadmits).of_ends (.inr ⟨_, hinvoke⟩)
      refine ⟨w', rfl, hw.stable (m := .evaluating _ 0 false) rfl w.spares_none hs, fun u hu => ?_, hs.bound.trans hlimit⟩
      obtain ⟨hu, hroot⟩ := List.mem_filter.1 hu
      exact (hvs u hu).called hs (of_decide_eq_true hroot)

end Calls

/-! ## Stack safety -/

/-- A list of forms is compiled into a unit, by an evaluator that looks out for what is left aside: a
procedure with more parameters than an arity has room for, and programs at compile time that change
lists or join code to copies.  However often the unit is called then, and procedures that such calls
have given or stored, compiled code is stack safe in every state of every run. -/
theorem compileNew_stackSafe {o : System} {name forms unit : Value} {a : Arity} {s₀ : State}
    (h : o.Resting) (hname : o.Good name) (hforms : o.Good forms) (hnamed : o.state.Protects name)
    (hroot : o.state.Protects forms) (ha : a.isVariadic = false)
    (hwatched : (Evaluator.watched fun _ => false).compileNew name forms a o.state
      = Evaluator.plain.compileNew name forms a o.state)
    (hcompile : Evaluator.plain.compileNew name forms a o.state = .ok unit s₀) :
    ∀ {s vs}, s₀.Calls [unit] s vs → ∀ {procedure args}, s.Hands vs procedure →
      (∀ v ∈ args, s.Hands vs v) → s.heap.isTame false procedure = true →
      ∀ {t ts}, Run procedure args s (t :: ts) → (∀ u ∈ ts, u.permits false = true) →
        t.StackSafe ts ∧ t.machine.limit = o.state.machine.limit := by
  obtain ⟨w₀, rfl, hs₀, hunit⟩ :=
    (leads_compileNew h hname hforms hnamed hroot ha).of_ok (hwatched.trans hcompile)
  have hresting : w₀.Resting := h.stable (m := .evaluating _ _ false) rfl o.spares_none hs₀
  intro s vs hcalls procedure args hprocedure hargs htame t ts hrun hpermits
  obtain ⟨w, rfl, hw, hvs, hlimit⟩ := hcalls.exists_system hresting fun v hv => by
    obtain rfl := List.mem_singleton.1 hv
    exact hunit
  have hlaunch : Launch false w procedure args := ⟨hw.idle, hw.halts, hw.addressable,
    hprocedure.good hvs, htame, fun v hv => (hargs v hv).good hvs⟩
  obtain ⟨hsafe, hbound⟩ := hrun.stackSafe hlaunch hpermits
  exact ⟨hsafe, hbound.trans (hlimit.trans hs₀.bound)⟩

/-- Reads the forms of a text and protects the list of them. -/
def readProtected (text : String) : Act Value := do
  let forms ← readAll text
  let _ ← protect forms
  return forms

/-- The forms of a text can be compiled. -/
theorem leads_readProtected {o : System} (text : String) (h : o.Resting) :
    Leads (fun _ _ => True) (readProtected text) o fun forms w =>
      w.Resting ∧ w.Good forms ∧ w.state.Protects forms := by
  let m := Mode.evaluating (fun _ => false) o.state.roots.size false
  refine Leads.bindFrom (yields_readAll (m := m) text (Nat.le_refl _)) (fun _ _ => trivial) ?_
  rintro forms w hs hforms
  refine Leads.bindFrom (leads_protect (m := m) hforms.holds (hs.depth _ (Nat.le_refl _) (Nat.le_refl _)))
    (fun _ _ => trivial) ?_
  rintro _ w' hs' ⟨-, rfl⟩
  have hresting := h.stable (m := m) rfl o.spares_none (Follows.trans hs hs')
  refine (Leads.pure (R := Stable m 0) ⟨hresting, ?_, fun i hi => ?_⟩).weaken fun _ _ => trivial
  · exact ⟨hforms.holds, hforms.proper⟩
  · simp [System.guarding, System.rooted]

/-- With the code that every run returns into, the system is at rest. -/
theorem System.exists_resting_roomy :
    ∃ o : System, o.Resting ∧ loadHalt System.roomy.state = .ok () o.state := by
  have hcode : (match loadHalt System.roomy.state with
      | .error _ _ => false
      | .ok _ s => s.machine.code == .nil) = true := by
    decide +kernel
  have hleads := leads_loadHalt (w := System.roomy) ⟨rfl, rfl, rfl, rfl, by decide, by decide⟩
    ⟨by decide, by decide, by decide, by decide⟩
  generalize hload : loadHalt System.roomy.state = loaded at hcode
  cases loaded with
  | error => cases hcode
  | ok _ s =>
      obtain ⟨o, rfl, -, hprepared⟩ := hleads.of_ok hload
      exact ⟨o, ⟨hprepared, eq_of_beq hcode⟩, rfl⟩

/-- A number is about to be called with one argument. -/
theorem compileNew_stackSafe_calling :
    ∃ (o : System) (forms unit : Value) (s₀ t : State) (ts : List State),
      Evaluator.plain.compileNew .nil forms (.exactly 0) o.state = .ok unit s₀ ∧
        Run unit #[] s₀ (t :: ts) ∧ t.StackSafe ts ∧
        t.heap.instr? t.machine.code t.machine.pc = some ⟨.call, 1, .nil⟩ := by
  obtain ⟨o, hresting, hload⟩ := System.exists_resting_roomy
  let compiles (forms : Value) := (Evaluator.watched fun _ => false).compileNew .nil forms (.exactly 0)
  let calls (s₀ : State) (unit : Value) : Bool :=
    (history unit #[] s₀ 3).tail.all (·.permits false) && s₀.heap.isTame false unit &&
      (history unit #[] s₀ 3).head?.any fun t =>
        t.heap.instr? t.machine.code t.machine.pc == some ⟨.call, 1, .nil⟩
  have hfacts : (match (loadHalt >>= fun _ => readProtected "(7 8)") System.roomy.state with
      | .error _ _ => false
      | .ok forms s => match compiles forms s with
        | .error _ _ => false
        | .ok unit s₀ => calls s₀ unit) = true := by
    decide +kernel
  rw [show (loadHalt >>= fun _ => readProtected "(7 8)") System.roomy.state
    = readProtected "(7 8)" o.state by simp only [bind, EStateM.bind, hload]] at hfacts
  split at hfacts
  · cases hfacts
  rename_i forms s hread
  obtain ⟨w, rfl, -, hresting, hforms, hroot⟩ := (leads_readProtected _ hresting).of_ok hread
  split at hfacts
  · cases hfacts
  rename_i unit s₀ hcompile
  have hsame := ((Evaluator.cautious_watched fun _ => false).compileNew .nil forms
    (.exactly 0)).eq_of_ends (.inl ⟨unit, hcompile⟩)
  have hplain := hsame.symm.trans hcompile
  have hrun : history unit #[] s₀ 3 ≠ [] → _ := run_history
  dsimp only [calls] at hfacts
  cases hhistory : history unit #[] s₀ 3 with
  | nil =>
      rw [hhistory] at hfacts
      simp at hfacts
  | cons t ts =>
  rw [hhistory] at hfacts hrun
  simp only [List.tail_cons, List.head?_cons, Option.any_some, Bool.and_eq_true, List.all_eq_true,
    beq_iff_eq] at hfacts
  obtain ⟨⟨hpermits, htame⟩, hins⟩ := hfacts
  have hrun := hrun (List.cons_ne_nil _ _)
  obtain ⟨hsafe, -⟩ := compileNew_stackSafe hresting w.good_nil hforms (by rintro _ ⟨⟩) hroot
    rfl hsame hplain .none (.given List.mem_cons_self) (by simp) htame hrun hpermits
  exact ⟨w, forms, unit, s₀, t, ts, hplain, hrun, hsafe, hins⟩

end CellLisp
