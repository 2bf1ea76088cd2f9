import CellLisp.Proofs.Compile.Cautious
import CellLisp.Proofs.Compile.Unit
import CellLisp.Proofs.Compile.Walk
import CellLisp.Proofs.Machine.Watch
import CellLisp.Proofs.State.Spine

/-!
# `CellLisp.Proofs.Machine.Evaluation` — evaluating a text

Evaluating a text leaves the machine as it has been found, however it ends (`evalText_restores`).
Of the programs that are run, also while compiling, that asks what a `Watch` looks out for; so
evaluation is watched first, and then said to be the same as without.

| | |
| :-- | :-- |
| `compileNarrow` | the compiler, up to procedures with more parameters than an arity has room for |
| `Evaluator.watched` | evaluation that stops for good at what nothing is known of |
| `State.Undisturbed` | what evaluation leaves |
-/

namespace CellLisp

/-! ## Compiling -/

/-- Compiles forms nested to a depth of `n`, but stops for good at a procedure with too many
parameters. -/
def Comp.compileNarrow (call : Caller) : Nat → FormCompiler
  | 0 => fun _ _ => CellLisp.halt .depthLimit
  | n + 1 => fun f tail => do
    if ← gets (isWide · f) then CellLisp.halt .arityRange
    compileForm call (Captures.walkTo call n) (compileNarrow call n) f tail

/-- It emits the code of a `Core`. -/
theorem Comp.formOk_compileNarrow {m : Mode} {I : System → Prop} {call : Caller}
    (hcall : Steady m I call) (n : Nat) : FormOk m I (compileNarrow call n) := by
  induction n with
  | zero =>
      intro tail d r a t scope sites w draft f h hf
      exact .halt _
  | succ n ih =>
      intro tail d r a t scope sites w draft f h hf
      unfold compileNarrow
      refine .bindGets ?_
      cases hwide : isWide w.state f with
      | true => exact Comp.Leads.bind (Q := fun _ _ _ => False) (.halt _) fun _ _ _ _ h => h.elim
      | false => exact emits_compileForm hcall ih (walkOk_walkTo hcall n) h hf hwide

/-- It does what the compiler does, unless it stops for good. -/
theorem Comp.cautious_compileNarrow {call' call : Caller} (hcall : CallCautious call' call)
    (n : Nat) : FormCautious (compileNarrow call' n) (compileTo call n) := by
  induction n with
  | zero => exact fun _ _ => .refl _
  | succ n ih =>
      exact fun f tail => .checked (cautious_compileForm hcall (cautious_walkTo hcall n) ih f tail) _ _

/-! ## Evaluators -/

/-- Ways to compile forms nested to a depth, and to call what has been compiled. -/
structure Evaluator where
  form : Nat → FormCompiler
  call : Caller

namespace Evaluator

/-- Evaluates a form in a unit of its own. -/
def evalForm (e : Evaluator) (form : Value) : Act Value := withRoots do
  let one ← cons form .nil
  let _ ← protect one
  let unit ← makeBytecode (← gets (·.known.toplevel)) .nil (.exactly 0)
  let _ ← protect unit
  let _ ← Comp.compileUnit (e.form (← gets (·.config.depthLimit))) one unit
  e.call unit #[]

/-- Evaluates the forms along the tails of a value in turn. -/
def evalForms (e : Evaluator) : Nat → (last list : Value) → Act Value
  | 0, _, _ => halt .depthLimit
  | n + 1, last, list => do
    match ← gets fun s => s.heap.pair? list with
    | none => return last
    | some (form, rest) => e.evalForms n (← e.evalForm form) rest

/-- Evaluates every form of a text in turn; yields the last value. -/
def evalText (e : Evaluator) (text : String) : Act Value := withRoots do
  let forms ← readAll text
  let _ ← protect forms
  e.evalForms (← gets (·.config.depthLimit)) .nil forms

/-- The evaluator of the system. -/
def plain : Evaluator := ⟨Comp.compileTo invoke, invoke⟩

/-- The same, but for stopping for good at what nothing is known of: a procedure with too many
parameters, or an instruction that is not allowed.  Lists are to stay as they are while a form is
compiled. -/
def watched (fixed : Nat → Bool) : Evaluator :=
  ⟨Comp.compileNarrow (Watch.caller ⟨true, fixed⟩), Watch.caller ⟨false, fixed⟩⟩

theorem evalForms_plain (n : Nat) (last list : Value) :
    plain.evalForms n last list = CellLisp.evalForms invoke n last list := by
  induction n generalizing last list with
  | zero => rfl
  | succ n ih =>
      simp only [evalForms, CellLisp.evalForms, ih]
      rfl

theorem evalText_plain (text : String) : plain.evalText text = CellLisp.evalText text := by
  simp only [evalText, CellLisp.evalText, evalTextWith, evalForms_plain]

/-- An evaluator does what another one does, unless it stops for good. -/
structure Cautious (e' e : Evaluator) : Prop where
  form : ∀ n, Comp.FormCautious (e'.form n) (e.form n)
  call : Comp.CallCautious e'.call e.call

section Cautious

variable {e' e : Evaluator}

theorem Cautious.evalForm (h : Cautious e' e) (form : Value) :
    CellLisp.Cautious (e'.evalForm form) (e.evalForm form) := by
  refine .withRoots (.bind (.refl _) fun one => .bind (.refl _) fun _ => .bind (.refl _) fun name => ?_)
  refine .bind (.refl _) fun unit => .bind (.refl _) fun _ => .bind (.refl _) fun n => ?_
  exact .bind (Comp.cautious_compileUnit (h.form n) one unit) fun _ => h.call unit #[]

theorem Cautious.evalForms (h : Cautious e' e) (n : Nat) (last list : Value) :
    CellLisp.Cautious (e'.evalForms n last list) (e.evalForms n last list) := by
  induction n generalizing last list with
  | zero => exact .refl _
  | succ n ih =>
      refine .bind (.refl _) fun p => ?_
      cases p with
      | none => exact .refl _
      | some p => exact .bind (h.evalForm p.1) fun v => ih v p.2

theorem Cautious.evalText (h : Cautious e' e) (text : String) :
    CellLisp.Cautious (e'.evalText text) (e.evalText text) :=
  .withRoots (.bind (.refl _) fun _ => .bind (.refl _) fun _ => .bind (.refl _) fun n =>
    h.evalForms n .nil _)

/-- What is watched is what the system does, unless it stops for good. -/
theorem cautious_watched (fixed : Nat → Bool) : Cautious (watched fixed) plain := by
  have hcall (k : Watch) : Comp.CallCautious k.caller invoke := by
    intro procedure args s
    unfold Watch.caller
    split
    · exact .inl rfl
    · exact .inr ⟨.corrupt, s, rfl⟩
  exact ⟨Comp.cautious_compileNarrow (hcall _), hcall _⟩

end Cautious

end Evaluator

/-! ## Watched evaluation -/

/-- What is kept while a text is evaluated: with `pairs`, while a form of it is compiled. -/
def Mode.evaluating (fixed : Nat → Bool) (floor : Nat) (pairs : Bool) : Mode :=
  { machine := false, pairs, rests := true, floor, fixed := fun j => fixed j = true }

section Watched

variable {fixed : Nat → Bool} {m : Mode} {d floor : Nat} {w w' : System} {u form last list : Value}

/-- Where lists stay as they are, what lasts without looking into lists stays all the more. -/
theorem SameCell.unpaired {i : Nat} (h : SameCell { m with pairs := true } w w' i) :
    SameCell m w w' i := by
  unfold SameCell at *
  cases hc : w.heap.cell i with
  | pair a b =>
      simp only [hc] at h ⊢
      obtain ⟨a', b', hcell, hplan, hkept⟩ := h
      exact ⟨a', b', hcell, hplan, fun _ => hkept (.inl trivial)⟩
  | free | symbol | bytecode | cont | array | closure | native | string | stringStream
  | fileStream =>
      simp only [hc] at h ⊢
      exact h

theorem Anchored.paired {s : State} {v : Value} (h : Anchored m d s v) (hm : m.pairs = false) :
    Anchored { m with pairs := true, floor } d s v := by
  obtain ⟨v', hv', hl⟩ := h
  rw [hm] at hl
  exact ⟨v', hv', hl.mono⟩

theorem Stable.unpaired (hs : Stable { m with pairs := true, floor := d } d w w')
    (hm : m.pairs = false) (hfloor : m.floor ≤ d) : Stable m d w w' where
  known := hs.known
  config := hs.config
  bound := hs.bound
  size := hs.size
  limit := hs.limit
  machine := hs.machine
  rests := hs.rests
  depth := hs.depth
  anchored := fun pairs machine hmachine e he hkeeps =>
    hs.anchored pairs machine hmachine e he (.inr ⟨hkeeps.elim (·.trans hm) (·.1), he⟩)
  same := fun v i hv hi => (hs.same v i (hv.paired hm) hi).unpaired (m := { m with floor := d })
  along := fun v hv => hs.along v (hv.paired hm)
  sound := hs.sound
  below := fun k hk hf => hs.below k hk (Nat.lt_of_lt_of_le hf hfloor)

/-- A list of forms that is protected is compiled into a unit of its own, and run. -/
theorem leads_evalUnit (h : w.Resting) (hd : d ≤ w.state.roots.size) (hfloor : floor ≤ d)
    {forms : Value} (hforms : w.Good forms) (hroot : forms ∈ w.state.roots.toList) :
    Leads (Stable (.evaluating fixed floor false) d) (do
      let unit ← makeBytecode (← gets (·.known.toplevel)) .nil (.exactly 0)
      let _ ← protect unit
      let _ ← Comp.compileUnit ((Evaluator.watched fixed).form (← gets (·.config.depthLimit))) forms unit
      (Evaluator.watched fixed).call unit #[]) w fun v w' => w'.Good v := by
  let m := Mode.evaluating fixed floor false
  let mc := { m with pairs := true, floor := d }
  refine (Looks.gets (Q := fun name => name = w.state.known.toplevel) rfl).andThen (Follows.refl w) ?_
  rintro _ rfl
  have hname : w.Held m w.state.roots.size w.state.known.toplevel :=
    System.held_of_known (by simp [WellKnown.symbols])
  refine Leads.bindFrom (leads_makeBytecode hname System.held_nil _) (fun _ hs => hs.of_le hd) ?_
  rintro _ w₁ hs₁ ⟨hcode, hroots, t, rfl, hfresh⟩
  have hd₁ : d ≤ w₁.state.roots.size := by rw [hroots]; exact hd
  have hforms₁ : w₁.Good forms := by
    refine hs₁.good (anchored_of_mem ?_) hforms
    simp only [State.base, List.mem_append]
    refine .inl (.inl (.inr ?_))
    rwa [← Array.length_toList, List.take_length]
  have hs₁ : Stable m d w w₁ := hs₁.of_le hd
  refine Leads.bindFrom (leads_protect hcode hd₁) (fun _ hs => Follows.trans hs₁ hs) ?_
  rintro _ w₂ hs₂ ⟨-, rfl⟩
  have hs₂ : Stable m d w (w₁.guarding hcode) := Follows.trans hs₁ hs₂
  have htarget := hfresh.target (m := mc) hcode
  have hresting₂ : (w₁.guarding hcode).Resting :=
    h.stable (m := m) rfl w.spares_none hs₂
  refine (Looks.gets (Q := fun _ => True) trivial).andThen hs₂ ?_
  rintro n -
  have hsteady : Steady mc System.Resting (Watch.caller ⟨true, fixed⟩) :=
    Watch.steady rfl rfl rfl rfl fun _ hj => hj
  have hsize : (w₁.guarding hcode).state.roots.size = w₁.state.roots.size + 1 := Array.size_push _
  -- what is emitted to the unit touches nothing that has been there before
  have houter {u : System} (hs : Stable (mc.toward t) (w₁.state.roots.size + 1)
      (w₁.guarding hcode) u) : Stable m d w u :=
    Stable.toward hs₂ ((hs.of_le (Nat.le_succ_of_le hd₁)).unpaired (m := m.toward t) rfl hfloor)
      (Nat.le_refl d) hfresh.new
  refine Leads.bindFrom (Comp.leads_compileUnit hsteady (Comp.formOk_compileNarrow hsteady n)
    hresting₂ htarget (Nat.le_of_eq hsize.symm) (Nat.le_trans hd₁ (by omega)) rfl
    ⟨hforms₁.holds, hforms₁.proper⟩) (fun _ hs => houter hs) ?_
  rintro _ w₃ hs₃ hunit
  have hs₃ := houter hs₃
  exact (Watch.yields (k := ⟨false, fixed⟩) (m := m) rfl rfl rfl (fun _ hj => hj)
    (h.stable (m := m) rfl w.spares_none hs₃) (hs₃.depth d (Nat.le_refl d) hd) hunit
    fun v hv => absurd hv (Array.not_mem_empty v)).weaken fun _ hs => Follows.trans hs₃ hs

/-- A form is evaluated. -/
theorem leads_evalForm (h : w.Resting) (hd : d ≤ w.state.roots.size) (hfloor : floor ≤ d)
    (hform : w.Good form) :
    Leads (Stable (.evaluating fixed floor false) d) ((Evaluator.watched fixed).evalForm form) w
      fun v w' => w'.Good v := by
  unfold Evaluator.evalForm
  refine Leads.withRoots (Q := fun v w' => w'.Good v) ?_ hd fun _ _ _ hv => hv.cut _
  refine Leads.bindFrom (leads_cons hform w.good_nil) (fun _ hg => hg.stable) ?_
  rintro one w₁ hg₁ ⟨hone, -⟩
  have hs₁ : Stable (.evaluating fixed floor false) d w w₁ := hg₁.stable
  have hd₁ := hs₁.depth d (Nat.le_refl d) hd
  refine Leads.bindFrom (leads_protect hone.holds hd₁) (fun _ hs => Follows.trans hs₁ hs) ?_
  rintro _ w₂ hs₂ ⟨-, rfl⟩
  have hs₂ := Follows.trans hs₁ hs₂
  have hresting := h.stable (m := .evaluating fixed floor false) rfl w.spares_none hs₂
  refine (leads_evalUnit hresting (hs₂.depth d (Nat.le_refl d) hd) hfloor
    ⟨hone.holds, hone.proper⟩ ?_).weaken fun _ hs => Follows.trans hs₂ hs
  simp [System.guarding, System.rooted]

/-- The forms of a list that no program gets hold of are evaluated. -/
theorem leads_evalForms {n : Nat} (h : w.Resting) (hd : d ≤ w.state.roots.size) (hfloor : floor ≤ d)
    (hu : Anchored (.evaluating fixed floor false) d w.state u) (hlist : Spine w list)
    (halong : Along w u list) (hlast : w.Good last) :
    Leads (Stable (.evaluating fixed floor false) d)
      ((Evaluator.watched fixed).evalForms n last list) w fun v w' => w'.Good v := by
  induction n generalizing w last list with
  | zero => exact Leads.halt _
  | succ n ih =>
      refine (Looks.gets (Q := fun p => p = w.heap.pair? list) rfl).andThen (Follows.refl w) ?_
      rintro _ rfl
      cases hp : w.heap.pair? list with
      | none => exact Leads.pure hlast
      | some p =>
          obtain ⟨hform, htail, hnext⟩ := hlist.uncons hp
          refine Leads.bindFrom (leads_evalForm h hd hfloor hform) (fun _ hs => hs) ?_
          rintro v w₁ hs₁ hv
          obtain ⟨htail₁, halong₁⟩ := htail.stable (hnext u halong) hu hs₁
          exact (ih (h.stable (m := .evaluating fixed floor false) rfl w.spares_none hs₁)
            (hs₁.depth d (Nat.le_refl d) hd) (hs₁.anchors hu) htail₁ halong₁ hv).weaken
            fun _ hs => Follows.trans hs₁ hs

/-- A text is evaluated. -/
theorem leads_evalText (text : String) (h : w.Resting) :
    Leads (Stable (.evaluating fixed w.state.roots.size false) w.state.roots.size)
      ((Evaluator.watched fixed).evalText text) w fun v w' => w'.Good v := by
  let m := Mode.evaluating fixed w.state.roots.size false
  unfold Evaluator.evalText
  refine Leads.withRoots (Q := fun v w' => w'.Good v) ?_ (Nat.le_refl _) fun _ _ _ hv => hv.cut _
  refine Leads.bindFrom (leads_readAll (m := m) text (Nat.le_refl _)) (fun _ hs => hs) ?_
  rintro forms w₁ hs₁ hforms
  have hd₁ := hs₁.depth _ (Nat.le_refl _) (Nat.le_refl _)
  refine Leads.bindFrom (leads_protect hforms.holds hd₁) (fun _ hs => Follows.trans hs₁ hs) ?_
  rintro _ w₂ hs₂ ⟨-, rfl⟩
  have hs₂ : Stable m w.state.roots.size w (w₁.guarding hforms.holds) := Follows.trans hs₁ hs₂
  refine (Looks.gets (Q := fun _ => True) trivial).andThen hs₂ ?_
  rintro n -
  have hsize : (w₁.guarding hforms.holds).state.roots.size = w₁.state.roots.size + 1 :=
    Array.size_push _
  have hanchored : Anchored m (w₁.state.roots.size + 1) (w₁.guarding hforms.holds).state forms := by
    refine anchored_of_mem ?_
    simp only [State.base, List.mem_append]
    refine .inl (.inl (.inr ?_))
    rw [List.take_of_length_le (by simp [System.guarding, System.rooted])]
    simp [System.guarding, System.rooted]
  exact (leads_evalForms (h.stable (m := m) rfl w.spares_none hs₂) (Nat.le_of_eq hsize.symm)
    (Nat.le_succ_of_le hd₁) hanchored (hforms.rooted _) .refl (System.good_nil _)).weaken
    fun _ hs => Follows.trans hs₂ (hs.of_le (Nat.le_succ_of_le hd₁))

end Watched

/-! ## What is left -/

/-- An action ends in a state, with a value or with an error. -/
def EndsIn {α : Type} (act : Act α) (s s' : State) : Prop :=
  (∃ a, act s = .ok a s') ∨ ∃ cause, act s = .error (.error cause) s'

/-- A symbol that can be told from outside: it has been interned, or it is protected. -/
def State.Tells (s : State) (i : Nat) : Prop :=
  i ≠ 0 ∧ ((∃ name, s.findSymbol? name = some (.ref .symbol i)) ∨ .ref .symbol i ∈ s.roots.toList)

/-- What evaluation leaves as it has been found. -/
structure State.Undisturbed (s s' : State) (fixed : Nat → Bool) : Prop where
  /-- The protected values are as before. -/
  roots : s'.roots = s.roots
  /-- So is the machine, but for the value register and the argument count. -/
  machine : s.machine.Rests s'.machine
  /-- No continuation can be escaped to. -/
  conts : ∀ i k, s'.heap.cell i = .cont k → k.exited = true
  /-- Symbols that have been set under dynamic bindings only have the value they had. -/
  values : ∀ i, fixed i = true → s.Tells i → s'.heap.valueAt i = s.heap.valueAt i

section Undisturbed

variable {α : Type} {fixed : Nat → Bool} {m : Mode} {d : Nat} {o w : System} {s s' : State}

theorem Leads.of_ends {R : System → System → Prop} {act : Act α} {Q : α → System → Prop}
    (h : Leads R act w Q) (he : EndsIn act w.state s') : ∃ w' : System, w'.state = s' ∧ R w w' := by
  unfold Leads at h
  rcases he with ⟨a, he⟩ | ⟨cause, he⟩
  · rw [he] at h
    obtain ⟨w', hs, hr, -⟩ := h
    exact ⟨w', hs, hr⟩
  · rw [he] at h
    exact h

/-- What an action left protected is gone. -/
theorem EndsIn.size_roots {act : Act α} (h : EndsIn (withRoots act) s s') :
    s'.roots.size ≤ s.roots.size := by
  unfold EndsIn withRoots at h
  cases hact : act s with
  | ok a t =>
      simp only [hact] at h
      rcases h with ⟨_, h⟩ | ⟨_, h⟩
      · obtain ⟨-, rfl⟩ := EStateM.Result.ok.inj h
        exact Nat.le_trans (Nat.le_of_eq (Array.size_shrink ..)) (Nat.min_le_left ..)
      · cases h
  | error c t =>
      simp only [hact] at h
      rcases h with ⟨_, h⟩ | ⟨_, h⟩
      · cases h
      · obtain ⟨-, rfl⟩ := EStateM.Result.error.inj h
        exact Nat.le_trans (Nat.le_of_eq (Array.size_shrink ..)) (Nat.min_le_left ..)

/-- A symbol that can be told from outside lasts. -/
theorem State.Tells.anchored {i : Nat} (h : o.state.Tells i) :
    Anchored m o.state.roots.size o.state (.ref .symbol i) := by
  obtain ⟨hpos, ⟨name, hname⟩ | hroot⟩ := h
  · exact (System.held_of_findSymbol? hname).anchored i (Value.cell?_eq_some_iff.2 ⟨_, rfl, hpos⟩)
  · refine anchored_of_mem ?_
    simp only [State.base, List.mem_append]
    refine .inl (.inl (.inr ?_))
    rwa [← Array.length_toList, List.take_length]

/-- Evaluating a text leaves the machine as it has been found, however it ends: with a value, or
with an error in reading, in compiling, or in a run. -/
theorem evalText_restores (h : o.Resting) (text : String)
    (hwatched : (Evaluator.watched fixed).evalText text o.state = evalText text o.state)
    (hends : EndsIn (evalText text) o.state s') :
    o.state.Undisturbed s' fixed ∧ ∃ w : System, w.state = s' ∧ w.Resting := by
  have hends' : EndsIn ((Evaluator.watched fixed).evalText text) o.state s' := by
    unfold EndsIn
    rw [hwatched]
    exact hends
  obtain ⟨w, rfl, hs⟩ := (leads_evalText text h).of_ends hends'
  have hsize : w.state.roots.size = o.state.roots.size :=
    Nat.le_antisymm hends'.size_roots (hs.depth _ (Nat.le_refl _) (Nat.le_refl _))
  obtain ⟨val, argc, hmachine⟩ := hs.rests rfl
  refine ⟨⟨?_, ⟨val, argc, hmachine⟩, fun i k hc => ?_, fun i hi htells => ?_⟩, w, rfl,
    h.stable (m := .evaluating fixed _ false) rfl o.spares_none hs⟩
  · refine Array.ext hsize fun k hk hk' => ?_
    have hbelow := hs.below k hk' hk'
    rw [Array.getElem?_eq_getElem hk, Array.getElem?_eq_getElem hk'] at hbelow
    exact Option.some.inj hbelow
  · cases hleft : k.exited with
    | true => rfl
    | false =>
        have hmem := w.typed.conts i k hc hleft
        rw [hmachine, show o.state.machine.conts = #[] from h.idle.conts] at hmem
        cases hmem
  · exact hs.valueAt htells.1 hi htells.anchored

/-- An action that ends does what the one does that it is more cautious than. -/
theorem Cautious.eq_of_ends {act' act : Act α} (h : Cautious act' act) (he : EndsIn act' s s') :
    act' s = act s := by
  refine (h s).resolve_right ?_
  rintro ⟨cause, t, hfatal⟩
  rcases he with ⟨a, he⟩ | ⟨c, he⟩
  · cases hfatal.symm.trans he
  · cases hfatal.symm.trans he

end Undisturbed

/-- A system with room for a unit or two. -/
def System.roomy : System :=
  .initial { cells := 64, payloadBytes := 2048, stackSize := 16, lowWater := 0, symbolBuckets := 2 }
    { input := [], output := .empty, log := #[], files := [] }

/-- So it does when a number is evaluated and then called. -/
theorem evalText_restores_aborted :
    ∃ (o : System) (s' : State), o.Resting ∧ EndsIn (evalText "7 (5)") o.state s' ∧
      o.state.Undisturbed s' (fun _ => true) := by
  have hfacts : (match loadHalt System.roomy.state with
      | .error _ _ => false
      | .ok _ s => s.machine.code == .nil &&
        match (Evaluator.watched fun _ => true).evalText "7 (5)" s with
        | .error (.error _) _ => true
        | _ => false) = true := by
    decide +kernel
  have hleads := leads_loadHalt (w := System.roomy) ⟨rfl, rfl, rfl, rfl, by decide, by decide⟩
    ⟨by decide, by decide, by decide, by decide⟩
  generalize hload : loadHalt System.roomy.state = loaded at hfacts
  cases loaded with
  | error => cases hfacts
  | ok _ s =>
      obtain ⟨o, rfl, -, hprepared⟩ := hleads.of_ok hload
      obtain ⟨hcode, hwatched⟩ := Bool.and_eq_true_iff.1 hfacts
      have hresting : o.Resting := ⟨hprepared, eq_of_beq hcode⟩
      generalize heval : (Evaluator.watched fun _ => true).evalText "7 (5)" o.state = evaluated
        at hwatched
      obtain ⟨cause, s', rfl⟩ : ∃ cause s', evaluated = .error (.error cause) s' := by
        cases evaluated with
        | ok => cases hwatched
        | error c s' =>
            cases c with
            | error cause => exact ⟨cause, s', rfl⟩
            | fatal => cases hwatched
      have hsame := ((Evaluator.cautious_watched fun _ => true).evalText "7 (5)").eq_of_ends
        (.inr ⟨cause, heval⟩)
      rw [Evaluator.evalText_plain] at hsame
      have hends : EndsIn (evalText "7 (5)") o.state s' := .inr ⟨cause, hsame.symm.trans heval⟩
      exact ⟨o, s', hresting, hends, (evalText_restores hresting _ hsame hends).1⟩

end CellLisp
