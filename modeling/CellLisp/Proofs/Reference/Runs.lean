import CellLisp.Proofs.Compile.Unit
import CellLisp.Proofs.Machine.Ending
import CellLisp.Proofs.Reference.Simulation

/-!
# `CellLisp.Proofs.Reference.Runs` — runs of a unit

A unit has no parameters and no copies, and nobody waits for it (`Self.unit`).  A run of its code
ends as its body evaluates to, unless a store or the stack is full, or the steps are used up
(`Evals.delivers`): with the value, in the state that comes with it, or with the error, and then what
the run has left behind is undone.
-/

namespace CellLisp.Reference

/-- A unit under way. -/
def Self.unit (code : Value) : Self := ⟨code, {}, none, [], []⟩

/-- What is to be of a whole evaluation: of its value, of its error, and of the state.  It exits to
nowhere. -/
def Goal.whole (V : Value → State → Prop) (F : Error → State → Prop) : Goal
  | .value v, _, t => V v t
  | .error cause, _, t => F cause t
  | .exit _ _, _, _ => False

/-- What is so of the end of a run from a state on, if the evaluation that it carries out ends as `V`
and `F` say. -/
def Delivers (V : Value → State → Prop) (F : Error → State → Prop) (s : State) :
    EStateM.Result Stop State Value → Prop
  | .ok v s' => V v s'.store
  | .error (.error cause) s' => ∃ (inner : Error) (t : State), cause = .aborted inner ∧
      (inner = .stackExhausted ∨ F inner t.store) ∧
        ∃ world failure, s' = { t.aborted s.machine.checkpoint with world, failure }
  | .error (.fatal cause) _ => cause.IsExhaustion ∨ cause = .stepLimit

/-! ## Steps -/

/-- So is a run that comes to where it is to come to. -/
theorem Course.Finishes.runs {C : Course} {s : State} (h : C.Finishes s)
    (hanswer : ∀ t, C.answer t → step t = .ok true (t.atPc (t.machine.pc + 1))) (n : Nat) :
    (∃ t, runSteps n s = .ok () (t.atPc (t.machine.pc + 1)) ∧ C.answer t) ∨
      (∃ cause t, runSteps n s = .error (.error cause) t ∧
        (cause = .stackExhausted ∨ C.refusal cause t)) ∨
      ∃ cause t, runSteps n s = .error (.fatal cause) t ∧ (cause.IsExhaustion ∨ cause = .stepLimit) := by
  induction n generalizing s with
  | zero => exact .inr (.inr ⟨_, s, rfl, .inr rfl⟩)
  | succ n ih =>
      rw [runSteps, act_bind]
      cases h with
      | here hs => exact .inl ⟨s, by rw [hanswer s hs]; rfl, hs⟩
      | next hstep h =>
          rw [hstep]
          exact ih h
      | full hstep hcause => exact .inr (.inr ⟨_, _, by rw [hstep], .inl hcause⟩)
      | fails hstep hcause => exact .inr (.inl ⟨_, _, by rw [hstep], hcause⟩)

/-! ## A unit -/

section Unit

variable {o : System} {unit : Value} {arity : Arity} {e : Core} {V : Value → State → Prop}
  {F : Error → State → Prop}

/-- The run that is to end as `V` and `F` say. -/
def course {args : Array Value} (hl : Launch false o unit args)
    (hmaker : o.heap.Serves o.state.known.makeClosure ⟨2⟩ .makeClosure)
    (V : Value → State → Prop) (F : Error → State → Prop) : Course where
  mode := { machine := false, pairs := false }
  depth := 0
  start := o.launched
  ground := hl.ground rfl (Nat.zero_le _)
  tame _ hu := State.permits_of_tame hu fun _ => id
  maker := hmaker
  answer s := step s = .ok true (s.atPc (s.machine.pc + 1)) ∧ V s.machine.val s.store
  refusal cause s := F cause s.store

/-- The unit at work: it goes back to where the run ends. -/
def unitStage (C : Course) (unit : Value) (e : Core) : Stage C where
  self := .unit unit
  sites := (Comp.unitProc unit e).sites.map Site.drafted
  frames := []
  back := ⟨C.start.state.known.halt, 0, C.start.state.machine.fp⟩
  live := C.ground.escapes.symm
  held := List.nil_subset _

/-- The code that every run returns into ends it. -/
theorem step_of_halts {w : System} (h : w.Halts)
    (hplace : w.state.machine.code = w.state.known.halt ∧ w.state.machine.pc = 0) :
    step w.state = .ok true (w.state.atPc (w.state.machine.pc + 1)) := by
  obtain ⟨⟨op, n, x⟩, hins, rfl⟩ := h.instr?
  rw [← hplace.1] at hins
  rw [hplace.2]
  exact (step_eq (hplace.2.symm ▸ hins)).trans (by rw [hplace.2]; rfl)

/-- Where the unit begins the run comes to its end. -/
theorem Evals.goes_unit {C : Course} {t : State} {v : Value}
    (hanswer : ∀ s, step s = .ok true (s.atPc (s.machine.pc + 1)) → V s.machine.val s.store → C.answer s)
    (hrefusal : ∀ cause s, F cause (State.store s) → C.refusal cause s)
    (h : Evals (.unit unit) (.form false e) .empty t (.whole V F)) :
    (unitStage C unit e).Goes [] .empty 0 v t := by
  let S := unitStage C unit e
  obtain ⟨hcode, hret⟩ := Stage.segment_body (S := S) (p := Comp.unitProc unit e) rfl
  refine h.does S rfl [] [] (Comp.unitProc unit e).scope 0 v
    (.inner hcode ⟨rfl, rfl, rfl, rfl, rfl⟩ ⟨fun _ _ _ _ hq => hq.elim, ?_⟩
      fun v E t hq _ => .ret hret ?_)
  · rintro cause E t hq s rfl
    exact hrefusal cause s hq
  · rintro w hcomes hplace - rfl rfl
    have hknown : w.state.known = C.start.state.known := hcomes.ran.stable.known
    refine .here (hanswer _ (step_of_halts (C.ground.halts.stable hcomes.ran.stable C.ground.target) ?_) hq)
    exact ⟨(congrArg Return.code hplace).trans (by rw [hknown]; rfl), congrArg Return.pc hplace⟩

/-- A run of a unit begins with the unit's frame alone, unless the stack is full. -/
theorem gives_beginRun {C : Course} (hl : Launch C.mode.pairs o unit #[]) (hstart : C.start = o.launched)
    (hcarries : o.heap.Carries unit arity (Comp.unitProc unit e)) (haccepts : arity.accepts 0 = true) :
    Gives (· = .stackExhausted) (beginRun unit #[]) (o.state.setRunning true) fun _ s =>
      ∃ w f, w.state = s ∧ (unitStage C unit e).Works [] .empty w f ∧ s.machine.pc = 0 ∧
        s.store = o.state.store := by
  obtain ⟨b, hb, rfl, -⟩ := hcarries.exists_bytecode
  let r : Return := ⟨o.state.known.halt, 0, o.state.machine.fp⟩
  have hbegin : beginRun unit #[] o.launched.state = enterCode unit unit none 0 r o.launched.state := by
    rw [← enter_of_isBytecode hcarries.1]
    rfl
  refine ((gives_enterCode (s := o.launched.state) hb haccepts).congr hbegin).with_ok.mono ?_
  rintro _ s ⟨hs, hok⟩
  obtain ⟨w, rfl, hcalm, gs, hentered⟩ :=
    (leads_beginRun (m := C.mode) (d := C.depth) hl (hstart ▸ C.ground)).of_ok hok
  have hslots : w.state.machine.slots = r.words.reverse ++ o.state.machine.slots := by
    rw [hs]
    exact slots_entered o.launched.state.machine unit none 0 r
  -- there are more words than the run began with, so there is a frame
  obtain ⟨g, rfl⟩ : ∃ g, gs = [g] := by
    refine List.length_eq_one_iff.1 (Nat.le_antisymm hentered.few (List.length_pos_iff.2 ?_))
    rintro rfl
    have hlen := congrArg List.length (hslots.symm.trans hentered.stands.shows.slots)
    simp [slotsOf, System.launched, System.withMachine, Machine.slots, Return.words] at hlen
    omega
  have hcomes : C.Comes w [g] := by
    rw [Course.Comes, hstart]
    exact ⟨hcalm.toRan, hentered.stands⟩
  have hescapes : w.state.machine.escapes = [] := by
    rw [hs]
    exact (hstart ▸ C.ground).escapes
  have hbase : C.start.state.machine.slots = o.state.machine.slots := by rw [hstart]; rfl
  have hwords : C.words [] = o.state.machine.slots := hbase
  have hcarried : w.heap.Carries w.state.machine.code b.arity (Comp.unitProc unit e) := by
    rw [System.heap, hs]
    exact hcarries
  refine ⟨w, g, rfl, ⟨hcomes, Stage.has_of_entered rfl hcomes ?_ hcarried ?_ ?_ ?_ rfl, ?_,
    ⟨hescapes, fun _ hk => absurd hk List.not_mem_nil⟩⟩, by rw [hs]; rfl, by rw [hs]; rfl⟩
  · rw [hentered.back g List.mem_cons_self]
    change _ = (⟨C.start.state.known.halt, 0, C.start.state.machine.fp⟩ : Return)
    rw [hstart]
    rfl
  · rw [hslots]
    change _ = _ ++ C.words []
    rw [hwords]
    change _ = (_ ++ ([] ++ (_ ++ []))) ++ _
    rw [List.append_nil]
    change _ = (⟨C.start.state.known.halt, 0, C.start.state.machine.fp⟩ : Return).words.reverse ++ _
    rw [hstart]
    rfl
  · rw [hs]
    change _ = 0 + (C.words []).length + 3
    rw [hwords, Machine.length_slots]
    simp [Machine.entered, System.launched, System.withMachine]
  · change _ = C.escapes []
    rw [hescapes]
    exact C.ground.escapes.symm
  · rw [hs]
    rfl

/-- A run of a unit ends as its body evaluates to. -/
theorem Evals.delivers (hl : Launch false o unit #[])
    (hmaker : o.heap.Serves o.state.known.makeClosure ⟨2⟩ .makeClosure)
    (hcarries : o.heap.Carries unit arity (Comp.unitProc unit e)) (haccepts : arity.accepts 0 = true)
    (h : Evals (.unit unit) (.form false e) .empty o.state.store (.whole V F)) :
    Delivers V F o.state (invoke unit #[] o.state) := by
  let C := course hl hmaker V F
  have hbegin := gives_beginRun (C := C) hl rfl hcarries haccepts
  have hgoes (v : Value) : (unitStage C unit e).Goes [] .empty 0 v o.state.store :=
    h.goes_unit (fun _ hstep hv => ⟨hstep, hv⟩) fun _ _ hf => hf
  have hbody : (∃ t : State, runBody unit #[] (o.state.setRunning true) = .ok () (t.atPc (t.machine.pc + 1)) ∧
        V t.machine.val t.store) ∨
      (∃ (cause : Error) (t : State),
        runBody unit #[] (o.state.setRunning true) = .error (.error cause) t ∧
        (cause = .stackExhausted ∨ F cause t.store)) ∨
      ∃ (cause : Fatal) (t : State),
        runBody unit #[] (o.state.setRunning true) = .error (.fatal cause) t ∧
        (cause.IsExhaustion ∨ cause = .stepLimit) := by
    rw [runBody_eq, act_bind]
    unfold Gives at hbegin
    cases hb : beginRun unit #[] (o.state.setRunning true) with
    | ok _ s =>
        rw [hb] at hbegin
        obtain ⟨w, f, rfl, hworks, hpc, hstore⟩ := hbegin
        rcases (hgoes _ w f hworks hpc rfl hstore).runs (fun _ ht => ht.1) w.state.config.stepLimit with
          ⟨t, hrun, ht⟩ | hfails | hfatal
        · exact .inl ⟨t, hrun, ht.2⟩
        · exact .inr (.inl hfails)
        · exact .inr (.inr hfatal)
    | error c s =>
        rw [hb] at hbegin
        cases c with
        | error cause => exact .inr (.inl ⟨cause, s, rfl, .inl hbegin⟩)
        | fatal cause => exact .inr (.inr ⟨cause, s, rfl, .inl hbegin⟩)
  rcases invoke_idle unit #[] hl.idle.running with
    ⟨t, hrun, hinvoke⟩ | ⟨cause, t, world, hrun, hinvoke⟩ | ⟨cause, t, hrun, hinvoke⟩
  all_goals
    rw [hinvoke]
    rcases hbody with ⟨u, hu, hv⟩ | ⟨cause', u, hu, hf⟩ | ⟨cause', u, hu, hf⟩ <;>
      cases hrun.symm.trans hu
  · exact hv
  · exact ⟨cause, t.setRunning false, rfl, hf, world, _, rfl⟩
  · exact hf

end Unit

end CellLisp.Reference
