import CellLisp.Proofs.Machine.History
import CellLisp.Proofs.Machine.Undo

/-!
# `CellLisp.Proofs.Machine.Ending` — how a run ends

A run that returns leaves the machine at the last state it went through (`Run.exists_last`); one
that fails does so in an instruction, or before the first one (`exists_failed`).  After a failure
the machine goes back to where it was (`State.aborted`).

Nothing here asks for more than a state.
-/

namespace CellLisp

/-! ## Steps -/

section Steps

variable {procedure : Value} {args : Array Value} {start s s' : State} {ss : List State} {n : Nat}

/-- A run that returns stops at one of its states. -/
theorem Run.exists_last (h : Run procedure args start (s :: ss)) (he : runSteps n s = .ok () s') :
    ∃ t ts, Run procedure args start (t :: ts) ∧ step t = .ok true s' := by
  induction n generalizing s ss with
  | zero => cases he
  | succ n ih =>
      rw [runSteps, act_bind] at he
      cases hstep : step s with
      | error c t =>
          rw [hstep] at he
          cases he
      | ok stop t =>
          rw [hstep] at he
          cases stop with
          | true =>
              obtain ⟨-, rfl⟩ := EStateM.Result.ok.inj he
              exact ⟨s, ss, h, hstep⟩
          | false => exact ih (h.goesOn hstep) he

/-- A run that fails does so in one of its states. -/
theorem Run.exists_failing {cause : Error} (h : Run procedure args start (s :: ss))
    (he : runSteps n s = .error (.error cause) s') :
    ∃ t ts, Run procedure args start (t :: ts) ∧ step t = .error (.error cause) s' := by
  induction n generalizing s ss with
  | zero => cases he
  | succ n ih =>
      rw [runSteps, act_bind] at he
      cases hstep : step s with
      | error c t =>
          rw [hstep] at he
          obtain ⟨rfl, rfl⟩ := EStateM.Result.error.inj he
          exact ⟨s, ss, h, hstep⟩
      | ok stop t =>
          rw [hstep] at he
          cases stop with
          | true => cases he
          | false => exact ih (h.goesOn hstep) he

end Steps

/-! ## Bodies -/

/-- A run has failed, before its first instruction or in one. -/
inductive Fails (procedure : Value) (args : Array Value) (start : State) (cause : Error) :
    List State → State → Prop
  | early {s : State} : beginRun procedure args (start.setRunning true) = .error (.error cause) s →
      Fails procedure args start cause [] s
  | late {s s' : State} {ss : List State} : Run procedure args start (s :: ss) →
      step s = .error (.error cause) s' → Fails procedure args start cause (s :: ss) s'

section Bodies

variable {procedure : Value} {args : Array Value} {start s : State} {cause : Error}

theorem exists_last (h : runBody procedure args (start.setRunning true) = .ok () s) :
    ∃ t ts, Run procedure args start (t :: ts) ∧ step t = .ok true s := by
  rw [runBody_eq, act_bind] at h
  cases hbegin : beginRun procedure args (start.setRunning true) with
  | error c t =>
      rw [hbegin] at h
      cases h
  | ok _ t =>
      rw [hbegin] at h
      exact (Run.begins hbegin).exists_last h

theorem exists_failed (h : runBody procedure args (start.setRunning true) = .error (.error cause) s) :
    ∃ ss, Fails procedure args start cause ss s := by
  rw [runBody_eq, act_bind] at h
  cases hbegin : beginRun procedure args (start.setRunning true) with
  | error c t =>
      rw [hbegin] at h
      obtain ⟨rfl, rfl⟩ := EStateM.Result.error.inj h
      exact ⟨[], .early hbegin⟩
  | ok _ t =>
      rw [hbegin] at h
      obtain ⟨u, us, hrun, hstep⟩ := (Run.begins hbegin).exists_failing h
      exact ⟨u :: us, .late hrun hstep⟩

end Bodies

/-! ## Going back -/

/-- The state once what a failed run left behind is undone. -/
def State.aborted (s : State) (c : Checkpoint) : State :=
  let t := (s.unwound c.dynDepth).dropped c.conts
  { t with
    machine := { (t.machine.truncate c.sp).resume c.registers with native := none, val := .nil } }

/-- The state once a run has returned. -/
def State.returned (s : State) (c : Checkpoint) : State :=
  { s with machine := (s.machine.truncate c.sp).resume c.registers }

section Back

variable {procedure : Value} {args : Array Value} {s s' : State} {v : Value} {cause : Error}

/-- The report of a failure. -/
def State.report (s : State) (cause : Error) : Failure :=
  ⟨cause.message, s.backtrace, s.machine.stack.size⟩

/-- A failure is reported to the world, and kept. -/
theorem exists_reported (cause : Error) (s : State) :
    ∃ world, reportFailure cause s = .ok () { s with world, failure := some (s.report cause) } := by
  unfold reportFailure
  rw [act_bind, act_get]
  dsimp only
  cases s.config.debugger with
  | abort =>
      cases hframes : s.backtrace.isEmpty with
      | true => exact ⟨_, rfl⟩
      | false => exact ⟨_, rfl⟩
  | interactive =>
      cases hread : (Debugger.session s ⟨cause.message, s.backtrace, s.machine.stack.size⟩).readable with
      | true => exact ⟨_, rfl⟩
      | false => exact ⟨_, rfl⟩

theorem abortTo_eq (c : Checkpoint) (s : State) :
    ∃ world, abortTo c s = .ok () { s.aborted c with world } := by
  unfold abortTo
  rw [act_bind, unwind_eq]
  exact ⟨_, rfl⟩

/-- What a call from outside the machine leads to. -/
theorem invoke_idle (procedure : Value) (args : Array Value) (hidle : s.machine.running = false) :
    (∃ t, runBody procedure args (s.setRunning true) = .ok () t ∧
      invoke procedure args s = .ok t.machine.val
        ((t.setRunning false).returned s.machine.checkpoint)) ∨
    (∃ cause t world, runBody procedure args (s.setRunning true) = .error (.error cause) t ∧
      invoke procedure args s = .error (.error (.aborted cause))
        { (t.setRunning false).aborted s.machine.checkpoint with
          world, failure := some ((t.setRunning false).report cause) }) ∨
    ∃ cause t, runBody procedure args (s.setRunning true) = .error (.fatal cause) t ∧
      invoke procedure args s = .error (.fatal cause) t := by
  unfold invoke
  simp only [act_bind, act_gets, hidle, Bool.false_eq_true, if_false]
  unfold guarded
  cases hrun : runBody procedure args (s.setRunning true) with
  | ok u t => exact .inl ⟨t, rfl, rfl⟩
  | error c t =>
      cases c with
      | fatal cause => exact .inr (.inr ⟨cause, t, rfl, rfl⟩)
      | error cause =>
          obtain ⟨world, hreport⟩ := exists_reported cause (t.setRunning false)
          obtain ⟨world', habort⟩ := abortTo_eq s.machine.checkpoint
            { t.setRunning false with world, failure := some ((t.setRunning false).report cause) }
          refine .inr (.inl ⟨cause, t, world', rfl, ?_⟩)
          simp only
          rw [act_bind, hreport]
          simp only
          rw [act_bind, habort]
          rfl

end Back

end CellLisp
