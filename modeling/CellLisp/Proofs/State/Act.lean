import CellLisp.Alloc

/-!
# `CellLisp.Proofs.State.Act` — what an action gives

An action runs from a state to a value and a state, or stops.  `Gives E act s Q` says how: with a
value and a state that satisfy `Q`, with an error that `E` admits, or because a store is full.
With no error admitted the action succeeds unless a store is full; with all of them, only what it
yields is spoken of.
-/

namespace CellLisp

theorem act_bind {α β : Type} (x : Act α) (f : α → Act β) (s : State) :
    (x >>= f) s = match x s with
      | .ok a s => f a s
      | .error c s => .error c s := by
  show EStateM.bind x f s = _
  unfold EStateM.bind
  cases x s <;> rfl

/-- What carries on after an action that succeeded. -/
theorem exists_of_bind_eq_ok {α β : Type} {x : Act α} {f : α → Act β} {b : β} {s s' : State}
    (h : (x >>= f) s = .ok b s') : ∃ a t, x s = .ok a t ∧ f a t = .ok b s' := by
  rw [act_bind] at h
  cases hx : x s with
  | ok a t =>
      rw [hx] at h
      exact ⟨a, t, rfl, h⟩
  | error c t =>
      rw [hx] at h
      cases h

/-- What an action has led to whose result is another one's. -/
theorem ok_of_return {β : Type} {x : Act Unit} {b c : β} {s s' : State}
    (h : (x >>= fun _ => pure b) s = .ok c s') : x s = .ok () s' := by
  obtain ⟨⟨⟩, t, hx, hdone⟩ := exists_of_bind_eq_ok h
  rw [hx, (EStateM.Result.ok.inj hdone).2]

theorem act_get (s : State) : (get : Act State) s = .ok s s := rfl

theorem act_gets {α : Type} (f : State → α) (s : State) : gets f s = .ok (f s) s := rfl

theorem act_modify (f : State → State) (s : State) : (modify f : Act Unit) s = .ok () (f s) := rfl

theorem act_modifyHeap (f : Heap → Heap) (s : State) :
    modifyHeap f s = .ok () { s with heap := f s.heap } := rfl

theorem act_modifyGet {α : Type} (f : State → α × State) (s : State) :
    (modifyGet f : Act α) s = .ok (f s).1 (f s).2 := rfl

/-- A store is full. -/
def Fatal.IsExhaustion : Fatal → Prop
  | .cellsExhausted | .payloadExhausted | .rootsExhausted => True
  | _ => False

/-- An action ends as `Q` says, with an error that `E` admits, or because a store is full. -/
def Gives {α : Type} (E : Error → Prop) (act : Act α) (s : State) (Q : α → State → Prop) : Prop :=
  match act s with
  | .ok a s' => Q a s'
  | .error (.error cause) _ => E cause
  | .error (.fatal cause) _ => cause.IsExhaustion

namespace Gives

section

variable {α β : Type} {E : Error → Prop} {s : State} {Q Q' : α → State → Prop} {act : Act α}

theorem mono (h : Gives E act s Q) (hq : ∀ a s', Q a s' → Q' a s') : Gives E act s Q' := by
  unfold Gives at *
  split at h
  · exact hq _ _ h
  · exact h
  · exact h

theorem pure {a : α} (hq : Q a s) : Gives E (pure a) s Q := hq

theorem bind {x : Act α} {f : α → Act β} {R : β → State → Prop} (hx : Gives E x s Q)
    (hf : ∀ a s', Q a s' → Gives E (f a) s' R) : Gives E (x >>= f) s R := by
  unfold Gives at hx
  unfold Gives
  rw [act_bind]
  split at hx
  · rename_i a s' hs
    rw [hs]
    exact hf a s' hx
  · rename_i c s' hs
    rw [hs]
    exact hx
  · rename_i c s' hs
    rw [hs]
    exact hx

theorem congr {act' : Act α} (h : Gives E act s Q) (e : act' s = act s) : Gives E act' s Q := by
  unfold Gives at *
  rw [e]
  exact h

theorem of_eq {s' : State} {act' : Act α} (h : Gives E act' s' Q) (e : act s = act' s') :
    Gives E act s Q := by
  unfold Gives at *
  rw [e]
  exact h

theorem of_eq_ok {a : α} {s' : State} (hq : Q a s') (e : act s = .ok a s') : Gives E act s Q := by
  unfold Gives
  rw [e]
  exact hq

theorem fail {cause : Error} (h : E cause) : Gives E (CellLisp.fail cause : Act α) s Q := h

theorem halt {cause : Fatal} (h : cause.IsExhaustion) :
    Gives E (CellLisp.halt cause : Act α) s Q := h

theorem modify {f : State → State} {Q : Unit → State → Prop} (hq : Q () (f s)) :
    Gives E (modify f) s Q := hq

theorem gets {f : State → α} (hq : Q (f s) s) : Gives E (CellLisp.gets f) s Q := hq

/-- What an action left protected is dropped. -/
theorem withRoots (h : Gives E act s fun a s' => Q a { s' with roots := s'.roots.shrink s.roots.size }) :
    Gives E (CellLisp.withRoots act) s Q := by
  unfold Gives at *
  unfold CellLisp.withRoots
  cases hact : act s with
  | ok a s' => rw [hact] at h; exact h
  | error c s' => rw [hact] at h; cases c <;> exact h

/-- What an action gives, and that it does. -/
theorem with_ok (h : Gives E act s Q) : Gives E act s fun a s' => Q a s' ∧ act s = .ok a s' := by
  unfold Gives at *
  split at h
  · exact ⟨h, ‹_›⟩
  · exact h
  · exact h

theorem of_ok {a : α} {s' : State} (h : Gives E act s Q) (e : act s = .ok a s') : Q a s' := by
  unfold Gives at h
  rw [e] at h
  exact h

end

end Gives

end CellLisp
