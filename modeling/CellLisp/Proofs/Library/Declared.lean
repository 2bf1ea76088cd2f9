import CellLisp.Proofs.Compile.Remarks
import CellLisp.Proofs.Compile.Parameters
import CellLisp.Proofs.Library.Definitions
import CellLisp.Proofs.Machine.Accept
import CellLisp.Proofs.State.Instructions
import CellLisp.Proofs.State.Interning
import CellLisp.Session

/-!
# `CellLisp.Proofs.Library.Declared` — declared and actual arities
-/

namespace CellLisp

open Library

/-! ## Declarations that are true -/

/-- A symbol is declared a function of the arity that the procedure has which it is bound to. -/
structure Heap.Stands (h : Heap) (x : Value) (a : Arity) : Prop where
  declares : h.Declares x a
  value : ∃ v, h.global? x = some v ∧ h.arity? v = some a

/-! ## Arities by their codes -/

section Codes

variable {h : Heap} {fixed : List Value} {params v w : Value} {rest : Option Value} {a : Arity}

/-- What is found along the tails of a value stands in pairs in front of what is found behind. -/
theorem Heap.onto_of_spineFrom {n : Nat} {acc items : Array Value}
    (hspine : h.spineFrom acc n v = (items, w)) :
    ∃ vs, items.toList = acc.toList ++ vs ∧ h.Onto v vs w := by
  induction n generalizing acc v with
  | zero =>
      obtain ⟨rfl, rfl⟩ := Prod.mk.inj hspine
      exact ⟨[], (List.append_nil _).symm, .nil⟩
  | succ n ih =>
      unfold Heap.spineFrom at hspine
      cases hp : h.pair? v with
      | none =>
          rw [hp] at hspine
          obtain ⟨rfl, rfl⟩ := Prod.mk.inj hspine
          exact ⟨[], (List.append_nil _).symm, .nil⟩
      | some p =>
          rw [hp] at hspine
          obtain ⟨vs, hvs, ho⟩ := ih hspine
          refine ⟨p.1 :: vs, ?_, .cons hp ho⟩
          rw [hvs, Array.toList_push, List.append_assoc, List.singleton_append]

theorem Heap.Parameters.onto (hp : h.Parameters params fixed rest) :
    h.Onto params fixed (rest.getD .nil) ∧ (rest.getD .nil).isPair = false ∧
      (rest.getD .nil).isNil = rest.isNone := by
  obtain ⟨vs, hvs, ho⟩ := Heap.onto_of_spineFrom hp.spine
  obtain rfl : fixed = vs := by simpa using hvs
  refine ⟨ho, ?_⟩
  cases rest with
  | none => exact ⟨rfl, rfl⟩
  | some v =>
      have hsymbol := hp.symbols v (by simp)
      cases v with
      | ref tag i => cases tag <;> first | exact ⟨rfl, rfl⟩ | cases hsymbol
      | _ => cases hsymbol

end Codes

/-! ## Declaring -/

section Declaring

variable {σ : String → Nat} {s s' : State} {role x v u : Value} {code : Int}

end Declaring

/-! ## Procedures that are made -/

section Making

variable {E : Error → Prop} {s s' : State} {name doc code env x v : Value} {a : Arity}

end Making

/-! ## Records that change -/

section Writing

variable {s s' : State} {x v u : Value} {f : Symbol → Symbol} {name : String} {k : Nat} {hash : UInt32}

end Writing

end CellLisp
