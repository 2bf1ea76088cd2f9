import CellLisp.Proofs.Library.Procedures
import CellLisp.Proofs.Machine.Gather
import CellLisp.Proofs.Number.Exact

/-!
# `CellLisp.Proofs.Library.Loaded` — systems with the core library

`t.Loaded σ`: the names that the procedures of the core library use stand for what they stand for
once it has been loaded.  This lasts as long as nobody assigns to them (`State.Loaded.aside`).

What a form needs that calls a built-in procedure of the library, and what a `while` needs, is
derived from it.
-/

namespace CellLisp

open Library

/-- The core library has been loaded, and none of the globals that its procedures use has been
assigned to. -/
structure State.Loaded (σ : String → Nat) (t : State) : Prop where
  builtins : ∀ name code p, (name, code, p) ∈ builtins →
    t.findSymbol? name = some (sym σ name) ∧
      ∃ v, t.heap.global? (sym σ name) = some v ∧ t.heap.Serves v ⟨code⟩ p
  procedures : ∀ name n p, (name, n, p) ∈ procedures σ →
    t.findSymbol? name = some (sym σ name) ∧
      ∃ v, t.heap.global? (sym σ name) = some v ∧ t.heap.Carries v (.exactly n) p
  truth : t.findSymbol? "t" = some t.known.t

section Loaded

variable {σ : String → Nat} {s t t' : State} {A : List Value} {v : Value}

theorem Heap.reaches_global {h : Heap} {x : Value} (hx : h.Reaches A x)
    (hv : h.global? x = some v) : h.Reaches A v := by
  obtain ⟨r, hr, hvalue⟩ := Option.bind_eq_some_iff.1 hv
  unfold Heap.symbol? at hr
  split at hr
  · rename_i i hi
    split at hr
    · rename_i r' hc
      obtain rfl := Option.some.inj hr
      exact reaches_of_references hx hi (by simp [references, hc, Cell.block?, Cell.values, hvalue])
    · cases hr
  · cases hr

/-- A global that can be found by its name keeps its value. -/
theorem State.Aside.global? (h : t.Aside A t') {name : String} {x : Value}
    (hx : t.findSymbol? name = some x) (hv : t.heap.global? x = some v) :
    t'.findSymbol? name = some x ∧ t'.heap.global? x = some v ∧
      t.heap.Reaches (t.anchors ++ A) v := by
  obtain ⟨hx', hreach⟩ := h.findSymbol? hx
  exact ⟨hx', (h.retains.global? hreach).trans hv, Heap.reaches_global hreach hv⟩

theorem State.Aside.known (h : t.Aside A t') : t'.known = t.known := by
  obtain ⟨heap, log, hrest⟩ := h.rest
  have hknown : t'.store.known = t.store.known := by rw [hrest]
  exact hknown

/-- The core library stays loaded. -/
theorem State.Loaded.aside (hl : t.Loaded σ) (h : t.Aside A t') : t'.Loaded σ where
  builtins name code p he := by
    obtain ⟨hx, v, hv, i, symbol, rfl, hc⟩ := hl.builtins name code p he
    obtain ⟨hx', hv', hreach⟩ := h.global? hx hv
    have hi : (Value.ref .native i).cell? = some i := by
      refine Value.cell?_eq_some_iff.2 ⟨_, rfl, ?_⟩
      rintro rfl
      have hzero := h.zero
      rw [hc] at hzero
      cases hzero
    exact ⟨hx', _, hv', i, symbol, rfl, h.retains.native hreach hi hc⟩
  procedures name n p he := by
    obtain ⟨hx, v, hv, hcode, b, hlisting, harity⟩ := hl.procedures name n p he
    obtain ⟨hx', hv', hreach⟩ := h.global? hx hv
    exact ⟨hx', v, hv', hcode, b, (h.retains.listing? hreach).trans hlisting, harity⟩
  truth := by
    rw [h.known]
    exact (h.findSymbol? hl.truth).1

/-- Names of the forms that the definition of a procedure comes to, and of the role it has then. -/
def Library.formNames : List String :=
  ["do", "comptime", "declare!", "quote", "set!", "named-lambda", "function"]

/-- The expander `defun` has been loaded as well, with the form `'function` in its code, and the
system goes by the names for roles. -/
structure State.Defining (σ : String → Nat) (role : Value) (t : State) : Prop where
  loaded : t.Loaded σ
  names : ∀ name ∈ formNames, t.findSymbol? name = some (sym σ name)
  expander : t.findSymbol? "defun" = some (sym σ "defun") ∧
    ∃ v, t.heap.global? (sym σ "defun") = some v ∧ t.heap.Carries v ⟨-3⟩ (defun σ role)
  role : t.heap.Lists role [sym σ "quote", sym σ "function"]
  roles : t.findSymbol? "variable" = some t.known.plainRole ∧
    t.findSymbol? "constant" = some t.known.constantRole ∧
      t.findSymbol? "function" = some t.known.functionRole

/-- Compiled code leads to the operands of its instructions. -/
theorem Heap.Carries.reaches_operand {h : Heap} {arity : Arity} {p : Proc} {i : Instr}
    (hc : h.Carries v arity p) (hv : h.Reaches A v) (hi : i ∈ p.instrs) : h.Reaches A i.operand := by
  obtain ⟨-, b, hlisting, -⟩ := hc
  obtain ⟨j, hj, -, hmem⟩ := Heap.exists_of_listing hlisting (List.mem_toArray.2 hi)
  exact reaches_of_references hv hj hmem

theorem State.Defining.aside {role : Value} (hd : t.Defining σ role) (h : t.Aside A t') :
    t'.Defining σ role := by
  obtain ⟨hx, v, hv, hcarries⟩ := hd.expander
  obtain ⟨hx', hv', hreach⟩ := h.global? hx hv
  have hmem : (⟨.const, 0, role⟩ : Instr) ∈ (defun σ role).instrs :=
    List.mem_of_getElem? (i := 14) rfl
  obtain ⟨b, hlisting, harity⟩ := hcarries.2
  obtain ⟨hplain, hconstant, hfunction⟩ := hd.roles
  exact
    { loaded := hd.loaded.aside h
      names := fun name hname => (h.findSymbol? (hd.names name hname)).1
      expander := ⟨hx', v, hv', hcarries.1, b, (h.retains.listing? hreach).trans hlisting, harity⟩
      role := hd.role.retained h.zero h.zero' h.retains (hcarries.reaches_operand hreach hmem)
      roles := by
        rw [h.known]
        exact ⟨(h.findSymbol? hplain).1, (h.findSymbol? hconstant).1, (h.findSymbol? hfunction).1⟩ }

end Loaded

/-! ## Built-in procedures -/

section Applying

variable {σ : String → Nat} {s t : State} {a d v : Value} {i j : Int}

namespace State

end State

namespace State

end State

end Applying

end CellLisp
