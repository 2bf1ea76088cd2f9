import Mathlib.Algebra.GroupWithZero.Nat
import CellLisp.Machine.Run
import CellLisp.Proofs.Compile.Steps

/-!
# `CellLisp.Proofs.Compile.Copies` — names of enclosing scopes in the body of a procedure

The body of a procedure reaches a variable or a continuation of an enclosing scope through a
copy in its environment.  There is a copy exactly of what the walk over the body came upon, and
`compileClosure` fills the environment with them in the order of `Captures.copies`.

| | in `copies` | not in `copies` |
| :-- | :-- | :-- |
| variable | a word of the environment | a global |
| continuation | a word of the environment | unknown |

The walk and the compiler part ways over macro calls, so that a name that the code of the body
refers to may be missing (`Comp.lambda_shadowing`).
-/

namespace CellLisp

/-- What an environment holds, in order. -/
def Captures.copies (c : Captures) : List Value := c.conts ++ c.vars

/-- The name that an entry binds, lexically or dynamically. -/
def Entry.name? : Entry → Option Value
  | .var x | .dynamic x => some x
  | _ => none

namespace Scope

/-- A scope with more entries and continuations. -/
def under (s : Scope) (es : List Entry) (ks : List Value) : Scope :=
  { s with entries := es ++ s.entries, conts := ks ++ s.conts }

/-- An entry that neither binds a name nor is an environment. -/
def Clear (x : Value) (e : Entry) : Prop := e.name? ≠ some x ∧ e ≠ .env

/-- Slots of entries. -/
def slotsOf (es : List Entry) : Nat := (es.map Entry.slots).sum

/-! ## Entries in between -/

theorem findEntry_append {x : Value} {es rest : List Entry} {offset : Nat}
    (h : ∀ e ∈ es, e.name? ≠ some x) :
    findEntry x offset (es ++ rest) = findEntry x (offset + slotsOf es) rest := by
  induction es generalizing offset with
  | nil => simp [slotsOf]
  | cons e es ih =>
      have he : e.name? ≠ some x := h e (by simp)
      have ih := fun offset => @ih offset fun e' he' => h e' (by simp [he'])
      cases e <;>
        simp_all [findEntry, slotsOf, Entry.slots, Entry.name?, Nat.add_assoc]

theorem findEntry_eq_none {x : Value} {es : List Entry} {offset : Nat}
    (h : ∀ e ∈ es, e.name? ≠ some x) : findEntry x offset es = none := by
  have happend := @findEntry_append x es [] offset h
  simpa [findEntry] using happend

theorem findEnv_append {es rest : List Entry} {offset : Nat} (h : ∀ e ∈ es, e ≠ .env) :
    findEnv offset (es ++ rest) = findEnv (offset + slotsOf es) rest := by
  induction es generalizing offset with
  | nil => simp [slotsOf]
  | cons e es ih =>
      have he : e ≠ .env := h e (by simp)
      have ih := @ih (offset + e.slots) fun e' he' => h e' (by simp [he'])
      simp [findEnv, he, ih, slotsOf, Nat.add_assoc]

end Scope

/-! ## Places in a body -/

section Body

variable {code x k : Value} {params ks : List Value} {c : Captures} {es : List Entry}

/-- Where a variable is found that nothing in the procedure binds. -/
theorem Scope.resolve_body (hx : x ∉ params) (hes : ∀ e ∈ es, Clear x e) :
    ((Comp.procedureScope code params c).under es ks).resolve x =
      match c.vars.idxOf? x with
      | some i => .env (slotsOf es) (c.conts.length + i)
      | none => .global := by
  have hbody : ∀ e ∈ es ++ (Comp.procedureScope code params c).entries, e.name? ≠ some x := by
    intro e he
    rcases List.mem_append.mp he with he | he
    · exact (hes e he).1
    · rintro hname
      simp only [Comp.procedureScope, List.mem_append, List.mem_reverse, List.mem_map] at he
      rcases he with he | ⟨y, hy, rfl⟩
      · split at he <;> simp at he <;> grind [Entry.name?]
      · exact hx (by cases hname; exact hy)
  have hfind : findEntry x 0 (es ++ (Comp.procedureScope code params c).entries) = none :=
    findEntry_eq_none hbody
  simp only [resolve, under, hfind]
  cases hi : c.vars.idxOf? x with
  | none => simp [Comp.procedureScope, hi]
  | some i =>
      have hcount : c.count ≠ 0 := by
        have : c.vars ≠ [] := by rintro h; simp [h] at hi
        have := List.length_pos_iff.mpr this
        simp only [Captures.count]
        omega
      have henv : findEnv 0 (es ++ (Comp.procedureScope code params c).entries) =
          some (slotsOf es) := by
        rw [findEnv_append fun e he => (hes e he).2]
        simp [Comp.procedureScope, hcount, findEnv]
      simp [Comp.procedureScope, hi, envOffset] at henv ⊢
      simp [henv]

/-- Where a continuation is found that nothing in the procedure establishes. -/
theorem Scope.resolveCont_body (hk : k ∉ ks) (hes : ∀ e ∈ es, e ≠ .env) :
    ((Comp.procedureScope code params c).under es ks).resolveCont k =
      (c.conts.idxOf? k).map (.env (slotsOf es)) := by
  have hnone : (ks ++ (Comp.procedureScope code params c).conts).idxOf? k = none := by
    simpa [Comp.procedureScope, List.idxOf?_eq_none_iff] using hk
  simp only [resolveCont, under, hnone]
  cases hi : c.conts.idxOf? k with
  | none => simp [Comp.procedureScope, hi]
  | some i =>
      have hcount : c.count ≠ 0 := by
        have : c.conts ≠ [] := by rintro h; simp [h] at hi
        have := List.length_pos_iff.mpr this
        simp only [Captures.count]
        omega
      have henv : findEnv 0 (es ++ (Comp.procedureScope code params c).entries) =
          some (slotsOf es) := by
        rw [findEnv_append hes]
        simp [Comp.procedureScope, hcount, findEnv]
      simp [Comp.procedureScope, hi, envOffset] at henv ⊢
      simp [henv]

/-- A member stands at its first place. -/
theorem exists_idxOf?_of_mem {l : List Value} (h : x ∈ l) :
    ∃ i, l.idxOf? x = some i ∧ l[i]? = some x := by
  obtain ⟨i, hi⟩ := Option.isSome_iff_exists.mp (List.isSome_idxOf?.mpr h)
  obtain ⟨hlt, hget, -⟩ := List.idxOf?_eq_some_iff.mp hi
  exact ⟨i, hi, by rw [List.getElem?_eq_getElem hlt]; rw [hget]⟩

/-- The body of a procedure reaches a variable or a continuation from outside it exactly if
that was copied, and then at the word of the environment that holds the copy.  Any other
variable is taken for a global, and an exit to any other continuation does not compile. -/
theorem Comp.reaches_iff_copied (hx : x ∉ params) (hes : ∀ e ∈ es, Scope.Clear x e)
    (hk : k ∉ ks) :
    let s := (procedureScope code params c).under es ks
    ((∃ offset i, s.resolve x = .env offset i ∧ c.copies[i]? = some x) ↔ x ∈ c.vars) ∧
    (x ∉ c.vars → s.resolve x = .global) ∧
    ((∃ offset i, s.resolveCont k = some (.env offset i) ∧ c.copies[i]? = some k) ↔
      k ∈ c.conts) ∧
    (k ∉ c.conts → ∀ form value (d : Draft) (st : State), d.scope = s →
      compileExit form k value d st = unknownCont k d st) := by
  have hvar := @Scope.resolve_body code x params ks c es hx hes
  have hcont := @Scope.resolveCont_body code k params ks c es hk fun e he => (hes e he).2
  have hglobal : x ∉ c.vars → ((procedureScope code params c).under es ks).resolve x = .global := by
    intro hmem
    rw [hvar, List.idxOf?_eq_none_iff.mpr hmem]
  have hunknown : k ∉ c.conts →
      ((procedureScope code params c).under es ks).resolveCont k = none := by
    intro hmem
    rw [hcont, List.idxOf?_eq_none_iff.mpr hmem]
    rfl
  refine ⟨⟨?_, fun hmem => ?_⟩, hglobal, ⟨?_, fun hmem => ?_⟩, fun hmem => ?_⟩
  · rintro ⟨offset, i, hplace, -⟩
    refine Classical.byContradiction fun hmem => ?_
    simp [hglobal hmem] at hplace
  · obtain ⟨i, hi, hget⟩ := exists_idxOf?_of_mem hmem
    refine ⟨_, _, by rw [hvar, hi], ?_⟩
    rw [Captures.copies, List.getElem?_append_right (by omega), Nat.add_sub_cancel_left]
    exact hget
  · rintro ⟨offset, i, hplace, -⟩
    refine Classical.byContradiction fun hmem => ?_
    simp [hunknown hmem] at hplace
  · obtain ⟨i, hi, hget⟩ := exists_idxOf?_of_mem hmem
    refine ⟨_, _, by rw [hcont, hi]; rfl, ?_⟩
    rw [Captures.copies, List.getElem?_append_left (List.getElem?_eq_some_iff.mp hget).1]
    exact hget
  · intro form value d st hd
    have hnone : d.scope.resolveCont k = none := by rw [hd, hunknown hmem]
    unfold compileExit
    rw [scope_bind, hnone]

end Body

/-- Under an operand and a variable of the body's own, the copy of `k` comes first. -/
theorem Comp.reaches_iff_copied_pushed :
    let x := Value.ref .symbol 1
    let k := Value.ref .symbol 2
    let s := (procedureScope .nil [] ⟨[x], [k]⟩).under [.temp, .var (.ref .symbol 3)] []
    s.resolve x = .env 2 1 ∧ s.resolveCont k = some (.env 2 0) ∧
    ((∃ offset i, s.resolve x = .env offset i ∧ [k, x][i]? = some x) ↔ x ∈ [x]) :=
  ⟨rfl, rfl, (reaches_iff_copied (by simp)
    (by simp [Scope.Clear, Entry.name?]) (k := .ref .symbol 2) (by simp)).1⟩

/-! ## A name that the walk misses -/

/-- A system whose symbols are 1, 2, the name 3 of the conditional, and the name 5 of the
procedure form.  Symbol 3 is declared an expander: the built-in procedure `cons`.  The pair 9
is a procedure without parameters whose body, the pair 6, is a conditional on the variable 2
with the branch 1; the code 13 is empty. -/
def State.shadowing : State :=
  { heap :=
      { cells := #[.free 0,
          .symbol ⟨.nil, 0, .plain, none, false, none, .nil⟩,
          .symbol ⟨.nil, 0, .plain, none, false, none, .nil⟩,
          .symbol ⟨.nil, 0, .expander, none, true, some (.ref .native 4), .nil⟩,
          .native ⟨.ref .symbol 3, .exactly 2, .cons⟩,
          .symbol ⟨.nil, 0, .plain, none, false, none, .nil⟩,
          .pair (.ref .symbol 3) (.ref .pair 7),
          .pair (.ref .symbol 2) (.ref .pair 8),
          .pair (.ref .symbol 1) .nil,
          .pair (.ref .symbol 5) (.ref .pair 10),
          .pair .nil (.ref .pair 11),
          .pair .nil (.ref .pair 12),
          .pair (.ref .pair 6) .nil,
          .bytecode ⟨.nil, .nil, .exactly 0, ⟨0⟩⟩,
          .bytecode ⟨.nil, .nil, .exactly 0, ⟨17⟩⟩,
          .free 16, .free 17, .free 18, .free 19, .free 0]
        marks := Array.replicate 20 false
        firstFree := 15
        freeCount := 5
        lowWater := 0
        arena :=
          { slots := #[.header ⟨16, true, false, .code #[]⟩] ++ Array.replicate 16 .inner
              ++ #[.header ⟨2, true, false, .code #[⟨.halt, 0, .nil⟩]⟩, .inner, .inner]
            residue := #[]
            limit := 100 }
        collections := 0 }
    symbols := ⟨#[], 0⟩
    machine := { limit := 16 }
    roots := #[]
    known := { ifForm := .ref .symbol 3, namedLambda := .ref .symbol 5, halt := .ref .bytecode 14 }
    config := { stepLimit := 8, depthLimit := 8 }
    gensyms := 0
    failure := none
    world := { input := [], output := .empty, log := #[], files := [] } }

/-- The procedure is compiled where symbol 1 is a variable. -/
def Draft.shadowing : Draft := ⟨.new (.ref .bytecode 13) [.var (.ref .symbol 1), .frame], #[], [], 0⟩

/-- Instructions of compiled code after a compilation; none if it failed. -/
def Comp.codeAfter (r : EStateM.Result Stop State (Unit × Draft)) (code : Value) : List Instr :=
  match r with
  | .ok _ s => ((s.heap.bytecode? code).map fun b => (s.heap.instrs b).toList).getD []
  | .error _ _ => []

/-- The walk expands the conditional and finds the pair of symbols 2 and 1, a call of 2.  The
compiler takes it for a conditional, and symbol 1, a variable around the procedure, for a
global: the procedure is compiled without an environment. -/
theorem Comp.lambda_shadowing :
    let after := (compileTo invoke 6 (.ref .pair 9) false).run .shadowing .shadowing
    Draft.shadowing.scope.resolve (.ref .symbol 1) = .stack 0 ∧
    codeAfter after (.ref .bytecode 13) = [⟨.const, 0, .ref .bytecode 17⟩] ∧
    codeAfter after (.ref .bytecode 17) =
      [⟨.globalRef, 0, .ref .symbol 2⟩, ⟨.jumpIfFalse, 0, .int 4⟩,
        ⟨.globalRef, 0, .ref .symbol 1⟩, ⟨.jump, 0, .int 5⟩, ⟨.const, 0, .nil⟩,
        ⟨.ret, 0, .nil⟩] := by
  decide +kernel

end CellLisp
