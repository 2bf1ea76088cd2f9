import CellLisp.Proofs.Machine.Wp
import CellLisp.Proofs.Code.Proc

/-!
# `CellLisp.Proofs.Library.Procedures` — the procedures of the core library, as they are compiled

The forms that the definitions of the core library come to when its expanders have done their work:
a `while` is a loop with a continuation for leaving it, `when` is a condition, and the
documentation of a procedure has gone to its record.  Code refers to a global by its symbol, here
by the cell that the symbol of a name has; of the name of a variable nothing is left in code, so
that numbers do for them.
-/

namespace CellLisp

theorem Proc.length_instrs (p : Proc) : p.instrs.length = p.entry.length + (p.body.length + 1) := by
  simp [instrs, sites, Core.length_gen]

namespace Library

/-- A variable, or a continuation. -/
abbrev var (n : Nat) : Value := .int n

/-- The value of a variable. -/
abbrev get (n : Nat) : Core := .ref (var n) none

/-- The continuation that leaves a loop. -/
abbrev leaving : Value := .nil

section Forms

variable (σ : String → Nat)

/-- The symbol with a name. -/
abbrev sym (name : String) : Value := .ref .symbol (σ name)

/-- A call of what a global names. -/
abbrev app (name : String) (args : List Core) : Core := .call args (.ref (sym σ name) none)

/-- Forms in sequence, the last apart, as long as a test holds. -/
def whileLoop (test : Core) (body : List Core) : Core :=
  .withCont leaving <| .loop <|
    .cond (app σ "not" [test]) (.exit leaving (.const .nil)) (.const .nil) :: body

/-- A procedure with so many arguments, which are its first variables. -/
def procedure (arity : Nat) (body : Core) : Proc where
  scope := .new .nil (.frame :: (List.range arity).reverse.map fun n => .var (var n))
  least? := none
  tail := true
  body := body

/-- `(length l)` -/
def length : Proc := procedure 1 <|
  .bind [var 1] [.const (.int 0)] <|
    .seq [whileLoop σ (app σ "cons?" [get 0])
      [.assign (var 1) (app σ "+" [get 1, .const (.int 1)]),
       .assign (var 0) (app σ "cdr" [get 0])]] <|
    get 1

/-- `(reverse l)` -/
def reverse : Proc := procedure 1 <|
  .bind [var 1] [.const .nil] <|
    .seq [whileLoop σ (app σ "cons?" [get 0])
      [.assign (var 1) (app σ "cons" [app σ "car" [get 0], get 1]),
       .assign (var 0) (app σ "cdr" [get 0])]] <|
    get 1

/-- `(append a b)` -/
def append : Proc := procedure 2 <|
  .bind [var 2] [app σ "reverse" [get 0]] <|
    .seq [whileLoop σ (app σ "cons?" [get 2])
      [.assign (var 1) (app σ "cons" [app σ "car" [get 2], get 1]),
       .assign (var 2) (app σ "cdr" [get 2])]] <|
    get 1

/-- `(map f l)` -/
def map : Proc := procedure 2 <|
  .bind [var 2] [.const .nil] <|
    .seq [whileLoop σ (app σ "cons?" [get 1])
      [.assign (var 2) (app σ "cons" [.call [app σ "car" [get 1]] (get 0), get 2]),
       .assign (var 1) (app σ "cdr" [get 1])]] <|
    app σ "reverse" [get 2]

/-- `(foldl f acc l)` -/
def foldl : Proc := procedure 3 <|
  .seq [whileLoop σ (app σ "cons?" [get 2])
    [.assign (var 1) (.call [get 1, app σ "car" [get 2]] (get 0)),
     .assign (var 2) (app σ "cdr" [get 2])]] <|
  get 1

/-- `(nth n l)` -/
def nth : Proc := procedure 2 <|
  .seq [whileLoop σ (app σ ">" [get 0, .const (.int 0)])
    [.assign (var 1) (app σ "cdr" [get 1]),
     .assign (var 0) (app σ "-" [get 0, .const (.int 1)])]] <|
  app σ "car" [get 1]

/-- `(caar l)` -/
def caar : Proc := procedure 1 <| app σ "car" [app σ "car" [get 0]]

/-- `(assoc key alist)`, with a continuation for the pair that is found -/
def assoc : Proc := procedure 2 <|
  .withCont (var 2) <|
    .seq [whileLoop σ (app σ "cons?" [get 1])
      [.cond (app σ "equal?" [app σ "caar" [get 1], get 0])
        (.exit (var 2) (app σ "car" [get 1])) (.const .nil),
       .assign (var 1) (app σ "cdr" [get 1])]] <|
    .const .nil

/-- `(params-arity params)` -/
def paramsArity : Proc := procedure 1 <|
  .bind [var 1] [.const (.int 0)] <|
    .withCont (var 2) <| .loop [
      .cond (app σ "cons?" [get 0])
        (.seq [.assign (var 1) (app σ "+" [get 1, .const (.int 1)])]
          (.assign (var 0) (app σ "cdr" [get 0])))
        (.exit (var 2)
          (.cond (app σ "nil?" [get 0]) (get 1) (app σ "-" [.const (.int (-1)), get 1])))]

/-- `(defun name params . body)`, an expander, with the form that stands for the symbol
`function` -/
def defun (function : Value) : Proc where
  scope := .new .nil [.frame, .var (var 2), .var (var 1), .var (var 0)]
  least? := some 2
  tail := true
  body := app σ "list" [
    .const (sym σ "do"),
    app σ "list" [
      .const (sym σ "comptime"),
      app σ "list" [
        .const (sym σ "declare!"),
        app σ "list" [.const (sym σ "quote"), get 0],
        .const function,
        app σ "params-arity" [get 1]]],
    app σ "list" [
      .const (sym σ "set!"),
      get 0,
      app σ "cons" [.const (sym σ "named-lambda"),
        app σ "cons" [get 0, app σ "cons" [get 1, get 2]]]],
    app σ "list" [.const (sym σ "quote"), get 0]]

/-- The procedures, by name and number of arguments. -/
def procedures : List (String × Nat × Proc) :=
  [("params-arity", 1, paramsArity σ), ("length", 1, length σ), ("reverse", 1, reverse σ), ("append", 2, append σ), ("map", 2, map σ),
   ("foldl", 3, foldl σ), ("nth", 2, nth σ), ("caar", 1, caar σ), ("assoc", 2, assoc σ)]

/-- The procedures take three arguments at most, and none of them is big. -/
theorem procedures_fit {name : String} {n : Nat} {p : Proc} (h : (name, n, p) ∈ procedures σ) :
    p.least? = none ∧ p.tail = true ∧ n ≤ 3 ∧ p.body.height ≤ 4 ∧ p.instrs.length < 2 ^ 32 := by
  have hall : ∀ e ∈ procedures σ, e.2.2.least? = none ∧ e.2.2.tail = true ∧ e.2.1 ≤ 3 ∧
      e.2.2.body.height ≤ 4 ∧ e.2.2.body.length ≤ 64 := by
    simp only [procedures, List.forall_mem_cons, List.not_mem_nil, false_implies, implies_true,
      and_true]
    refine ⟨?_, ?_, ?_, ?_, ?_, ?_, ?_, ?_, ?_⟩ <;>
      exact ⟨rfl, rfl, Nat.le_of_ble_eq_true rfl, Nat.le_of_ble_eq_true rfl,
        Nat.le_of_ble_eq_true rfl⟩
  obtain ⟨hleast, htail, hn, hheight, hlength⟩ := hall _ h
  refine ⟨hleast, htail, hn, hheight, ?_⟩
  rw [Proc.length_instrs, Proc.entry, hleast, List.length_nil]
  dsimp only at hlength
  omega

end Forms

/-- The built-in procedures that they call. -/
def builtins : List (String × Int × Primitive) :=
  [("+", -1, .add), ("-", -2, .sub), (">", -2, .numGt), ("equal?", 2, .equal), ("not", 1, .not),
   ("nil?", 1, .isNil), ("cons?", 1, .isPair), ("cons", 2, .cons), ("car", 1, .head),
   ("cdr", 1, .tail), ("list", -1, .list)]

example : builtins ⊆ Primitive.table := by decide

end Library
end CellLisp
