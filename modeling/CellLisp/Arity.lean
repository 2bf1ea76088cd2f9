/-!
# `CellLisp.Arity` — how many arguments a procedure takes

An arity is one 16-bit number:

    code n        arguments accepted      slots in a frame
    n ≥ 0         exactly n               n
    n < 0         -n - 1 or more          -n   (the extra ones in one list)

Codes are made by wrapping a count into 16 bits, so a count of 32768 or more does
not survive.
-/

namespace CellLisp

/-- An arity code. -/
structure Arity where
  /-- Exact count, or minus one minus the least count. -/
  code : Int
  deriving DecidableEq, Inhabited, Repr

namespace Arity

/-- Whether extra arguments are collected into a list. -/
def isVariadic (a : Arity) : Bool := a.code < 0

/-- Number of required arguments. -/
def required (a : Arity) : Nat := if a.code < 0 then (-(a.code + 1)).toNat else a.code.toNat

/-- Whether a call with `count` arguments is allowed. -/
def accepts (a : Arity) (count : Nat) : Bool :=
  if a.code < 0 then a.required ≤ count else count == a.required

/-- Argument slots of a frame once extra arguments are collected. -/
def slots (a : Arity) : Nat := if a.code < 0 then a.required + 1 else a.required

/-- A count in 16 bits, two's complement. -/
def wrap (count : Nat) : Int := Int.bmod count 65536

/-- Exactly `count` arguments. -/
def exactly (count : Nat) : Arity := ⟨wrap count⟩

/-- At least `count` arguments; `none` when the wrapped count has no opposite in
16 bits. -/
def atLeast? (count : Nat) : Option Arity :=
  if wrap count = -32768 then none else some ⟨-wrap count - 1⟩

/-- The arity with a given code, if that fits 16 bits. -/
def ofInt? (i : Int) : Option Arity := if -32768 ≤ i ∧ i < 32768 then some ⟨i⟩ else none

theorem wrap_of_lt {n : Nat} (h : n < 32768) : wrap n = n := by
  unfold wrap
  rw [Int.bmod_eq_of_le] <;> omega

theorem accepts_exactly {n : Nat} (h : n < 32768) (count : Nat) :
    (exactly n).accepts count = (count == n) := by
  have hn : ¬ (n : Int) < 0 := by omega
  simp [accepts, exactly, required, wrap_of_lt h, hn]

theorem slots_exactly {n : Nat} (h : n < 32768) : (exactly n).slots = n := by
  have hn : ¬ (n : Int) < 0 := by omega
  simp [slots, exactly, required, wrap_of_lt h, hn]

end Arity
end CellLisp
