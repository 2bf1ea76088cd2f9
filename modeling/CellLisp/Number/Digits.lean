import CellLisp.Number.Binary32

/-!
# `CellLisp.Number.Digits` — runs of decimal digits

A run can be as long as a text, so its value is not built up digit by digit: that would
copy the whole number at every step.  Digits go into blocks, and two neighbours of one
width are joined at once:

    read      blocks, by width
    1         1
    12        2
    123       2 1
    1234      4
    12345     4 1

The few blocks that remain are joined at the end.  The value is the usual one
(`value_eq_foldl`).
-/

namespace CellLisp.Digits

/-- An ASCII digit. -/
def isDigit (c : Char) : Bool := '0' ≤ c && c ≤ '9'

/-- What a digit counts. -/
def digitValue (c : Char) : Nat := c.toNat - 48

/-- Consecutive digits. -/
structure Block where
  /-- Their value. -/
  value : Nat
  /-- Their number. -/
  width : Nat
  deriving DecidableEq, Repr

/-- The digits of `a`, then those of `b`. -/
def Block.join (a b : Block) : Block := ⟨a.value * pow10 b.width + b.value, a.width + b.width⟩

/-- Puts a block behind others, the last of which comes first in the list. -/
def push : List Block → Block → List Block
  | [], b => [b]
  | a :: rest, b => if a.width = b.width then push rest (a.join b) else b :: a :: rest

/-- Puts blocks, the last of them first, in front of a block. -/
def joinAll : Block → List Block → Block
  | b, [] => b
  | b, a :: rest => joinAll (a.join b) rest

/-- Blocks of a run, the last first. -/
def blocks (ds : List Char) : List Block := ds.foldl (fun bs c => push bs ⟨digitValue c, 1⟩) []

/-- Value of a run of digits. -/
def value (ds : List Char) : Nat := (joinAll ⟨0, 0⟩ (blocks ds)).value

/-! ## The value -/

/-- Value of a list of blocks, the last first. -/
def total : List Block → Nat
  | [] => 0
  | b :: rest => total rest * pow10 b.width + b.value

theorem pow10_add (m n : Nat) : pow10 (m + n) = pow10 m * pow10 n := Nat.pow_add 10 m n

/-- Two blocks count the same joined and side by side. -/
theorem total_join (a b : Block) (rest : List Block) :
    total (a.join b :: rest) = total (b :: a :: rest) := by
  simp only [total, Block.join, pow10_add, Nat.add_mul, Nat.mul_assoc, Nat.add_assoc]

theorem total_push (bs : List Block) (b : Block) : total (push bs b) = total (b :: bs) := by
  induction bs generalizing b with
  | nil => rfl
  | cons a rest ih =>
    simp only [push]
    split
    · exact (ih _).trans (total_join a b rest)
    · rfl

theorem value_joinAll (b : Block) (bs : List Block) : (joinAll b bs).value = total (b :: bs) := by
  induction bs generalizing b with
  | nil => simp [joinAll, total]
  | cons a rest ih => exact (ih _).trans (total_join a b rest)

theorem total_foldl_push (ds : List Char) (bs : List Block) :
    total (ds.foldl (fun bs c => push bs ⟨digitValue c, 1⟩) bs)
      = ds.foldl (fun n c => n * 10 + digitValue c) (total bs) := by
  induction ds generalizing bs with
  | nil => rfl
  | cons c ds ih =>
    simp only [List.foldl_cons]
    rw [ih, total_push]
    rfl

/-- The value of a run, digit by digit. -/
theorem value_eq_foldl (ds : List Char) :
    value ds = ds.foldl (fun n c => n * 10 + digitValue c) 0 := by
  have h : total (⟨0, 0⟩ :: blocks ds) = total (blocks ds) := by simp [total, pow10]
  exact (value_joinAll _ _).trans (h.trans (total_foldl_push ds []))

end CellLisp.Digits
