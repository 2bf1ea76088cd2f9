import CellLisp.Proofs.Number.Rounding
import Mathlib.Tactic.NormNum

/-!
# `CellLisp.Proofs.Number.Shortest` — the shortest decimal lies in the interval

The grids get finer by a factor of ten, and the last one is finer than the interval around any
number is wide.  So the search ends with a decimal inside the interval (`inside_shortest`).
-/

namespace CellLisp.Binary32

/-- Numerator of a decimal. -/
def Decimal.num (r : Decimal) : Nat := r.digits * pow10 r.power.toNat

/-- Denominator of a decimal. -/
def Decimal.den (r : Decimal) : Nat := pow10 (-r.power).toNat

theorem pow10_pos (n : Nat) : 0 < pow10 n := Nat.pow_pos (by decide)

theorem Decimal.den_pos (r : Decimal) : 0 < r.den := pow10_pos _

theorem inside_of_lt {closed : Bool} {low high c : Nat} (hlow : low < c) (hhigh : c < high) :
    inside closed low high c = true := by
  unfold inside
  split <;> simp only [Bool.and_eq_true, decide_eq_true_eq] <;> omega

section Grid

variable {closed : Bool} {low v high unit d : Nat}

theorem inside_of_gridNeighbour? (h : gridNeighbour? closed low v high unit = some d) :
    inside closed low high (d * unit) = true := by
  unfold gridNeighbour? at h
  simp only at h
  split at h
  · rename_i hboth
    rw [Bool.and_eq_true] at hboth
    obtain rfl := Option.some.inj h
    split
    · exact hboth.2
    · exact hboth.1
  · split at h
    · obtain rfl := Option.some.inj h
      assumption
    · split at h
      · obtain rfl := Option.some.inj h
        assumption
      · cases h

/-- On a grid that is fine enough the neighbour below lies inside. -/
theorem gridNeighbour?_ne_none (hunit : 0 < unit) (hfine : low + unit ≤ v) (hhigh : v < high) :
    gridNeighbour? closed low v high unit ≠ none := by
  have hdiv : v / unit * unit + v % unit = v := Nat.div_add_mod' v unit
  have hmod := Nat.mod_lt v hunit
  have hbelow : inside closed low high (v / unit * unit) = true :=
    inside_of_lt (by omega) (by omega)
  unfold gridNeighbour?
  simp only [hbelow, Bool.true_and, if_true]
  split <;> nofun

end Grid

theorem shiftLeft_units (n : Nat) : n <<< 151 = n * (4 * unitsPerOne) := by
  rw [Nat.shiftLeft_eq, unitsPerOne, ← Nat.pow_add 2 2 149]

/-- The neighbour that is looked for on one grid. -/
def found? (closed : Bool) (low v high : Nat) (power : Int) : Option Nat :=
  if 0 ≤ power then gridNeighbour? closed low v high (pow10 power.toNat <<< 151)
  else
    let s := pow10 (-power).toNat
    gridNeighbour? closed (low * s) (v * s) (high * s) (1 <<< 151)

theorem searchGrid_succ (closed : Bool) (low v high n : Nat) (power : Int) :
    searchGrid closed low v high (n + 1) power =
      match found? closed low v high power with
      | some d => ⟨d, power⟩
      | none => searchGrid closed low v high n (power - 1) := rfl

/-- A decimal lies inside an interval that is given in units of `2 ^ -151`. -/
def Decimal.Inside (r : Decimal) (closed : Bool) (low high : Nat) : Prop :=
  inside closed (low * r.den) (high * r.den) (r.num * (4 * unitsPerOne)) = true

theorem inside_of_found? {closed : Bool} {low v high d : Nat} {power : Int}
    (h : found? closed low v high power = some d) :
    Decimal.Inside ⟨d, power⟩ closed low high := by
  unfold found? at h
  simp only [shiftLeft_units, Nat.one_mul] at h
  unfold Decimal.Inside Decimal.den Decimal.num
  split at h
  · have hden : pow10 (-power).toNat = 1 := by
      rw [show (-power).toNat = 0 by omega]
      rfl
    simpa only [hden, Nat.mul_one, Nat.mul_assoc] using inside_of_gridNeighbour? h
  · have hnum : pow10 power.toNat = 1 := by
      rw [show power.toNat = 0 by omega]
      rfl
    simpa only [hnum, Nat.mul_one] using inside_of_gridNeighbour? h

/-- The search ends inside the interval if the last grid is fine enough. -/
theorem inside_searchGrid {closed : Bool} {low v high : Nat} (hhigh : v < high) {k : Nat}
    (hk : 0 < k) (hfine : low * pow10 k + 4 * unitsPerOne ≤ v * pow10 k) {n : Nat} {power : Int}
    (hlast : power - n = -(k : Int)) :
    (searchGrid closed low v high (n + 1) power).Inside closed low high := by
  rw [searchGrid_succ]
  cases hfound : found? closed low v high power with
  | some d => exact inside_of_found? hfound
  | none =>
      cases n with
      | succ n => exact inside_searchGrid hhigh hk hfine (by omega)
      | zero =>
          have hpower : power = -(k : Int) := by omega
          subst hpower
          unfold found? at hfound
          rw [if_neg (by omega), Int.neg_neg, Int.toNat_natCast] at hfound
          simp only [shiftLeft_units, Nat.one_mul] at hfound
          refine absurd hfound (gridNeighbour?_ne_none ?_ hfine ?_)
          · exact Nat.mul_pos (by decide) (Nat.two_pow_pos 149)
          · exact Nat.mul_lt_mul_of_pos_right hhigh (pow10_pos k)

/-- The shortest decimal lies in the interval around the number. -/
theorem inside_shortest {x : Binary32} (hz : x.isZero = false) :
    x.shortest.Inside (x.significand % 2 = 0) x.low x.high := by
  have hunit := Nat.two_pow_pos x.shift
  have hgap : 2 ^ x.shift ≤ x.lowerGap * 2 ^ x.shift := by
    refine Nat.le_mul_of_pos_left _ ?_
    unfold lowerGap
    split <;> decide
  have hadd := low_add hz
  have hhigh : 4 * x.significand * 2 ^ x.shift < x.high := by
    unfold high
    omega
  have hfine : x.low * pow10 56 + 4 * unitsPerOne ≤ 4 * x.significand * 2 ^ x.shift * pow10 56 := by
    have hone : 4 * unitsPerOne ≤ pow10 56 := by norm_num [unitsPerOne, pow10]
    have hmul : (x.low + 1) * pow10 56 ≤ 4 * x.significand * 2 ^ x.shift * pow10 56 :=
      Nat.mul_le_mul_right _ (by omega)
    rw [Nat.add_mul, Nat.one_mul] at hmul
    omega
  -- The search starts at the grid `10 ^ 39` and ends at `10 ^ -56` at the latest.
  have hlast : (39 : Int) - (95 : Nat) = -((56 : Nat) : Int) := by decide
  have hsearch : (searchGrid (x.significand % 2 = 0) x.low (4 * x.significand * 2 ^ x.shift) x.high
      (95 + 1) 39).Inside (x.significand % 2 = 0) x.low x.high :=
    inside_searchGrid hhigh (by decide) hfine hlast
  simpa only [shortest, low, high, Nat.shiftLeft_eq, Nat.one_mul] using hsearch

end CellLisp.Binary32
