import CellLisp.Number.Shortest
import Mathlib.Tactic.Ring
import Mathlib.Tactic.Linarith

/-!
# `CellLisp.Proofs.Number.Rounding` — what rounds to a number

A finite number other than zero is `S * 2 ^ e` units of `2 ^ -149`, with `S` below `2 ^ 24` and
no less than `2 ^ 23` unless `e` is zero.  Ratios round to it that lie within half a unit of `S`
of it, or within a quarter just above a power of two; the ends count iff `S` is even.  This is
the interval in which the shortest decimal is looked for, so whatever is found there rounds to
the number again (`ofRatio_of_inside`).
-/

namespace CellLisp

/-- A quotient within half of a natural rounds to it; just half away if it is even. -/
theorem roundDiv_eq {n d m : Nat} (hd : 0 < d) (hlow : 2 * m * d ≤ 2 * n + d)
    (hhigh : 2 * n ≤ 2 * m * d + d)
    (hodd : m % 2 = 1 → 2 * m * d < 2 * n + d ∧ 2 * n < 2 * m * d + d) : roundDiv n d = m := by
  have hmod := Nat.mod_lt n hd
  have hn : n = n / d * d + n % d := (Nat.div_add_mod' n d).symm
  unfold roundDiv
  generalize n / d = q at *
  generalize n % d = r at *
  have hle : q ≤ m := by
    have h : 2 * q * d < (2 * m + 2) * d := by linarith
    have := Nat.lt_of_mul_lt_mul_right h
    omega
  have hge : m ≤ q + 1 := by
    have h : 2 * m * d < (2 * q + 3) * d := by linarith
    have := Nat.lt_of_mul_lt_mul_right h
    omega
  obtain rfl | rfl : m = q ∨ m = q + 1 := by omega
  · have hr : 2 * r ≤ d := by linarith
    have hstrict : m % 2 = 1 → 2 * r < d := fun h => by linarith [(hodd h).2]
    simp only
    split_ifs <;> omega
  · have hr : d ≤ 2 * r := by linarith
    have hstrict : (q + 1) % 2 = 1 → d < 2 * r := fun h => by linarith [(hodd h).1]
    simp only
    split_ifs <;> omega

theorem roundDiv_mul_left {n d k : Nat} (hk : 0 < k) :
    roundDiv (n * k) (d * k) = roundDiv n d := by
  simp only [roundDiv, Nat.mul_div_mul_right _ _ hk, Nat.mul_mod_mul_right, ← Nat.mul_assoc,
    Nat.mul_lt_mul_right hk]

namespace Binary32

/-- Powers of two on both sides. -/
theorem mul_two_pow_le_iff {n d a b : Nat} (k : Nat) :
    d * 2 ^ (a + k) ≤ n * 2 ^ (b + k) ↔ d * 2 ^ a ≤ n * 2 ^ b := by
  rw [Nat.pow_add, Nat.pow_add, ← Nat.mul_assoc, ← Nat.mul_assoc]
  exact Nat.mul_le_mul_right_iff (Nat.two_pow_pos k)

theorem floorLog2_eq (n d : Nat) : floorLog2 n d =
    if d * 2 ^ n.log2 ≤ n * 2 ^ d.log2 then (n.log2 : Int) - d.log2
    else (n.log2 : Int) - d.log2 - 1 := by
  unfold floorLog2
  refine if_congr ?_ rfl rfl
  simp only [Nat.shiftLeft_eq]
  split
  · obtain ⟨k, hk⟩ := Nat.exists_eq_add_of_le (show d.log2 ≤ n.log2 by omega)
    have hto : ((n.log2 : Int) - d.log2).toNat = k := by omega
    have hiff := mul_two_pow_le_iff (n := n) (d := d) (a := k) (b := 0) d.log2
    rw [Nat.zero_add, Nat.add_comm k, ← hk, Nat.pow_zero, Nat.mul_one] at hiff
    rw [hto, hiff]
  · obtain ⟨k, hk⟩ := Nat.exists_eq_add_of_le (show n.log2 ≤ d.log2 by omega)
    have hto : (-((n.log2 : Int) - d.log2)).toNat = k := by omega
    have hiff := mul_two_pow_le_iff (n := n) (d := d) (a := 0) (b := k) n.log2
    rw [Nat.zero_add, Nat.add_comm k, ← hk, Nat.pow_zero, Nat.mul_one] at hiff
    rw [hto, hiff]

/-- The exponent of a ratio is the greatest power of two that it reaches. -/
theorem le_floorLog2_iff {n d : Nat} (hn : 0 < n) (hd : 0 < d) (a b : Nat) :
    (a : Int) - b ≤ floorLog2 n d ↔ d * 2 ^ a ≤ n * 2 ^ b := by
  have hn_le : 2 ^ n.log2 ≤ n := Nat.log2_self_le hn.ne'
  have hd_le : 2 ^ d.log2 ≤ d := Nat.log2_self_le hd.ne'
  have hn_lt : n < 2 ^ (n.log2 + 1) := Nat.lt_log2_self
  have hd_lt : d < 2 ^ (d.log2 + 1) := Nat.lt_log2_self
  rw [floorLog2_eq]
  generalize n.log2 = ln at *
  generalize d.log2 = ld at *
  constructor
  · intro hab
    rw [← mul_two_pow_le_iff ld]
    split at hab
    · rename_i h
      calc d * 2 ^ (a + ld) ≤ d * 2 ^ (ln + b) :=
            Nat.mul_le_mul_left _ (Nat.pow_le_pow_right (by decide) (by omega))
        _ ≤ n * 2 ^ (ld + b) := (mul_two_pow_le_iff b).2 h
        _ = n * 2 ^ (b + ld) := by rw [Nat.add_comm]
    · calc d * 2 ^ (a + ld) ≤ 2 ^ (ld + 1) * 2 ^ (a + ld) := Nat.mul_le_mul_right _ hd_lt.le
        _ = 2 ^ (a + ld + 1 + ld) := by rw [← Nat.pow_add]; congr 1; omega
        _ ≤ 2 ^ (ln + (b + ld)) := Nat.pow_le_pow_right (by decide) (by omega)
        _ = 2 ^ ln * 2 ^ (b + ld) := Nat.pow_add ..
        _ ≤ n * 2 ^ (b + ld) := Nat.mul_le_mul_right _ hn_le
  · intro hab
    rw [← mul_two_pow_le_iff ld] at hab
    by_contra hlt
    refine absurd hab (Nat.not_le.2 ?_)
    split at hlt
    · calc n * 2 ^ (b + ld) < 2 ^ (ln + 1) * 2 ^ (b + ld) :=
            Nat.mul_lt_mul_of_pos_right hn_lt (Nat.two_pow_pos _)
        _ = 2 ^ (ln + b + 1 + ld) := by rw [← Nat.pow_add]; congr 1; omega
        _ ≤ 2 ^ (ld + (a + ld)) := Nat.pow_le_pow_right (by decide) (by omega)
        _ = 2 ^ ld * 2 ^ (a + ld) := Nat.pow_add ..
        _ ≤ d * 2 ^ (a + ld) := Nat.mul_le_mul_right _ hd_le
    · rename_i h
      calc n * 2 ^ (b + ld) = n * 2 ^ (ld + b) := by rw [Nat.add_comm]
        _ < d * 2 ^ (ln + b) := Nat.lt_of_not_le fun hle => h ((mul_two_pow_le_iff b).1 hle)
        _ ≤ d * 2 ^ (a + ld) :=
            Nat.mul_le_mul_left _ (Nat.pow_le_pow_right (by decide) (by omega))

/-- Units of `2 ^ -149` in one. -/
def unitsPerOne : Nat := 2 ^ 149

/-- A ratio as a significand and a power of two, rounded: the exponent, above `-149`, and the
significand. -/
def split (n d : Nat) : Nat × Nat :=
  let e := (max (floorLog2 n d - 23) (-149) + 149).toNat
  (e, roundDiv (n * unitsPerOne) (d * 2 ^ e))

theorem ofRatio_eq (negative : Bool) {n : Nat} (hn : n ≠ 0) (d : Nat) :
    ofRatio negative n d =
      let m := (split n d).1 * 2 ^ 23 + (split n d).2
      if 0x7F800000 ≤ m then infinity negative else ofFields negative m := by
  have hmagnitude : ∀ q : Int, -149 ≤ q → (q + 149).toNat <<< 23
      + (if 0 ≤ q then roundDiv n (d <<< q.toNat) else roundDiv (n <<< (-q).toNat) d)
      = (q + 149).toNat * 2 ^ 23 + roundDiv (n * unitsPerOne) (d * 2 ^ (q + 149).toNat) := by
    intro q hq
    rw [Nat.shiftLeft_eq, Nat.shiftLeft_eq, Nat.shiftLeft_eq]
    congr 1
    split
    · rw [show (q + 149).toNat = q.toNat + 149 by omega, Nat.pow_add, ← Nat.mul_assoc d]
      exact (roundDiv_mul_left (Nat.two_pow_pos 149)).symm
    · have hexp : unitsPerOne = 2 ^ (-q).toNat * 2 ^ (q + 149).toNat := by
        rw [← Nat.pow_add, unitsPerOne]
        congr 1
        omega
      rw [hexp, ← Nat.mul_assoc n]
      exact (roundDiv_mul_left (Nat.two_pow_pos _)).symm
  unfold ofRatio
  rw [if_neg hn]
  exact congrArg (fun m => if 0x7F800000 ≤ m then infinity negative else ofFields negative m)
    (hmagnitude _ (le_max_right _ _))

/-- Where the significand of a ratio begins. -/
theorem exponent_split {n d : Nat} (hn : 0 < n) (hd : 0 < d) :
    n * unitsPerOne < d * 2 ^ ((split n d).1 + 24) ∧
      ((split n d).1 = 0 ∨ d * 2 ^ ((split n d).1 + 23) ≤ n * unitsPerOne) := by
  have hiff : ∀ a : Nat, (a : Int) - 149 ≤ floorLog2 n d ↔ d * 2 ^ a ≤ n * unitsPerOne :=
    fun a => le_floorLog2_iff hn hd a 149
  have he : (split n d).1 = (max (floorLog2 n d - 23) (-149) + 149).toNat := rfl
  generalize (split n d).1 = e at *
  constructor
  · refine Nat.lt_of_not_le fun h => ?_
    have := (hiff _).2 h
    omega
  · by_cases hz : e = 0
    · exact .inl hz
    · exact .inr ((hiff _).1 (by omega))

/-- The significand of a ratio in the interval around a number is that of the number, or twice
that when the number is a power of two and the ratio is below it. -/
theorem split_eq {n d e S : Nat} (hn : 0 < n) (hd : 0 < d) {gap : Nat} (hgap : gap ≤ 2)
    (hS : S < 2 ^ 24) (hnormal : 0 < e → 2 ^ 23 ≤ S) (hpower : S = 2 ^ 23 → 0 < e → gap ≤ 1)
    (hlow : 4 * S * (d * 2 ^ e) ≤ 4 * (n * unitsPerOne) + gap * (d * 2 ^ e))
    (hhigh : 4 * (n * unitsPerOne) ≤ (4 * S + 2) * (d * 2 ^ e))
    (hodd : S % 2 = 1 → 4 * S * (d * 2 ^ e) < 4 * (n * unitsPerOne) + gap * (d * 2 ^ e) ∧
      4 * (n * unitsPerOne) < (4 * S + 2) * (d * 2 ^ e)) :
    (split n d).1 * 2 ^ 23 + (split n d).2 = e * 2 ^ 23 + S := by
  obtain ⟨hup, hdown⟩ := exponent_split hn hd
  have hsig : (split n d).2 = roundDiv (n * unitsPerOne) (d * 2 ^ (split n d).1) := rfl
  rw [hsig]
  generalize (split n d).1 = e' at *
  generalize n * unitsPerOne = N at *
  have hpow : ∀ a k, d * 2 ^ (a + k) = d * 2 ^ a * 2 ^ k := fun a k => by
    rw [Nat.pow_add, Nat.mul_assoc]
  have hlt_of : ∀ {a b}, d * 2 ^ a < d * 2 ^ b → a < b := fun h =>
    (Nat.pow_lt_pow_iff_right (by decide)).1 (Nat.lt_of_mul_lt_mul_left h)
  have hD : 0 < d * 2 ^ e := Nat.mul_pos hd (Nat.two_pow_pos e)
  have htop : N < d * 2 ^ (e + 24) := by
    rw [hpow]
    have : (4 * S + 2) * (d * 2 ^ e) < 4 * 2 ^ 24 * (d * 2 ^ e) :=
      Nat.mul_lt_mul_of_pos_right (by omega) hD
    linarith
  have hle : e' ≤ e := by
    rcases hdown with rfl | hdown
    · exact Nat.zero_le e
    · have := hlt_of (Nat.lt_of_le_of_lt hdown htop)
      omega
  by_cases hcase : e = 0 ∨ d * 2 ^ (e + 23) ≤ N
  · -- The ratio has the exponent of the number.
    obtain rfl : e' = e := by
      rcases hcase with rfl | hcase
      · omega
      · have := hlt_of (Nat.lt_of_le_of_lt hcase hup)
        omega
    congr 1
    have hgapD : gap * (d * 2 ^ e') ≤ 2 * (d * 2 ^ e') := Nat.mul_le_mul_right _ hgap
    generalize d * 2 ^ e' = D at *
    refine roundDiv_eq hD (by linarith) (by linarith) fun h => ⟨?_, ?_⟩
    · linarith [(hodd h).1]
    · linarith [(hodd h).2]
  · -- The number is a power of two and the ratio is below it.
    obtain ⟨hpos, hbelow⟩ := not_or.1 hcase
    obtain ⟨k, rfl⟩ : ∃ k, e = k + 1 := ⟨e - 1, by omega⟩
    have hbelow : N < d * 2 ^ (k + 1) * 2 ^ 23 := by
      rw [← hpow]
      exact Nat.lt_of_not_le hbelow
    have hSle : S ≤ 2 ^ 23 := by
      have h : 4 * S * (d * 2 ^ (k + 1)) < (4 * 2 ^ 23 + gap) * (d * 2 ^ (k + 1)) := by linarith
      have := Nat.lt_of_mul_lt_mul_right h
      omega
    obtain rfl : S = 2 ^ 23 := Nat.le_antisymm hSle (hnormal (Nat.succ_pos k))
    have hgap1 := hpower rfl (Nat.succ_pos k)
    have hgapD : gap * (d * 2 ^ (k + 1)) ≤ 1 * (d * 2 ^ (k + 1)) := Nat.mul_le_mul_right _ hgap1
    have hhalf : d * 2 ^ (k + 1) = 2 * (d * 2 ^ k) := by rw [hpow, pow_one, Nat.mul_comm]
    have hDk : 0 < d * 2 ^ k := Nat.mul_pos hd (Nat.two_pow_pos k)
    have hk : e' = k := by
      have hlow' : d * 2 ^ (k + 23) < N := by
        rw [hpow]
        rw [hhalf] at hlow hgapD
        generalize d * 2 ^ k = D at *
        omega
      have hge := hlt_of (Nat.lt_trans hlow' hup)
      rcases hdown with rfl | hdown
      · omega
      · rw [← hpow] at hbelow
        have := hlt_of (Nat.lt_of_le_of_lt hdown hbelow)
        omega
    subst hk
    rw [hhalf] at hlow hgapD hbelow
    have hround : roundDiv N (d * 2 ^ e') = 2 ^ 24 := by
      generalize d * 2 ^ e' = D at *
      exact roundDiv_eq hDk (by omega) (by omega) fun h => absurd h (by decide)
    rw [hround]
    omega

/-! ## Fields -/

section Fields

variable {x : Binary32}

theorem significand_lt (x : Binary32) : x.significand < 2 ^ 24 := by
  simp only [significand, fraction]
  split <;> omega

theorem le_significand (h : 0 < x.shift) : 2 ^ 23 ≤ x.significand := by
  simp only [significand, shift] at *
  split <;> omega

theorem lowerGap_le (x : Binary32) : x.lowerGap ≤ 2 := by
  unfold lowerGap
  split <;> omega

theorem lowerGap_le_one (hs : x.significand = 2 ^ 23) (h : 0 < x.shift) : x.lowerGap ≤ 1 := by
  simp only [significand, shift] at hs h
  have hf : x.fraction = 0 := by
    split at hs <;> omega
  have he : 1 < x.exponent := by omega
  simp [lowerGap, hf, he]

/-- Exponent and significand make up the magnitude field. -/
theorem shift_significand (x : Binary32) :
    x.shift * 2 ^ 23 + x.significand = x.bits.toNat % 2 ^ 31 := by
  have hlt : x.bits.toNat < 2 ^ 32 := x.bits.toNat_lt
  simp only [shift, significand, exponent, fraction, Nat.shiftRight_eq_div_pow]
  split <;> omega

theorem magnitude_lt (hx : x.isFinite = true) : x.bits.toNat % 2 ^ 31 < 0x7F800000 := by
  have hlt : x.bits.toNat < 2 ^ 32 := x.bits.toNat_lt
  simp only [isFinite, exponent, Nat.shiftRight_eq_div_pow, bne_iff_ne, ne_eq] at hx
  omega

theorem shift_lt (hx : x.isFinite = true) : x.shift < 254 := by
  simp only [isFinite, bne_iff_ne, ne_eq] at hx
  have hlt : x.exponent < 256 := Nat.mod_lt _ (by decide)
  simp only [shift]
  omega

theorem significand_pos (hz : x.isZero = false) : 0 < x.significand := by
  refine Nat.pos_of_ne_zero fun h => ?_
  have hmag := shift_significand x
  simp only [isZero, beq_eq_false_iff_ne] at hz
  have : x.shift = 0 := by
    by_contra hs
    have := le_significand (x := x) (by omega)
    omega
  omega

/-- Sign and magnitude make up the number. -/
theorem ofFields_eq (x : Binary32) : ofFields x.negative (x.bits.toNat % 2 ^ 31) = x := by
  have hlt : x.bits.toNat < 2 ^ 32 := x.bits.toNat_lt
  have hbits : (if x.negative then 0x80000000 else 0) + x.bits.toNat % 2 ^ 31 = x.bits.toNat := by
    simp only [negative, Nat.shiftRight_eq_div_pow, beq_iff_eq]
    split <;> omega
  unfold ofFields
  rw [hbits, UInt32.ofNat_toNat]

end Fields

/-! ## The interval -/

section Interval

variable {x : Binary32}

/-- The ends of the interval around a number, in units of `2 ^ -151`. -/
def low (x : Binary32) : Nat := 4 * x.significand * 2 ^ x.shift - x.lowerGap * 2 ^ x.shift

/-- The ends of the interval around a number, in units of `2 ^ -151`. -/
def high (x : Binary32) : Nat := 4 * x.significand * 2 ^ x.shift + 2 * 2 ^ x.shift

theorem low_add (hz : x.isZero = false) :
    x.low + x.lowerGap * 2 ^ x.shift = 4 * x.significand * 2 ^ x.shift := by
  refine Nat.sub_add_cancel (Nat.mul_le_mul_right _ ?_)
  have := lowerGap_le x
  have := significand_pos hz
  omega

theorem low_pos (hz : x.isZero = false) : 0 < x.low := by
  have hadd := low_add hz
  have hgap : x.lowerGap * 2 ^ x.shift ≤ 2 * 2 ^ x.shift :=
    Nat.mul_le_mul_right _ (lowerGap_le x)
  have hsig : 4 * 2 ^ x.shift ≤ 4 * x.significand * 2 ^ x.shift :=
    Nat.mul_le_mul_right _ (by have := significand_pos hz; omega)
  have := Nat.two_pow_pos x.shift
  omega

theorem inside_le {closed : Bool} {low high c : Nat} (h : inside closed low high c = true) :
    low ≤ c ∧ c ≤ high := by
  unfold inside at h
  split at h <;> simp only [Bool.and_eq_true, decide_eq_true_eq] at h <;> omega

theorem inside_lt {low high c : Nat} (h : inside false low high c = true) :
    low < c ∧ c < high := by
  simpa [inside] using h

/-- What lies in the interval around a number rounds to it. -/
theorem ofRatio_of_inside (hx : x.isFinite = true) (hz : x.isZero = false) {n d : Nat}
    (hd : 0 < d)
    (h : inside (x.significand % 2 = 0) (x.low * d) (x.high * d) (n * (4 * unitsPerOne)) = true) :
    ofRatio x.negative n d = x := by
  have hlow : x.low * d + x.lowerGap * (d * 2 ^ x.shift)
      = 4 * x.significand * (d * 2 ^ x.shift) := by
    have := congrArg (· * d) (low_add hz)
    simp only [Nat.add_mul] at this
    linarith
  have hhigh : x.high * d = (4 * x.significand + 2) * (d * 2 ^ x.shift) := by
    unfold high
    ring
  have hn : 0 < n := by
    refine Nat.pos_of_ne_zero fun hn => ?_
    subst hn
    have := (inside_le h).1
    have := Nat.mul_pos (low_pos hz) hd
    omega
  have hsplit := split_eq hn hd (lowerGap_le x) (significand_lt x) le_significand lowerGap_le_one
    (by linarith [(inside_le h).1]) (by linarith [(inside_le h).2]) fun hodd => by
      have hclosed : decide (x.significand % 2 = 0) = false := by simp [hodd]
      rw [hclosed] at h
      constructor
      · linarith [(inside_lt h).1]
      · linarith [(inside_lt h).2]
  rw [shift_significand] at hsplit
  rw [ofRatio_eq _ hn.ne']
  simp only [hsplit]
  rw [if_neg (Nat.not_le.2 (magnitude_lt hx)), ofFields_eq]

end Interval

end Binary32
end CellLisp
