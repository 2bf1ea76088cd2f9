import CellLisp.Number.Digits
import Mathlib.Data.Nat.Digits.Defs

/-!
# `CellLisp.Proofs.Number.Digits` — what runs of digits count

The digits of a natural count as much as it, zeros in front of a run count nothing, and a run
that does not begin with a zero counts as much as its length says.
-/

namespace CellLisp.Digits

/-- The digits of a natural. -/
def digitsOf (n : Nat) : List Char := (toString n).toList

theorem digitsOf_eq (n : Nat) : digitsOf n = Nat.toDigits 10 n := by
  rw [digitsOf, Nat.toString_eq_ofList_toDigits, String.toList_ofList]

theorem isDigit_of_mem_digitsOf {n : Nat} {c : Char} (hc : c ∈ digitsOf n) : isDigit c = true := by
  rw [digitsOf_eq] at hc
  exact Nat.isDigit_of_mem_toDigits (by decide) (by decide) hc

theorem digitsOf_ne_nil (n : Nat) : digitsOf n ≠ [] := by
  rw [digitsOf_eq]
  exact Nat.toDigits_ne_nil

theorem value_eq_ofDigitChars (ds : List Char) : value ds = Nat.ofDigitChars 10 ds 0 := by
  rw [value_eq_foldl, Nat.ofDigitChars_eq_foldl]
  congr 1
  funext n c
  rw [Nat.mul_comm]
  rfl

@[simp] theorem value_digitsOf (n : Nat) : value (digitsOf n) = n := by
  rw [value_eq_ofDigitChars, digitsOf_eq, Nat.ofDigitChars_ten_toDigits]

theorem foldl_value (ds : List Char) (n : Nat) :
    ds.foldl (fun n c => n * 10 + digitValue c) n = n * 10 ^ ds.length + value ds := by
  rw [value_eq_foldl]
  induction ds generalizing n with
  | nil => simp
  | cons c ds ih =>
      simp only [List.foldl_cons, List.length_cons]
      rw [ih, ih (0 * 10 + digitValue c), Nat.pow_succ]
      ring

theorem value_append (as bs : List Char) :
    value (as ++ bs) = value as * 10 ^ bs.length + value bs := by
  rw [value_eq_foldl (as ++ bs), List.foldl_append, ← value_eq_foldl as, foldl_value]

theorem value_cons (c : Char) (ds : List Char) :
    value (c :: ds) = digitValue c * 10 ^ ds.length + value ds := by
  rw [← List.singleton_append, value_append]
  congr 2
  simp [value_eq_foldl]

@[simp] theorem value_replicate_zero (n : Nat) : value (List.replicate n '0') = 0 := by
  induction n with
  | zero => rfl
  | succ n ih => rw [List.replicate_succ, value_cons, ih]; simp [digitValue]

/-- Zeros in front count nothing. -/
theorem value_dropWhile_zero (ds : List Char) : value (ds.dropWhile (· == '0')) = value ds := by
  induction ds with
  | nil => rfl
  | cons c ds ih =>
      rw [List.dropWhile_cons]
      split
      · rename_i hc
        obtain rfl : c = '0' := by simpa using hc
        rw [ih, value_cons]
        simp [digitValue]
      · rfl

theorem toNat_of_isDigit {c : Char} (hc : isDigit c = true) : 48 ≤ c.toNat ∧ c.toNat ≤ 57 := by
  simp only [isDigit, Bool.and_eq_true, decide_eq_true_eq] at hc
  exact ⟨hc.1, hc.2⟩

theorem digitValue_lt {c : Char} (hc : isDigit c = true) : digitValue c < 10 := by
  have := toNat_of_isDigit hc
  unfold digitValue
  omega

theorem digitValue_pos {c : Char} (hc : isDigit c = true) (hz : c ≠ '0') : 0 < digitValue c := by
  have h := toNat_of_isDigit hc
  have hne : c.toNat ≠ 48 := fun e => hz (Char.toNat_inj.1 e)
  unfold digitValue
  omega

theorem value_lt {ds : List Char} (hds : ∀ c ∈ ds, isDigit c = true) :
    value ds < 10 ^ ds.length := by
  induction ds with
  | nil => simp [value_eq_foldl]
  | cons c ds ih =>
      have hc := digitValue_lt (hds c List.mem_cons_self)
      have ih := ih fun c hc => hds c (List.mem_cons_of_mem _ hc)
      rw [value_cons, List.length_cons, Nat.pow_succ]
      have : digitValue c * 10 ^ ds.length ≤ 9 * 10 ^ ds.length :=
        Nat.mul_le_mul_right _ (by omega)
      omega

/-- A run that does not begin with a zero. -/
theorem le_value {c : Char} {ds : List Char} (hc : isDigit c = true) (hz : c ≠ '0') :
    10 ^ ds.length ≤ value (c :: ds) := by
  rw [value_cons]
  exact Nat.le_add_right_of_le (Nat.le_mul_of_pos_left _ (digitValue_pos hc hz))

/-- How many digits a natural has. -/
theorem length_digitsOf {n : Nat} (hn : 0 < n) :
    ∃ l, (digitsOf n).length = l + 1 ∧ 10 ^ l ≤ n ∧ n < 10 ^ (l + 1) := by
  have hiff := fun k (hk : 0 < k) => Nat.length_toDigits_le_iff (b := 10) (n := n) (k := k)
    (by decide) hk
  rw [digitsOf_eq]
  obtain ⟨l, hl⟩ : ∃ l, (Nat.toDigits 10 n).length = l + 1 :=
    Nat.exists_eq_add_one.2 (List.length_pos_iff.2 Nat.toDigits_ne_nil)
  refine ⟨l, hl, ?_, (hiff (l + 1) (Nat.succ_pos l)).1 (Nat.le_of_eq hl)⟩
  rcases Nat.eq_zero_or_pos l with rfl | hpos
  · exact hn
  · refine Nat.le_of_not_lt fun hlt => ?_
    have := (hiff l hpos).2 hlt
    omega

end CellLisp.Digits
