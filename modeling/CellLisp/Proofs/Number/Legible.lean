import CellLisp.Number.Literal
import CellLisp.Proofs.Number.Digits
import CellLisp.Proofs.Number.Shortest
import Mathlib.Data.List.Induction

/-!
# `CellLisp.Proofs.Number.Legible` — the text of a number is a numeral for it

An integer in range is written as the digits of its size, with a sign if it is negative, and
read back from them.  A finite float is written as its shortest decimal: digits with a point or
an exponent, so that it is no integer.  Read back, the digits and the power of ten give a ratio
in the interval around the float (`Decimal.Same`), which rounds to it.

| | |
| :-- | :-- |
| `Number.parse?_toString` | the text of an integer |
| `Binary32.parse?_text` | the text of a finite float |
-/

namespace CellLisp

open Digits (isDigit digitsOf)

namespace Literal

/-! ## Signs -/

/-- Characters behind a sign, if there is one. -/
def signed (negative : Bool) (cs : List Char) : List Char := if negative then '-' :: cs else cs

/-- A digit comes first. -/
def DigitFirst (cs : List Char) : Prop := ∃ c rest, cs = c :: rest ∧ isDigit c = true

theorem splitSign_signed {negative : Bool} {cs : List Char} (h : DigitFirst cs) :
    splitSign (signed negative cs) = (negative, cs) := by
  obtain ⟨c, rest, rfl, hc⟩ := h
  cases negative with
  | true => rfl
  | false =>
      have hneg : c ≠ '-' := by rintro rfl; exact absurd hc (by decide)
      have hpos : c ≠ '+' := by rintro rfl; exact absurd hc (by decide)
      unfold signed splitSign
      split <;> simp_all

theorem digitFirst_append {cs ds : List Char} (h : DigitFirst cs) : DigitFirst (cs ++ ds) := by
  obtain ⟨c, rest, rfl, hc⟩ := h
  exact ⟨c, rest ++ ds, rfl, hc⟩

theorem digitFirst_of_digits {cs : List Char} (hne : cs ≠ []) (h : ∀ c ∈ cs, isDigit c = true) :
    DigitFirst cs := by
  obtain ⟨c, rest, rfl⟩ := List.exists_cons_of_ne_nil hne
  exact ⟨c, rest, rfl, h c List.mem_cons_self⟩

theorem startsNumeric_signed {negative : Bool} {cs : List Char} (h : DigitFirst cs) :
    startsNumeric (signed negative cs) = true := by
  unfold startsNumeric
  rw [splitSign_signed h]
  obtain ⟨c, rest, rfl, hc⟩ := h
  have hdot : c ≠ '.' := by rintro rfl; exact absurd hc (by decide)
  cases rest <;> simp_all

/-! ## Integers -/

theorem signed?_signed {value : List Char → Nat} {negative : Bool} {ds : List Char}
    (hne : ds ≠ []) (hds : ∀ c ∈ ds, isDigit c = true) :
    signed? value (signed negative ds)
      = some (if negative then -(value ds : Int) else value ds) := by
  have hall : ds.all isDigit = true := List.all_eq_true.2 hds
  simp [signed?, splitSign_signed (digitFirst_of_digits hne hds), hne, hall]

/-- Something that is no digit keeps a text from being an integer. -/
theorem integer?_signed_eq_none {negative : Bool} {cs : List Char} (h : DigitFirst cs)
    {c : Char} (hc : c ∈ cs) (hd : isDigit c = false) : integer? (signed negative cs) = none := by
  have hall : cs.all isDigit = false := by
    rw [List.all_eq_false]
    exact ⟨c, hc, by simp [hd]⟩
  simp [integer?, signed?, splitSign_signed h, hall]

theorem toList_toString_int (i : Int) :
    (toString i).toList = signed (i < 0) (digitsOf i.natAbs) := by
  have hrepr : ∀ n : Nat, n.repr = toString n := fun _ => rfl
  rw [Int.toString_eq_repr, Int.repr_eq_if, digitsOf]
  by_cases h : 0 ≤ i
  · rw [if_pos h, hrepr, show i.toNat = i.natAbs by omega]
    simp [signed, Int.not_lt.2 h]
  · rw [if_neg h, hrepr, show (-i).toNat = i.natAbs by omega, String.toList_append]
    simp [signed, Int.lt_of_not_ge h]

/-! ## Exponents -/

theorem sizeOfExponent_eq {ds : List Char} (h : Digits.value ds < exponentLimit) :
    sizeOfExponent ds = Digits.value ds := by
  induction ds using List.reverseRecOn with
  | nil => rfl
  | append_singleton ds c ih =>
      have hvalue : Digits.value (ds ++ [c]) = Digits.value ds * 10 + Digits.digitValue c := by
        rw [Digits.value_eq_foldl, List.foldl_append, ← Digits.value_eq_foldl]
        rfl
      have hlt : Digits.value ds < exponentLimit := by omega
      have hsize : sizeOfExponent (ds ++ [c]) =
          if sizeOfExponent ds < exponentLimit then sizeOfExponent ds * 10 + Digits.digitValue c
          else sizeOfExponent ds := by
        rw [sizeOfExponent, List.foldl_append]
        rfl
      rw [hsize, ih hlt, if_pos hlt, hvalue]

/-- The exponent part that an integer makes. -/
theorem exponent?_toString {i : Int} (hi : i.natAbs < exponentLimit) :
    exponent? ('e' :: (toString i).toList) = some i := by
  have hvalue : sizeOfExponent (digitsOf i.natAbs) = i.natAbs := by
    rw [sizeOfExponent_eq (by simpa using hi), Digits.value_digitsOf]
  show signed? sizeOfExponent (toString i).toList = some i
  rw [toList_toString_int, signed?_signed (Digits.digitsOf_ne_nil _)
    fun c hc => Digits.isDigit_of_mem_digitsOf hc, hvalue]
  congr 1
  simp only [decide_eq_true_eq]
  split <;> omega

/-! ## Decimals -/

/-- No digit comes first. -/
def NoDigitFirst (cs : List Char) : Prop := ∀ c rest, cs = c :: rest → isDigit c = false

theorem takeWhile_digits {ds cs : List Char} (hds : ∀ c ∈ ds, isDigit c = true)
    (hcs : NoDigitFirst cs) :
    (ds ++ cs).takeWhile isDigit = ds ∧ (ds ++ cs).dropWhile isDigit = cs := by
  rw [List.takeWhile_append_of_pos hds, List.dropWhile_append_of_pos hds]
  cases cs with
  | nil => simp
  | cons c cs => simp [hcs c cs rfl]

variable {negative : Bool} {whole fraction rest : List Char} {e : Int}

/-- Digits, a point, digits and an exponent part. -/
theorem decimal?_point (hne : whole ≠ []) (hw : ∀ c ∈ whole, isDigit c = true)
    (hf : ∀ c ∈ fraction, isDigit c = true) (hrest : NoDigitFirst rest)
    (he : exponent? rest = some e) :
    decimal? (signed negative (whole ++ '.' :: (fraction ++ rest)))
      = some (roundDecimal negative (whole ++ fraction) (e - fraction.length)) := by
  have hfirst : DigitFirst (whole ++ '.' :: (fraction ++ rest)) :=
    digitFirst_append (digitFirst_of_digits hne hw)
  have hpoint : NoDigitFirst ('.' :: (fraction ++ rest)) := by
    rintro _ _ ⟨⟩
    decide
  obtain ⟨ht, hd⟩ := takeWhile_digits hw hpoint
  obtain ⟨ht', hd'⟩ := takeWhile_digits hf hrest
  simp [decimal?, splitSign_signed hfirst, ht, hd, splitFraction, ht', hd', he, hne]

/-- Digits and an exponent part. -/
theorem decimal?_whole (hne : whole ≠ []) (hw : ∀ c ∈ whole, isDigit c = true)
    {digits : List Char} (he : exponent? ('e' :: digits) = some e) :
    decimal? (signed negative (whole ++ 'e' :: digits))
      = some (roundDecimal negative whole e) := by
  have hfirst : DigitFirst (whole ++ 'e' :: digits) :=
    digitFirst_append (digitFirst_of_digits hne hw)
  have hmark : NoDigitFirst ('e' :: digits) := by
    rintro _ _ ⟨⟩
    decide
  obtain ⟨ht, hd⟩ := takeWhile_digits hw hmark
  simp [decimal?, splitSign_signed hfirst, ht, hd, splitFraction, he, hne]

end Literal

/-! ## Numerals -/

namespace Number

open Literal

theorem parse?_int {text : String} {i : Int} (hd : startsNumeric text.toList = true)
    (hi : integer? text.toList = some i) (hmin : intMin ≤ i) (hmax : i ≤ intMax) :
    parse? text = some (.int i) := by
  simp [parse?, hd, hi, hmin, hmax]

theorem parse?_float {text : String} {x : Binary32} (hd : startsNumeric text.toList = true)
    (hi : integer? text.toList = none) (hx : decimal? text.toList = some x)
    (hfin : x.isFinite = true) : parse? text = some (.float x) := by
  simp [parse?, hd, hi, finite?, hx, hfin]

/-- The text of an integer in range. -/
theorem parse?_toString {i : Int} (hmin : intMin ≤ i) (hmax : i ≤ intMax) :
    parse? (toString i) = some (.int i) := by
  have hne := Digits.digitsOf_ne_nil i.natAbs
  have hds : ∀ c ∈ digitsOf i.natAbs, isDigit c = true :=
    fun c hc => Digits.isDigit_of_mem_digitsOf hc
  refine parse?_int ?_ ?_ hmin hmax
  · rw [toList_toString_int]
    exact startsNumeric_signed (digitFirst_of_digits hne hds)
  · rw [toList_toString_int, integer?, signed?_signed hne hds, Digits.value_digitsOf]
    congr 1
    simp only [decide_eq_true_eq]
    split <;> omega

end Number

/-! ## Rounding back -/

namespace Binary32

/-- Two decimals are one ratio. -/
def Decimal.Same (r r' : Decimal) : Prop := r.num * r'.den = r'.num * r.den

theorem Decimal.Same.refl (r : Decimal) : r.Same r := rfl

theorem inside_mul_iff {closed : Bool} {low high c k : Nat} (hk : 0 < k) :
    inside closed (low * k) (high * k) (c * k) = inside closed low high c := by
  simp only [inside, Nat.mul_le_mul_right_iff hk, Nat.mul_lt_mul_right hk]

/-- One ratio, one place in an interval. -/
theorem Decimal.Inside.same {r r' : Decimal} {closed : Bool} {low high : Nat}
    (h : r.Inside closed low high) (hs : r.Same r') : r'.Inside closed low high := by
  unfold Decimal.Inside at *
  rw [← inside_mul_iff r.den_pos]
  rw [← inside_mul_iff r'.den_pos] at h
  have hnum : r'.num * (4 * unitsPerOne) * r.den = r.num * (4 * unitsPerOne) * r'.den := by
    have h' : r.num * r'.den = r'.num * r.den := hs
    calc r'.num * (4 * unitsPerOne) * r.den = r'.num * r.den * (4 * unitsPerOne) := by ring
      _ = r.num * (4 * unitsPerOne) * r'.den := by rw [← h']; ring
  rw [hnum, Nat.mul_right_comm low, Nat.mul_right_comm high]
  exact h

theorem high_le {x : Binary32} (hx : x.isFinite = true) : x.high ≤ 2 ^ 26 * 2 ^ 253 := by
  have hS := significand_lt x
  have hpow : 2 ^ x.shift ≤ 2 ^ 253 :=
    Nat.pow_le_pow_right (by decide) (Nat.le_of_lt_succ (shift_lt hx))
  calc x.high = (4 * x.significand + 2) * 2 ^ x.shift := by unfold high; ring
    _ ≤ 2 ^ 26 * 2 ^ 253 := Nat.mul_le_mul (by omega) hpow

/-- The place of the first digit of a decimal near a finite number. -/
theorem leading_of_inside {x : Binary32} (hx : x.isFinite = true) (hz : x.isZero = false)
    {V l : Nat} {power : Int} (hge : 10 ^ l ≤ V) (hlt : V < 10 ^ (l + 1))
    (h : Decimal.Inside ⟨V, power⟩ (x.significand % 2 = 0) x.low x.high) :
    -60 ≤ power + l ∧ power + l < 60 := by
  obtain ⟨hlow, hhigh⟩ := inside_le h
  simp only [Decimal.num, Decimal.den, pow10] at hlow hhigh
  have hunits : 4 * unitsPerOne = 2 ^ 151 := (Nat.pow_add 2 2 149).symm
  rw [hunits] at hlow hhigh
  have hten : ∀ {a b : Nat}, 10 ^ a < 10 ^ b → a < b := (Nat.pow_lt_pow_iff_right (by decide)).1
  constructor
  · have hpos := low_pos hz
    have hlt : 10 ^ (-power).toNat < 10 ^ (l + 1 + power.toNat + 46) := by
      calc 10 ^ (-power).toNat ≤ x.low * 10 ^ (-power).toNat := Nat.le_mul_of_pos_left _ hpos
        _ ≤ V * 10 ^ power.toNat * 2 ^ 151 := hlow
        _ < 10 ^ (l + 1) * 10 ^ power.toNat * 2 ^ 151 := by
            refine Nat.mul_lt_mul_of_pos_right ?_ (by decide)
            exact Nat.mul_lt_mul_of_pos_right hlt (Nat.pow_pos (by decide))
        _ ≤ 10 ^ (l + 1) * 10 ^ power.toNat * 10 ^ 46 := Nat.mul_le_mul_left _ (by norm_num)
        _ = 10 ^ (l + 1 + power.toNat + 46) := by
            rw [Nat.pow_add _ (l + 1 + power.toNat), Nat.pow_add _ (l + 1)]
    have := hten hlt
    omega
  · have hlt : 10 ^ (l + power.toNat) * 2 ^ 151 < 10 ^ (39 + (-power).toNat) * 2 ^ 151 := by
      calc 10 ^ (l + power.toNat) * 2 ^ 151 = 10 ^ l * 10 ^ power.toNat * 2 ^ 151 := by
            rw [Nat.pow_add]
        _ ≤ V * 10 ^ power.toNat * 2 ^ 151 :=
            Nat.mul_le_mul_right _ (Nat.mul_le_mul_right _ hge)
        _ ≤ x.high * 10 ^ (-power).toNat := hhigh
        _ ≤ 2 ^ 26 * 2 ^ 253 * 10 ^ (-power).toNat := Nat.mul_le_mul_right _ (high_le hx)
        _ < 10 ^ 39 * 2 ^ 151 * 10 ^ (-power).toNat :=
            Nat.mul_lt_mul_of_pos_right (by norm_num) (Nat.pow_pos (by decide))
        _ = 10 ^ (39 + (-power).toNat) * 2 ^ 151 := by rw [Nat.pow_add]; ring
    have := hten (Nat.lt_of_mul_lt_mul_right hlt)
    omega

/-- A decimal in the interval around a number rounds to it. -/
theorem roundDecimal_of_inside {x : Binary32} (hx : x.isFinite = true) (hz : x.isZero = false)
    {ds : List Char} {power : Int} (hds : ∀ c ∈ ds, isDigit c = true)
    (h : Decimal.Inside ⟨Digits.value ds, power⟩ (x.significand % 2 = 0) x.low x.high) :
    Literal.roundDecimal x.negative ds power = x := by
  have hround := ofRatio_of_inside hx hz (Decimal.den_pos _) h
  rw [← Digits.value_dropWhile_zero ds] at h hround
  have hds' : ∀ c ∈ ds.dropWhile (· == '0'), isDigit c = true :=
    fun c hc => hds c ((List.dropWhile_sublist _).subset hc)
  have hfirst := List.head?_dropWhile_not (· == '0') ds
  unfold Literal.roundDecimal
  revert h hround hds' hfirst
  generalize ds.dropWhile (· == '0') = ds
  intro h hround hds hfirst
  cases ds with
  | nil =>
      have := (inside_le h).1
      have hpos := Nat.mul_pos (low_pos hz) (Decimal.den_pos ⟨Digits.value [], power⟩)
      have hzero : Decimal.num ⟨Digits.value [], power⟩ = 0 := by
        simp [Decimal.num, Digits.value_eq_foldl]
      rw [hzero, Nat.zero_mul] at this
      omega
  | cons c ds =>
      have hc := hds c List.mem_cons_self
      have hne : c ≠ '0' := by simpa using hfirst
      obtain ⟨hmin, hmax⟩ := leading_of_inside hx hz (Digits.le_value hc hne)
        (Digits.value_lt hds) h
      simp only [List.isEmpty_cons, Bool.false_or, decide_eq_true_eq, List.length_cons]
      rw [if_neg (by omega), if_neg (by omega)]
      simp only [Decimal.num, Decimal.den] at hround
      split
      · rwa [show (-power).toNat = 0 by omega] at hround
      · rwa [show power.toNat = 0 by omega, show pow10 0 = 1 from rfl, Nat.mul_one] at hround

/-! ## Rendering -/

open Literal

/-- A character of a decimal. -/
abbrev IsPlain (c : Char) : Prop := isDigit c = true ∨ c = '.' ∨ c = 'e' ∨ c = '-'

/-- The characters are a decimal that is the same ratio. -/
structure Decimal.Written (r : Decimal) (cs : List Char) : Prop where
  first : DigitFirst cs
  mark : ∃ c ∈ cs, isDigit c = false
  decimal : ∀ negative, ∃ ds power, (∀ c ∈ ds, isDigit c = true) ∧ r.Same ⟨Digits.value ds, power⟩ ∧
    decimal? (signed negative cs) = some (roundDecimal negative ds power)
  plain : ∀ c ∈ cs, IsPlain c

/-- The characters of an exponent part. -/
theorem isPlain_toString {i : Int} {c : Char} (hc : c ∈ (toString i).toList) : IsPlain c := by
  rw [toList_toString_int, signed] at hc
  split at hc
  · rcases List.mem_cons.1 hc with rfl | hc
    · exact .inr (.inr (.inr rfl))
    · exact .inl (Digits.isDigit_of_mem_digitsOf hc)
  · exact .inl (Digits.isDigit_of_mem_digitsOf hc)

theorem written_point {r : Decimal} {whole fraction rest : List Char} {e : Int} (hne : whole ≠ [])
    (hw : ∀ c ∈ whole, isDigit c = true) (hf : ∀ c ∈ fraction, isDigit c = true)
    (hrest : NoDigitFirst rest) (he : exponent? rest = some e) (hplain : ∀ c ∈ rest, IsPlain c)
    (hr : r.Same ⟨Digits.value (whole ++ fraction), e - fraction.length⟩) :
    r.Written (whole ++ '.' :: (fraction ++ rest)) where
  first := digitFirst_append (digitFirst_of_digits hne hw)
  mark := ⟨'.', by simp, by decide⟩
  decimal negative := by
    refine ⟨whole ++ fraction, _, fun c hc => ?_, hr, decimal?_point hne hw hf hrest he⟩
    exact (List.mem_append.1 hc).elim (hw c) (hf c)
  plain c hc := by
    simp only [List.mem_append, List.mem_cons] at hc
    rcases hc with hc | rfl | hc | hc
    · exact .inl (hw c hc)
    · exact .inr (.inl rfl)
    · exact .inl (hf c hc)
    · exact hplain c hc

theorem written_whole {r : Decimal} {whole : List Char} {e : Int} (hne : whole ≠ [])
    (hw : ∀ c ∈ whole, isDigit c = true) (he : e.natAbs < exponentLimit)
    (hr : r.Same ⟨Digits.value whole, e⟩) : r.Written (whole ++ 'e' :: (toString e).toList) where
  first := digitFirst_append (digitFirst_of_digits hne hw)
  mark := ⟨'e', by simp, by decide⟩
  decimal negative := ⟨whole, e, hw, hr, decimal?_whole hne hw (exponent?_toString he)⟩
  plain c hc := by
    simp only [List.mem_append, List.mem_cons] at hc
    rcases hc with hc | rfl | hc
    · exact .inl (hw c hc)
    · exact .inr (.inr (.inl rfl))
    · exact isPlain_toString hc

theorem noDigitFirst_nil : NoDigitFirst [] := nofun

theorem toList_zeros (n : Nat) : (zeros n).toList = List.replicate n '0' := by
  rw [zeros, String.toList_ofList]

theorem isDigit_of_mem_replicate {n : Nat} {c : Char} (hc : c ∈ List.replicate n '0') :
    isDigit c = true := by
  rw [List.eq_of_mem_replicate hc]
  rfl

theorem isDigit_of_mem_append {as bs : List Char} (ha : ∀ c ∈ as, isDigit c = true)
    (hb : ∀ c ∈ bs, isDigit c = true) : ∀ c ∈ as ++ bs, isDigit c = true :=
  fun c hc => (List.mem_append.1 hc).elim (ha c) (hb c)

theorem hasDigits (n : Nat) : ∀ c ∈ digitsOf n, isDigit c = true :=
  fun _ hc => Digits.isDigit_of_mem_digitsOf hc

/-- Zeros up to the point, and one more behind it. -/
theorem Decimal.written_whole_number {r : Decimal} (hp : 0 ≤ r.power) :
    r.Written (digitsOf r.digits ++ List.replicate r.power.toNat '0' ++ '.' :: (['0'] ++ [])) := by
  refine written_point (e := 0) (by simp [Digits.digitsOf_ne_nil])
    (isDigit_of_mem_append (hasDigits _) fun c hc => isDigit_of_mem_replicate hc)
    (List.forall_mem_singleton.2 rfl)
    noDigitFirst_nil rfl nofun ?_
  have hden : (-r.power).toNat = 0 := by omega
  simp only [Same, num, den, Digits.value_append, Digits.value_digitsOf,
    Digits.value_replicate_zero, hden]
  simp [pow10, Digits.value_eq_foldl, Digits.digitValue]

/-- The point stands among the digits. -/
theorem Decimal.written_split {r : Decimal} (hp : r.power < 0)
    (hlt : (-r.power).toNat < (digitsOf r.digits).length) :
    r.Written ((digitsOf r.digits).take ((digitsOf r.digits).length - (-r.power).toNat)
      ++ '.' :: ((digitsOf r.digits).drop ((digitsOf r.digits).length - (-r.power).toNat) ++ [])) := by
  refine written_point (e := 0) ?_ (fun c hc => hasDigits _ c (List.mem_of_mem_take hc))
    (fun c hc => hasDigits _ c (List.mem_of_mem_drop hc)) noDigitFirst_nil rfl nofun ?_
  · rw [ne_eq, ← List.length_eq_zero_iff, List.length_take]
    omega
  · have hlen : (0 : Int) - ((digitsOf r.digits).drop
        ((digitsOf r.digits).length - (-r.power).toNat)).length = r.power := by
      rw [List.length_drop]
      omega
    rw [List.take_append_drop, Digits.value_digitsOf, hlen]
    exact .refl r

/-- Zeros from the point on. -/
theorem Decimal.written_fraction {r : Decimal} (hp : r.power < 0)
    (hle : (digitsOf r.digits).length ≤ (-r.power).toNat) :
    r.Written (['0'] ++ '.' :: (List.replicate ((-r.power).toNat - (digitsOf r.digits).length) '0'
      ++ digitsOf r.digits ++ [])) := by
  refine written_point (e := 0) (by simp) (List.forall_mem_singleton.2 rfl)
    (isDigit_of_mem_append (fun c hc => isDigit_of_mem_replicate hc) (hasDigits _))
    noDigitFirst_nil rfl nofun ?_
  have hlen : (0 : Int) - (List.replicate ((-r.power).toNat - (digitsOf r.digits).length) '0'
      ++ digitsOf r.digits).length = r.power := by
    rw [List.length_append, List.length_replicate]
    omega
  have hvalue : Digits.value (['0'] ++ (List.replicate
      ((-r.power).toNat - (digitsOf r.digits).length) '0' ++ digitsOf r.digits)) = r.digits := by
    rw [Digits.value_append, Digits.value_append, Digits.value_replicate_zero,
      Digits.value_digitsOf]
    simp [Digits.value_eq_foldl, Digits.digitValue]
  rw [hvalue, hlen]
  exact .refl r

/-- Positional notation. -/
theorem Decimal.written_positional (r : Decimal) : r.Written r.positional.toList := by
  have hlength : (toString r.digits).length = (digitsOf r.digits).length := String.length_toList.symm
  have hlist : (toString r.digits).toList = digitsOf r.digits := rfl
  unfold positional
  simp only [hlength, hlist]
  split
  · rename_i hp
    simp only [String.toList_append, toList_zeros, hlist]
    exact written_whole_number hp
  · rename_i hp
    split
    · rename_i hlt
      have h := written_split (r := r) (by omega) hlt
      rw [List.append_nil] at h
      simp only [String.toList_append, String.toList_ofList, List.append_assoc]
      exact h
    · rename_i hle
      have h := written_fraction (r := r) (by omega) (by omega)
      rw [List.append_nil] at h
      simp only [String.toList_append, toList_zeros, hlist, List.append_assoc]
      exact h

/-- Notation with an exponent. -/
theorem Decimal.written_scientific {r : Decimal} (h : r.leading.natAbs < exponentLimit) :
    r.Written r.scientific.toList := by
  have hlength : (toString r.digits).length = (digitsOf r.digits).length := String.length_toList.symm
  have hleading : r.leading = r.power + (digitsOf r.digits).length - 1 := by
    rw [leading, hlength]
  have hlist : (toString r.digits).toList = digitsOf r.digits := rfl
  have hvalue := Digits.value_digitsOf r.digits
  have hdigits := hasDigits r.digits
  unfold scientific
  rw [hlist]
  revert hleading hvalue hdigits
  cases hd : digitsOf r.digits with
  | nil => exact absurd hd (Digits.digitsOf_ne_nil _)
  | cons c ds =>
      intro hleading hvalue hdigits
      have hc : ∀ c' ∈ [c], isDigit c' = true := by simpa using hdigits c List.mem_cons_self
      have hfirst : c.toString.toList = [c] := by simp
      cases ds with
      | nil =>
          have hpower : r.leading = r.power := by simpa using hleading
          have hw := @written_whole r [c] r.leading (by simp) hc h (by
            rw [hvalue, hpower]
            exact .refl r)
          simpa [hfirst] using hw
      | cons c' ds =>
          have hpower : r.leading - (c' :: ds).length = r.power := by
            rw [hleading]
            simp only [List.length_cons]
            omega
          have hmark : NoDigitFirst ('e' :: (toString r.leading).toList) := by
            rintro _ _ ⟨⟩
            decide
          have hw := @written_point r [c] (c' :: ds) _ _ (by simp) hc
            (fun c hc => hdigits c (List.mem_cons_of_mem _ hc)) hmark (exponent?_toString h) (by
              intro c hc
              rcases List.mem_cons.1 hc with rfl | hc
              · exact .inr (.inr (.inl rfl))
              · exact isPlain_toString hc) (by
              rw [hpower, List.singleton_append, hvalue]
              exact .refl r)
          simp only [String.toList_append, hfirst, List.isEmpty_cons, Bool.false_eq_true, if_false,
            String.toList_ofList, List.append_assoc]
          exact hw

theorem Decimal.written_render {r : Decimal} (h : r.leading.natAbs < exponentLimit) :
    r.Written r.render.toList := by
  unfold render
  split
  · exact r.written_positional
  · exact written_scientific h

/-- The exponent of the shortest decimal is small. -/
theorem leading_shortest {x : Binary32} (hx : x.isFinite = true) (hz : x.isZero = false) :
    x.shortest.leading.natAbs < exponentLimit := by
  have h := inside_shortest hz
  generalize x.shortest = r at h ⊢
  have hlength : (toString r.digits).length = (digitsOf r.digits).length := String.length_toList.symm
  have hpos : 0 < r.digits := by
    refine Nat.pos_of_ne_zero fun hzero => ?_
    have hle := (inside_le h).1
    have hmul := Nat.mul_pos (low_pos hz) r.den_pos
    have hnum : r.num = 0 := by rw [Decimal.num, hzero, Nat.zero_mul]
    rw [hnum, Nat.zero_mul] at hle
    omega
  obtain ⟨l, hl, hge, hlt⟩ := Digits.length_digitsOf hpos
  have hbounds := leading_of_inside hx hz hge hlt h
  have hleading : r.leading = r.power + l := by
    rw [Decimal.leading, hlength, hl]
    omega
  rw [hleading, exponentLimit]
  omega

/-- The text of a zero. -/
theorem text_of_isZero {x : Binary32} (hz : x.isZero = true) :
    x = zero x.negative ∧ x.text = if x.negative then "-0.0" else "0.0" := by
  have hmag : x.bits.toNat % 2 ^ 31 = 0 := by simpa [isZero] using hz
  have hx : zero x.negative = x := by
    rw [zero, ← hmag]
    exact ofFields_eq x
  have hexp : x.exponent ≠ 255 := by
    simp only [exponent, Nat.shiftRight_eq_div_pow]
    omega
  refine ⟨hx.symm, ?_⟩
  have hnan : x.isNaN = false := by simp [isNaN, hexp]
  have hinf : x.isInfinite = false := by simp [isInfinite, hexp]
  simp only [text, hnan, hinf, hz, Bool.false_eq_true, if_false, if_true]
  split <;> rfl

/-- The text of another finite number. -/
theorem toList_text {x : Binary32} (hx : x.isFinite = true) (hz : x.isZero = false) :
    x.text.toList = signed x.negative x.shortest.render.toList := by
  have hexp : x.exponent ≠ 255 := by simpa [isFinite] using hx
  have hnan : x.isNaN = false := by simp [isNaN, hexp]
  have hinf : x.isInfinite = false := by simp [isInfinite, hexp]
  simp only [text, hnan, hinf, hz, Bool.false_eq_true, if_false, String.toList_append, signed]
  split <;> rfl

/-- The text of a finite number reads back as the number. -/
theorem parse?_text {x : Binary32} (hx : x.isFinite = true) :
    Number.parse? x.text = some (.float x) := by
  cases hz : x.isZero with
  | true =>
      obtain ⟨hzero, htext⟩ := text_of_isZero hz
      cases hn : x.negative with
      | true =>
          rw [hn] at hzero htext
          rw [htext, hzero]
          decide
      | false =>
          rw [hn] at hzero htext
          rw [htext, hzero]
          decide
  | false =>
      have hw := Decimal.written_render (leading_shortest hx hz)
      have htext := toList_text hx hz
      obtain ⟨c, hc, hd⟩ := hw.mark
      obtain ⟨ds, power, hds, hsame, hdecimal⟩ := hw.decimal x.negative
      have hinside := (inside_shortest hz).same hsame
      refine Number.parse?_float ?_ ?_ ?_ hx
      · rw [htext]
        exact startsNumeric_signed hw.first
      · rw [htext]
        exact integer?_signed_eq_none hw.first hc hd
      · rw [htext, hdecimal, roundDecimal_of_inside hx hz hds hinside]

theorem word_text {x : Binary32} (hx : x.isFinite = true) :
    DigitFirst (splitSign x.text.toList).2 ∧ ∀ c ∈ x.text.toList, IsPlain c := by
  cases hz : x.isZero with
  | true =>
      obtain ⟨-, htext⟩ := text_of_isZero hz
      have hplain : ∀ c ∈ ['-', '0', '.', '0'], IsPlain c := by
        simp only [List.mem_cons, List.not_mem_nil, or_false, forall_eq_or_imp, forall_eq]
        decide
      rw [htext]
      split
      · exact ⟨⟨'0', ['.', '0'], rfl, rfl⟩, hplain⟩
      · exact ⟨⟨'0', ['.', '0'], rfl, rfl⟩, fun c hc => hplain c (List.mem_cons_of_mem _ hc)⟩
  | false =>
      have hw := Decimal.written_render (leading_shortest hx hz)
      rw [toList_text hx hz]
      refine ⟨by rw [splitSign_signed hw.first]; exact hw.first, fun c hc => ?_⟩
      unfold signed at hc
      split at hc
      · rcases List.mem_cons.1 hc with rfl | hc
        · exact .inr (.inr (.inr rfl))
        · exact hw.plain c hc
      · exact hw.plain c hc

end Binary32

end CellLisp
