import CellLisp.Stream
import CellLisp.Proofs.Syntax.Lexeme

/-!
# `CellLisp.Proofs.Text.Decoding` — octets at the front of a sequence

What stands at the front of a sequence of octets is a character exactly if the sequence begins
with the octets of that character (`next_eq_some_iff`).  So overlong forms, surrogates, octets
that only follow and sequences that break off begin no character.

The leading one bits of its first octet count the octets of a character (`charWidth?_of_encoded`).
-/

namespace CellLisp.Utf8

/-! ## The octets of a character -/

section Encoding

variable {c : Char}

theorem encoded_one (h : c.toNat < 0x80) : String.utf8EncodeChar c = [UInt8.ofNat c.toNat] :=
  if_pos (Nat.le_of_lt_succ h)

theorem encoded_two (hlow : 0x80 ≤ c.toNat) (hhigh : c.toNat < 0x800) :
    String.utf8EncodeChar c
      = [UInt8.ofNat (c.toNat / 64 % 32 + 0xC0), UInt8.ofNat (c.toNat % 64 + 0x80)] := by
  have h₁ : ¬ c.val.toNat ≤ 127 := Nat.not_le.2 hlow
  have h₂ : c.val.toNat ≤ 2047 := Nat.le_of_lt_succ hhigh
  exact (if_neg h₁).trans (if_pos h₂)

theorem encoded_three (hlow : 0x800 ≤ c.toNat) (hhigh : c.toNat < 0x10000) :
    String.utf8EncodeChar c
      = [UInt8.ofNat (c.toNat / 4096 % 16 + 0xE0), UInt8.ofNat (c.toNat / 64 % 64 + 0x80),
        UInt8.ofNat (c.toNat % 64 + 0x80)] := by
  have h₁ : ¬ c.val.toNat ≤ 127 := Nat.not_le.2 (Nat.le_trans (by decide) hlow)
  have h₂ : ¬ c.val.toNat ≤ 2047 := Nat.not_le.2 hlow
  have h₃ : c.val.toNat ≤ 65535 := Nat.le_of_lt_succ hhigh
  exact (if_neg h₁).trans ((if_neg h₂).trans (if_pos h₃))

theorem encoded_four (hlow : 0x10000 ≤ c.toNat) :
    String.utf8EncodeChar c
      = [UInt8.ofNat (c.toNat / 262144 % 8 + 0xF0), UInt8.ofNat (c.toNat / 4096 % 64 + 0x80),
        UInt8.ofNat (c.toNat / 64 % 64 + 0x80), UInt8.ofNat (c.toNat % 64 + 0x80)] := by
  have h₁ : ¬ c.val.toNat ≤ 127 := Nat.not_le.2 (Nat.le_trans (by decide) hlow)
  have h₂ : ¬ c.val.toNat ≤ 2047 := Nat.not_le.2 (Nat.le_trans (by decide) hlow)
  have h₃ : ¬ c.val.toNat ≤ 65535 := Nat.not_le.2 hlow
  exact (if_neg h₁).trans ((if_neg h₂).trans (if_neg h₃))

end Encoding

/-! ## Octets that follow -/

/-- An octet that follows another one. -/
def IsTail (b : UInt8) : Prop := 0x80 ≤ b.toNat ∧ b.toNat ≤ 0xBF

section Tails

variable {b c : UInt8} {bs rest : List UInt8} {n acc v : Nat} {l : Lead}

theorem takeTails_succ :
    takeTails (n + 1) acc bs = (some v, rest) ↔
      ∃ b bs', bs = b :: bs' ∧ IsTail b ∧
        takeTails n (acc * 64 + b.toNat % 64) bs' = (some v, rest) := by
  cases bs with
  | nil => simp [takeTails]
  | cons b bs =>
      have htail : (0x80 ≤ b && b ≤ 0xBF) = true ↔ IsTail b := by
        simp [IsTail, UInt8.le_iff_toNat_le]
      rw [takeTails]
      by_cases hb : IsTail b
      · rw [if_pos (htail.2 hb)]
        constructor
        · exact fun h => ⟨b, bs, rfl, hb, h⟩
        · rintro ⟨_, _, ⟨⟩, -, h⟩
          exact h
      · rw [if_neg (mt htail.1 hb)]
        constructor
        · rintro ⟨⟩
        · rintro ⟨_, _, ⟨⟩, hb', -⟩
          exact absurd hb' hb

/-- A row of the table, by the number of octets that follow: none of them begins an overlong form,
a surrogate or a number that is too large. -/
theorem lead?_eq_some (h : lead? b = some l) :
    (l.follow = 1 ∧ 0xC2 ≤ b.toNat ∧ b.toNat ≤ 0xDF ∧
      ∀ c : UInt8, l.low ≤ c ∧ c ≤ l.high ↔ IsTail c) ∨
    (l.follow = 2 ∧ 0xE0 ≤ b.toNat ∧ b.toNat ≤ 0xEF ∧
      ∀ c : UInt8, l.low ≤ c ∧ c ≤ l.high ↔
        IsTail c ∧ (b.toNat = 0xE0 → 0xA0 ≤ c.toNat) ∧ (b.toNat = 0xED → c.toNat ≤ 0x9F)) ∨
    (l.follow = 3 ∧ 0xF0 ≤ b.toNat ∧ b.toNat ≤ 0xF4 ∧
      ∀ c : UInt8, l.low ≤ c ∧ c ≤ l.high ↔
        IsTail c ∧ (b.toNat = 0xF0 → 0x90 ≤ c.toNat) ∧ (b.toNat = 0xF4 → c.toNat ≤ 0x8F)) := by
  unfold lead? at h
  simp only [UInt8.lt_iff_toNat_lt, UInt8.le_iff_toNat_le, ← UInt8.toNat_inj, UInt8.reduceToNat] at h
  simp only [IsTail, UInt8.le_iff_toNat_le]
  split_ifs at h <;> cases h
  · exact .inl ⟨rfl, by omega, by omega, fun c => Iff.rfl⟩
  all_goals
    simp only [UInt8.reduceToNat, true_and, false_and, or_false, false_or, Nat.reduceEqDiff,
      OfNat.ofNat_ne_one]
    exact ⟨by omega, by omega, fun c => by omega⟩

theorem exists_lead? (hlow : 0xC2 ≤ b.toNat) (hhigh : b.toNat ≤ 0xF4) : ∃ l, lead? b = some l := by
  unfold lead?
  simp only [UInt8.lt_iff_toNat_lt, UInt8.le_iff_toNat_le, ← UInt8.toNat_inj, UInt8.reduceToNat]
  split_ifs <;> first | exact ⟨_, rfl⟩ | omega

end Tails

/-! ## One character -/

section Next

variable {b : UInt8} {bs rest : List UInt8} {c : Char}

/-- Behind an octet that is no ASCII character stand those that follow it. -/
theorem next_eq_of_lead (hb : 0x80 ≤ b.toNat) :
    next b bs = (some c, rest) ↔ ∃ l d ds v, lead? b = some l ∧ bs = d :: ds ∧
      (l.low ≤ d ∧ d ≤ l.high) ∧ c = Char.ofNat v ∧
      takeTails (l.follow - 1) (leadBits l.follow b * 64 + d.toNat % 64) ds = (some v, rest) := by
  have hnot : ¬ b < 0x80 := by
    rw [UInt8.lt_iff_toNat_lt]
    exact Nat.not_lt.2 hb
  unfold next
  rw [if_neg hnot]
  cases hl : lead? b with
  | none => exact ⟨nofun, fun ⟨_, _, _, _, hl', _⟩ => nomatch hl'⟩
  | some l =>
      cases bs with
      | nil => exact ⟨nofun, fun ⟨_, _, _, _, _, hbs, _⟩ => nomatch hbs⟩
      | cons d ds =>
          have hrange : (l.low ≤ d && d ≤ l.high) = true ↔ l.low ≤ d ∧ d ≤ l.high := by
            rw [Bool.and_eq_true, decide_eq_true_eq, decide_eq_true_eq]
          by_cases hd : l.low ≤ d ∧ d ≤ l.high
          · simp only [if_pos (hrange.2 hd)]
            constructor
            · intro h
              obtain ⟨hcode, hrest⟩ := Prod.mk.inj h
              obtain ⟨v, hv, hc⟩ := Option.map_eq_some_iff.1 hcode
              exact ⟨l, d, ds, v, rfl, rfl, hd, hc.symm, Prod.ext hv hrest⟩
            · rintro ⟨_, _, _, v, ⟨⟩, ⟨⟩, -, rfl, hv⟩
              rw [hv]
              rfl
          · simp only [if_neg (mt hrange.1 hd)]
            exact ⟨nofun, fun ⟨_, _, _, _, hl', hbs, hd', _⟩ => by cases hl'; cases hbs; exact absurd hd' hd⟩

theorem next_ascii (hb : b.toNat < 0x80) : next b bs = (some (Char.ofNat b.toNat), bs) :=
  if_pos (UInt8.lt_iff_toNat_lt.2 hb)

theorem eq_ofNat_iff {v : Nat} (hv : v.isValidChar) : c = Char.ofNat v ↔ c.toNat = v := by
  constructor
  · rintro rfl
    rw [Char.ofNat, dif_pos hv]
    rfl
  · rintro rfl
    exact c.ofNat_toNat.symm

/-- Two octets that are a character. -/
theorem next_two (hlow : 0xC2 ≤ b.toNat) (hhigh : b.toNat ≤ 0xDF) :
    next b bs = (some c, rest) ↔
      ∃ d, bs = d :: rest ∧ IsTail d ∧ c.toNat = b.toNat % 32 * 64 + d.toNat % 64 := by
  obtain ⟨l, hl⟩ := exists_lead? hlow (by omega)
  have hrow : l.follow = 1 ∧ ∀ c : UInt8, l.low ≤ c ∧ c ≤ l.high ↔ IsTail c := by
    rcases lead?_eq_some hl with ⟨h, -, -, hd⟩ | ⟨-, h, -⟩ | ⟨-, h, -⟩
    · exact ⟨h, hd⟩
    · omega
    · omega
  have hvalid : ∀ d : UInt8, (b.toNat % 32 * 64 + d.toNat % 64).isValidChar := fun d => by
    left
    omega
  rw [next_eq_of_lead (by omega), hl]
  constructor
  · rintro ⟨_, d, ds, v, ⟨⟩, rfl, hd, rfl, htake⟩
    rw [hrow.1] at htake
    obtain ⟨hv, rfl⟩ := Prod.mk.inj htake
    obtain rfl := Option.some.inj hv
    exact ⟨d, rfl, (hrow.2 d).1 hd, (eq_ofNat_iff (hvalid d)).1 rfl⟩
  · rintro ⟨d, rfl, hd, hc⟩
    refine ⟨l, d, rest, _, rfl, rfl, (hrow.2 d).2 hd, (eq_ofNat_iff (hvalid d)).2 hc, ?_⟩
    rw [hrow.1]
    rfl

/-- Three octets that are a character: no overlong form and no surrogate. -/
theorem next_three (hlow : 0xE0 ≤ b.toNat) (hhigh : b.toNat ≤ 0xEF) :
    next b bs = (some c, rest) ↔
      ∃ d e, bs = d :: e :: rest ∧ IsTail d ∧ IsTail e ∧
        (b.toNat = 0xE0 → 0xA0 ≤ d.toNat) ∧ (b.toNat = 0xED → d.toNat ≤ 0x9F) ∧
        c.toNat = (b.toNat % 16 * 64 + d.toNat % 64) * 64 + e.toNat % 64 := by
  obtain ⟨l, hl⟩ := exists_lead? (b := b) (by omega) (by omega)
  have hrow : l.follow = 2 ∧ ∀ c : UInt8, l.low ≤ c ∧ c ≤ l.high ↔
      IsTail c ∧ (b.toNat = 0xE0 → 0xA0 ≤ c.toNat) ∧ (b.toNat = 0xED → c.toNat ≤ 0x9F) := by
    rcases lead?_eq_some hl with ⟨-, -, h, -⟩ | ⟨h, -, -, hd⟩ | ⟨-, h, -⟩
    · omega
    · exact ⟨h, hd⟩
    · omega
  have hvalid : ∀ d e : UInt8, IsTail d → (b.toNat = 0xED → d.toNat ≤ 0x9F) →
      ((b.toNat % 16 * 64 + d.toNat % 64) * 64 + e.toNat % 64).isValidChar := fun d e hd hle => by
    unfold IsTail at hd
    unfold Nat.isValidChar
    omega
  rw [next_eq_of_lead (by omega), hl]
  constructor
  · rintro ⟨_, d, ds, v, ⟨⟩, rfl, hd, rfl, htake⟩
    rw [hrow.1] at htake
    obtain ⟨e, ds, rfl, he, htake⟩ := takeTails_succ.1 htake
    obtain ⟨hv, rfl⟩ := Prod.mk.inj htake
    obtain rfl := Option.some.inj hv
    obtain ⟨hd, hge, hle⟩ := (hrow.2 d).1 hd
    exact ⟨d, e, rfl, hd, he, hge, hle, (eq_ofNat_iff (hvalid d e hd hle)).1 rfl⟩
  · rintro ⟨d, e, rfl, hd, he, hge, hle, hc⟩
    refine ⟨l, d, e :: rest, _, rfl, rfl, (hrow.2 d).2 ⟨hd, hge, hle⟩,
      (eq_ofNat_iff (hvalid d e hd hle)).2 hc, ?_⟩
    rw [hrow.1]
    exact takeTails_succ.2 ⟨e, rest, rfl, he, rfl⟩

/-- Four octets that are a character: no overlong form, and nothing above 10FFFF. -/
theorem next_four (hlow : 0xF0 ≤ b.toNat) (hhigh : b.toNat ≤ 0xF4) :
    next b bs = (some c, rest) ↔
      ∃ d e f, bs = d :: e :: f :: rest ∧ IsTail d ∧ IsTail e ∧ IsTail f ∧
        (b.toNat = 0xF0 → 0x90 ≤ d.toNat) ∧ (b.toNat = 0xF4 → d.toNat ≤ 0x8F) ∧
        c.toNat = ((b.toNat % 8 * 64 + d.toNat % 64) * 64 + e.toNat % 64) * 64 + f.toNat % 64 := by
  obtain ⟨l, hl⟩ := exists_lead? (b := b) (by omega) (by omega)
  have hrow : l.follow = 3 ∧ ∀ c : UInt8, l.low ≤ c ∧ c ≤ l.high ↔
      IsTail c ∧ (b.toNat = 0xF0 → 0x90 ≤ c.toNat) ∧ (b.toNat = 0xF4 → c.toNat ≤ 0x8F) := by
    rcases lead?_eq_some hl with ⟨-, -, h, -⟩ | ⟨-, -, h, -⟩ | ⟨h, -, -, hd⟩
    · omega
    · omega
    · exact ⟨h, hd⟩
  have hvalid : ∀ d e f : UInt8, IsTail d → (b.toNat = 0xF0 → 0x90 ≤ d.toNat) →
      (b.toNat = 0xF4 → d.toNat ≤ 0x8F) →
      (((b.toNat % 8 * 64 + d.toNat % 64) * 64 + e.toNat % 64) * 64 + f.toNat % 64).isValidChar :=
    fun d e f hd hge hle => by
      unfold IsTail at hd
      unfold Nat.isValidChar
      omega
  rw [next_eq_of_lead (by omega), hl]
  constructor
  · rintro ⟨_, d, ds, v, ⟨⟩, rfl, hd, rfl, htake⟩
    rw [hrow.1] at htake
    obtain ⟨e, ds, rfl, he, htake⟩ := takeTails_succ.1 htake
    obtain ⟨f, ds, rfl, hf, htake⟩ := takeTails_succ.1 htake
    obtain ⟨hv, rfl⟩ := Prod.mk.inj htake
    obtain rfl := Option.some.inj hv
    obtain ⟨hd, hge, hle⟩ := (hrow.2 d).1 hd
    exact ⟨d, e, f, rfl, hd, he, hf, hge, hle, (eq_ofNat_iff (hvalid d e f hd hge hle)).1 rfl⟩
  · rintro ⟨d, e, f, rfl, hd, he, hf, hge, hle, hc⟩
    refine ⟨l, d, e :: f :: rest, _, rfl, rfl, (hrow.2 d).2 ⟨hd, hge, hle⟩,
      (eq_ofNat_iff (hvalid d e f hd hge hle)).2 hc, ?_⟩
    rw [hrow.1]
    exact takeTails_succ.2 ⟨e, _, rfl, he, takeTails_succ.2 ⟨f, rest, rfl, hf, rfl⟩⟩

theorem ofNat_eq_of_toNat {n : Nat} (h : n = b.toNat) : UInt8.ofNat n = b := by
  rw [h, UInt8.ofNat_toNat]

/-- A sequence that yields a character begins with its octets. -/
theorem eq_append_of_next (h : next b bs = (some c, rest)) :
    b :: bs = String.utf8EncodeChar c ++ rest := by
  by_cases hascii : b.toNat < 0x80
  · rw [next_ascii hascii] at h
    obtain ⟨hc, rfl⟩ := Prod.mk.inj h
    have hc := (eq_ofNat_iff (by left; omega)).1 (Option.some.inj hc).symm
    rw [encoded_one (by omega), ofNat_eq_of_toNat hc]
    rfl
  have hsome := h
  rw [next_eq_of_lead (by omega)] at hsome
  obtain ⟨l, -, -, -, hl, -⟩ := hsome
  rcases lead?_eq_some hl with ⟨-, hlow, hhigh, -⟩ | ⟨-, hlow, hhigh, -⟩ | ⟨-, hlow, hhigh, -⟩
  · obtain ⟨d, rfl, hd, hc⟩ := (next_two hlow hhigh).1 h
    unfold IsTail at hd
    rw [encoded_two (by omega) (by omega), ofNat_eq_of_toNat (b := b) (by omega),
      ofNat_eq_of_toNat (b := d) (by omega)]
    rfl
  · obtain ⟨d, e, rfl, hd, he, hge, hle, hc⟩ := (next_three hlow hhigh).1 h
    unfold IsTail at hd he
    rw [encoded_three (by omega) (by omega), ofNat_eq_of_toNat (b := b) (by omega),
      ofNat_eq_of_toNat (b := d) (by omega), ofNat_eq_of_toNat (b := e) (by omega)]
    rfl
  · obtain ⟨d, e, f, rfl, hd, he, hf, hge, hle, hc⟩ := (next_four hlow hhigh).1 h
    unfold IsTail at hd he hf
    rw [encoded_four (by omega), ofNat_eq_of_toNat (b := b) (by omega),
      ofNat_eq_of_toNat (b := d) (by omega), ofNat_eq_of_toNat (b := e) (by omega),
      ofNat_eq_of_toNat (b := f) (by omega)]
    rfl

/-- A character has a number of 21 bits at most, and is no surrogate. -/
theorem toNat_range (c : Char) : c.toNat < 0xD800 ∨ 0xDFFF < c.toNat ∧ c.toNat < 0x110000 := c.valid

/-- A sequence that begins with the octets of a character yields it. -/
theorem next_of_eq_append (h : b :: bs = String.utf8EncodeChar c ++ rest) :
    next b bs = (some c, rest) := by
  have hrange := toNat_range c
  have htail : ∀ n : Nat, IsTail (UInt8.ofNat (n % 64 + 0x80)) := fun n => by
    rw [IsTail, UInt8.toNat_ofNat']
    omega
  by_cases hone : c.toNat < 0x80
  · rw [encoded_one hone] at h
    obtain ⟨rfl, rfl⟩ := List.cons.inj h
    have hnum : (UInt8.ofNat c.toNat).toNat = c.toNat :=
      UInt8.toNat_ofNat_of_lt' (Nat.lt_trans hone (by decide))
    rw [next_ascii (by omega), hnum, c.ofNat_toNat]
  by_cases htwo : c.toNat < 0x800
  · rw [encoded_two (by omega) htwo] at h
    obtain ⟨rfl, rfl⟩ := List.cons.inj h
    refine (next_two ?_ ?_).2 ⟨_, rfl, htail _, ?_⟩
    all_goals
      simp only [UInt8.toNat_ofNat']
      omega
  by_cases hthree : c.toNat < 0x10000
  · rw [encoded_three (by omega) hthree] at h
    obtain ⟨rfl, rfl⟩ := List.cons.inj h
    refine (next_three ?_ ?_).2 ⟨_, _, rfl, htail _, htail _, ?_, ?_, ?_⟩
    all_goals
      simp only [UInt8.toNat_ofNat']
      omega
  · rw [encoded_four (by omega)] at h
    obtain ⟨rfl, rfl⟩ := List.cons.inj h
    refine (next_four ?_ ?_).2 ⟨_, _, _, rfl, htail _, htail _, htail _, ?_, ?_, ?_⟩
    all_goals
      simp only [UInt8.toNat_ofNat']
      omega

/-- What stands at the front of a sequence is the character whose octets do. -/
theorem next_eq_some_iff :
    next b bs = (some c, rest) ↔ b :: bs = String.utf8EncodeChar c ++ rest :=
  ⟨eq_append_of_next, next_of_eq_append⟩

/-- The octets of a character are decoded to it alone. -/
theorem decodeChars?_of_encoded (h : b :: bs = String.utf8EncodeChar c) :
    decodeChars? [] (b :: bs) = some [c] := by
  have hnext : next b bs = (some c, []) := next_of_eq_append (h.trans (List.append_nil _).symm)
  rw [decodeChars?, hnext]
  exact decodeChars?.eq_1 _

/-- What is decoded from its first octet on begins with a character. -/
theorem exists_of_decodeChars? {acc cs : List Char} (h : decodeChars? acc (b :: bs) = some cs) :
    ∃ c rest, b :: bs = String.utf8EncodeChar c ++ rest := by
  rw [decodeChars?] at h
  cases hc : (next b bs).1 with
  | none =>
      rw [hc] at h
      cases h
  | some c => exact ⟨c, (next b bs).2, eq_append_of_next (Prod.ext hc rfl)⟩

end Next

/-! ## Counting octets by the first -/

section Width

variable {b : UInt8} {bs : List UInt8} {c : Char}

/-- The leading one bits of an octet, by its number. -/
theorem leadingOnes_eq (b : UInt8) :
    leadingOnes b = if b.toNat < 0x80 then 0 else if b.toNat < 0xC0 then 1
      else if b.toNat < 0xE0 then 2 else if b.toNat < 0xF0 then 3 else if b.toNat < 0xF8 then 4
      else if b.toNat < 0xFC then 5 else if b.toNat < 0xFE then 6
      else if b.toNat < 0xFF then 7 else 8 := by
  unfold leadingOnes
  simp only [UInt8.lt_iff_toNat_lt, UInt8.reduceToNat]

/-- The first octet of a character tells how many there are. -/
theorem charWidth?_of_encoded (h : b :: bs = String.utf8EncodeChar c) :
    charWidth? b = some (bs.length + 1) := by
  have hrange := toNat_range c
  unfold charWidth?
  rw [leadingOnes_eq]
  by_cases hone : c.toNat < 0x80
  · rw [encoded_one hone] at h
    obtain ⟨rfl, rfl⟩ := List.cons.inj h
    rw [UInt8.toNat_ofNat', if_pos (by omega)]
    rfl
  by_cases htwo : c.toNat < 0x800
  · rw [encoded_two (by omega) htwo] at h
    obtain ⟨rfl, rfl⟩ := List.cons.inj h
    rw [UInt8.toNat_ofNat', if_neg (by omega), if_neg (by omega), if_pos (by omega)]
    rfl
  by_cases hthree : c.toNat < 0x10000
  · rw [encoded_three (by omega) hthree] at h
    obtain ⟨rfl, rfl⟩ := List.cons.inj h
    rw [UInt8.toNat_ofNat', if_neg (by omega), if_neg (by omega), if_neg (by omega),
      if_pos (by omega)]
    rfl
  · rw [encoded_four (by omega)] at h
    obtain ⟨rfl, rfl⟩ := List.cons.inj h
    rw [UInt8.toNat_ofNat', if_neg (by omega), if_neg (by omega), if_neg (by omega),
      if_neg (by omega), if_pos (by omega)]
    rfl

/-- No octet announces more than four. -/
theorem charWidth?_le {n : Nat} (h : charWidth? b = some n) : 1 ≤ n ∧ n ≤ 4 := by
  unfold charWidth? at h
  split at h <;> cases h <;> decide

end Width

end CellLisp.Utf8
