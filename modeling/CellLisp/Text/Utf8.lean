/-!
# `CellLisp.Text.Utf8` — octets and characters

Text is stored and exchanged as octets.  A lead octet fixes how many octets
follow it and which values the first of those may take:

    lead      octets   second octet
    00..7F    1        —
    C2..DF    2        80..BF
    E0        3        A0..BF
    E1..EC    3        80..BF
    ED        3        80..9F
    EE..EF    3        80..BF
    F0        4        90..BF
    F1..F3    4        80..BF
    F4        4        80..8F

Every later octet is in 80..BF.  The table leaves out overlong forms,
surrogates and everything above 10FFFF, so what it admits is what UTF-8 admits.

* `next` takes one character, or one ill-formed run, off a sequence of octets.
* `decode?` is strict; `lossy` puts U+FFFD for each ill-formed run.
-/

namespace CellLisp.Utf8

/-- Octets of a text. -/
def encode (s : String) : List UInt8 := s.toUTF8.toList

/-- A lead octet of a sequence longer than one: how many octets follow, and the
range of the first of them. -/
structure Lead where
  /-- Octets after the lead. -/
  follow : Nat
  /-- Least second octet. -/
  low : UInt8
  /-- Greatest second octet. -/
  high : UInt8
  deriving DecidableEq, Repr

/-- The row of the table for a lead octet of 80 or above; `none` for an octet
that starts nothing. -/
def lead? (b : UInt8) : Option Lead :=
  if b < 0xC2 then none
  else if b ≤ 0xDF then some ⟨1, 0x80, 0xBF⟩
  else if b = 0xE0 then some ⟨2, 0xA0, 0xBF⟩
  else if b = 0xED then some ⟨2, 0x80, 0x9F⟩
  else if b ≤ 0xEF then some ⟨2, 0x80, 0xBF⟩
  else if b = 0xF0 then some ⟨3, 0x90, 0xBF⟩
  else if b ≤ 0xF3 then some ⟨3, 0x80, 0xBF⟩
  else if b = 0xF4 then some ⟨3, 0x80, 0x8F⟩
  else none

/-- Payload bits of a lead octet with `follow` octets after it. -/
def leadBits (follow : Nat) (b : UInt8) : Nat := b.toNat % (64 >>> follow)

/-- Takes `n` octets of 80..BF, adding six bits each to `acc`: the result, unless
an octet does not fit, and what remains. -/
def takeTails : Nat → Nat → List UInt8 → Option Nat × List UInt8
  | 0, acc, bs => (some acc, bs)
  | _ + 1, _, [] => (none, [])
  | n + 1, acc, b :: bs =>
    if 0x80 ≤ b && b ≤ 0xBF then takeTails n (acc * 64 + b.toNat % 64) bs else (none, b :: bs)

/-- What stands at the front of a non-empty sequence: a character and the rest,
or `none` and the rest after the longest run that could have begun one. -/
def next (b : UInt8) (bs : List UInt8) : Option Char × List UInt8 :=
  if b < 0x80 then (some (Char.ofNat b.toNat), bs)
  else match lead? b, bs with
    | some l, c :: cs =>
      if l.low ≤ c && c ≤ l.high then
        let (code, rest) := takeTails (l.follow - 1) (leadBits l.follow b * 64 + c.toNat % 64) cs
        (code.map Char.ofNat, rest)
      else (none, bs)
    | _, _ => (none, bs)

theorem length_takeTails (n acc : Nat) (bs : List UInt8) :
    (takeTails n acc bs).2.length ≤ bs.length := by
  induction n generalizing acc bs with
  | zero => simp [takeTails]
  | succ n ih =>
    cases bs with
    | nil => simp [takeTails]
    | cons b bs =>
      simp only [takeTails]
      split
      · exact Nat.le_trans (ih _ bs) (by simp)
      · simp

/-- `next` leaves no more than what followed the first octet. -/
theorem length_next (b : UInt8) (bs : List UInt8) : (next b bs).2.length ≤ bs.length := by
  unfold next
  split
  · simp
  · split
    · split
      · exact Nat.le_trans (length_takeTails _ _ _) (by simp)
      · simp
    · simp

/-- Characters of a sequence of octets, or `none` if some part is ill-formed. -/
def decodeChars? (acc : List Char) : List UInt8 → Option (List Char)
  | [] => some acc.reverse
  | b :: bs =>
    match (next b bs).1 with
    | none => none
    | some c => decodeChars? (c :: acc) (next b bs).2
  termination_by bs => bs.length
  decreasing_by exact Nat.lt_succ_of_le (length_next b bs)

/-- The text that `bs` encodes, if it is well-formed throughout. -/
def decode? (bs : List UInt8) : Option String := (decodeChars? [] bs).map String.ofList

/-- Characters of a sequence of octets, U+FFFD standing for each ill-formed run. -/
def lossyChars (acc : List Char) : List UInt8 → List Char
  | [] => acc.reverse
  | b :: bs => lossyChars ((next b bs).1.getD (Char.ofNat 0xFFFD) :: acc) (next b bs).2
  termination_by bs => bs.length
  decreasing_by exact Nat.lt_succ_of_le (length_next b bs)

/-- The text of `bs`, U+FFFD standing for each ill-formed run. -/
def lossy (bs : List UInt8) : String := String.ofList (lossyChars [] bs)

/-- Number of leading one bits of an octet. -/
def leadingOnes (b : UInt8) : Nat :=
  if b < 0x80 then 0 else if b < 0xC0 then 1 else if b < 0xE0 then 2 else if b < 0xF0 then 3
  else if b < 0xF8 then 4 else if b < 0xFC then 5 else if b < 0xFE then 6
  else if b < 0xFF then 7 else 8

end CellLisp.Utf8
