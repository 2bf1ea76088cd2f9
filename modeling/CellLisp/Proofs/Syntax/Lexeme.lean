import CellLisp.Proofs.Syntax.Written
import CellLisp.Text.Utf8

/-!
# `CellLisp.Proofs.Syntax.Lexeme` — the octets of a text, divided

The scanner works on characters.  Here the same tokens are found among the octets of the text, by
longest runs and without a state:

| at the front | |
| :-- | :-- |
| nothing, or NUL | the end |
| an ASCII blank | passed over |
| `;` | passed over up to the end of the line |
| `(`, `)`, `'` | a lexeme |
| `"` | a string, up to the next `"`; none if the end or a NUL comes first |
| anything else | an atom, up to the next delimiter |

All delimiters are ASCII, and no octet of another character is; so the runs end where characters
do (`Token.lexemes_ofString`).
-/

namespace CellLisp

/-- A token as octets. -/
inductive Lexeme where
  | opening
  | closing
  | dot
  | quote
  | text (octets : List UInt8)
  | atom (octets : List UInt8)
  | unterminated
  deriving DecidableEq, Repr

namespace Lexeme

/-- Tab, line feed, form feed, carriage return or space. -/
def isBlank (b : UInt8) : Bool := b == 0x20 || b == 0x09 || b == 0x0A || b == 0x0D || b == 0x0C

/-- A blank, a parenthesis, a double quote, a quote, a semicolon or NUL. -/
def isDelimiter (b : UInt8) : Bool :=
  isBlank b || b == 0x28 || b == 0x29 || b == 0x22 || b == 0x27 || b == 0x3B || b == 0

/-- A run without a delimiter. -/
def ofRun (run : List UInt8) : Lexeme := if run = [0x2E] then .dot else .atom run

/-- The lexemes of a text. -/
def ofOctets : List UInt8 → List Lexeme
  | [] => []
  | b :: bs =>
    if b = 0 then []
    else if isBlank b then ofOctets bs
    else if b = 0x3B then ofOctets (bs.dropWhile (· ≠ 0x0A))
    else if b = 0x28 then .opening :: ofOctets bs
    else if b = 0x29 then .closing :: ofOctets bs
    else if b = 0x27 then .quote :: ofOctets bs
    else if b = 0x22 then
      match h : bs.dropWhile fun b => b ≠ 0x22 && b ≠ 0 with
      | 0x22 :: rest => .text (bs.takeWhile fun b => b ≠ 0x22 && b ≠ 0) :: ofOctets rest
      | _ => [.unterminated]
    else ofRun (b :: bs.takeWhile (!isDelimiter ·)) :: ofOctets (bs.dropWhile (!isDelimiter ·))
  termination_by bs => bs.length
  decreasing_by
    all_goals simp only [List.length_cons]
    · omega
    · exact Nat.lt_succ_of_le (List.dropWhile_sublist _).length_le
    · omega
    · omega
    · omega
    · have := (List.dropWhile_sublist (l := bs) fun b => b ≠ 0x22 && b ≠ 0).length_le
      rw [h, List.length_cons] at this
      omega
    · exact Nat.lt_succ_of_le (List.dropWhile_sublist _).length_le

@[simp] theorem ofOctets_nil : ofOctets [] = [] := by rw [ofOctets]

@[simp] theorem ofOctets_nul (bs : List UInt8) : ofOctets (0 :: bs) = [] := by simp [ofOctets]

theorem ofOctets_blank {b : UInt8} (hb : isBlank b = true) (bs : List UInt8) :
    ofOctets (b :: bs) = ofOctets bs := by
  have hne : b ≠ 0 := by rintro rfl; cases hb
  simp [ofOctets, hne, hb]

@[simp] theorem ofOctets_comment (bs : List UInt8) :
    ofOctets (0x3B :: bs) = ofOctets (bs.dropWhile (· ≠ 0x0A)) := by
  rw [ofOctets]
  simp [isBlank]

@[simp] theorem ofOctets_opening (bs : List UInt8) :
    ofOctets (0x28 :: bs) = .opening :: ofOctets bs := by
  rw [ofOctets]
  simp [isBlank]

@[simp] theorem ofOctets_closing (bs : List UInt8) :
    ofOctets (0x29 :: bs) = .closing :: ofOctets bs := by
  rw [ofOctets]
  simp [isBlank]

@[simp] theorem ofOctets_quote (bs : List UInt8) :
    ofOctets (0x27 :: bs) = .quote :: ofOctets bs := by
  rw [ofOctets]
  simp [isBlank]

/-- An octet that is no delimiter begins a run. -/
theorem ofOctets_run {b : UInt8} (hb : isDelimiter b = false) (bs : List UInt8) :
    ofOctets (b :: bs) = ofRun ((b :: bs).takeWhile (!isDelimiter ·))
      :: ofOctets ((b :: bs).dropWhile (!isDelimiter ·)) := by
  have hne : isBlank b = false ∧ b ≠ 0x28 ∧ b ≠ 0x29 ∧ b ≠ 0x22 ∧ b ≠ 0x27 ∧ b ≠ 0x3B ∧ b ≠ 0 := by
    simpa [isDelimiter, and_assoc] using hb
  obtain ⟨hblank, hopen, hclose, htext, hquote, hcomment, hnul⟩ := hne
  rw [List.takeWhile_cons_of_pos (by simp [hb]), List.dropWhile_cons_of_pos (by simp [hb])]
  rw [ofOctets]
  simp [hblank, hopen, hclose, htext, hquote, hcomment, hnul]

/-- A double quote begins a string. -/
theorem ofOctets_text {bs rest : List UInt8}
    (h : bs.dropWhile (fun b => b ≠ 0x22 && b ≠ 0) = 0x22 :: rest) :
    ofOctets (0x22 :: bs)
      = .text (bs.takeWhile fun b => b ≠ 0x22 && b ≠ 0) :: ofOctets rest := by
  rw [ofOctets]
  simp only [show ¬(0x22 : UInt8) = 0 by decide, show isBlank 0x22 = false by decide,
    show ¬(0x22 : UInt8) = 0x3B by decide, show ¬(0x22 : UInt8) = 0x28 by decide,
    show ¬(0x22 : UInt8) = 0x29 by decide, show ¬(0x22 : UInt8) = 0x27 by decide, if_false, if_true,
    Bool.false_eq_true]
  split
  · rename_i h'
    rw [h] at h'
    rw [(List.cons.inj h').2]
  · rename_i h'
    exact (h' _ h).elim

theorem ofOctets_unterminated {bs : List UInt8}
    (h : ∀ rest, bs.dropWhile (fun b => b ≠ 0x22 && b ≠ 0) ≠ 0x22 :: rest) :
    ofOctets (0x22 :: bs) = [.unterminated] := by
  rw [ofOctets]
  simp only [show ¬(0x22 : UInt8) = 0 by decide, show isBlank 0x22 = false by decide,
    show ¬(0x22 : UInt8) = 0x3B by decide, show ¬(0x22 : UInt8) = 0x28 by decide,
    show ¬(0x22 : UInt8) = 0x29 by decide, show ¬(0x22 : UInt8) = 0x27 by decide, if_false, if_true,
    Bool.false_eq_true]

end Lexeme

/-! ## Characters and their octets -/

namespace Utf8

theorem toList_eq_data (bytes : ByteArray) : bytes.toList = bytes.data.toList := by
  have hloop : ∀ i acc, ByteArray.toList.loop bytes i acc
      = acc.reverse ++ bytes.data.toList.drop i := by
    intro i acc
    fun_induction ByteArray.toList.loop bytes i acc with
    | case1 i acc hlt ih =>
        have hlt' : i < bytes.data.toList.length := by simpa using hlt
        rw [ih, List.drop_eq_getElem_cons hlt']
        simp only [List.reverse_cons, List.append_assoc, List.singleton_append, List.cons.injEq,
          and_true, List.append_cancel_left_eq]
        rw [ByteArray.get!, getElem!_pos bytes.data i (by simpa using hlt)]
        simp
    | case2 i acc hlt =>
        rw [List.drop_eq_nil_of_le (by simpa using hlt), List.append_nil]
  exact hloop 0 []

/-- The octets of a sequence of characters. -/
def octets (cs : List Char) : List UInt8 := cs.flatMap String.utf8EncodeChar

theorem encode_eq_octets (text : String) : encode text = octets text.toList := by
  have h : (String.ofList text.toList).toByteArray = text.toList.utf8Encode :=
    String.toByteArray_ofList
  rw [String.ofList_toList] at h
  rw [encode, String.toUTF8, toList_eq_data, h, List.utf8Encode, List.toList_data_toByteArray,
    octets]

theorem encode_injective {s t : String} (h : encode s = encode t) : s = t := by
  rw [encode, encode, toList_eq_data, toList_eq_data] at h
  exact String.toByteArray_inj.1 (ByteArray.ext (Array.toList_inj.1 h))

theorem octets_append (cs ds : List Char) : octets (cs ++ ds) = octets cs ++ octets ds := by
  simp [octets]

/-- An ASCII character is one octet. -/
theorem octets_ascii {c : Char} (hc : c.toNat < 128) (cs : List Char) :
    octets (c :: cs) = UInt8.ofNat c.toNat :: octets cs := by
  have hle : c.toNat ≤ 127 := Nat.le_of_lt_succ hc
  simp [octets, String.utf8EncodeChar, hle]

/-- Any other character is made of octets that are no ASCII characters. -/
theorem octets_other {c : Char} (hc : 128 ≤ c.toNat) (cs : List Char) :
    ∃ b bs, octets (c :: cs) = b :: (bs ++ octets cs) ∧ ∀ b' ∈ b :: bs, 0x80 ≤ b' := by
  have hlt : ¬c.val.toNat ≤ 127 := Nat.not_le.2 hc
  have hhigh : ∀ n : Nat, 128 ≤ n % 256 → (0x80 : UInt8) ≤ UInt8.ofNat n := fun n hn => by
    rw [UInt8.le_iff_toNat_le]
    simpa using hn
  rw [octets, List.flatMap_cons, String.utf8EncodeChar]
  simp only [if_neg hlt]
  split_ifs
  · refine ⟨_, _, rfl, ?_⟩
    simp only [List.mem_cons, List.not_mem_nil, or_false, forall_eq_or_imp, forall_eq]
    exact ⟨hhigh _ (by omega), hhigh _ (by omega)⟩
  · refine ⟨_, _, rfl, ?_⟩
    simp only [List.mem_cons, List.not_mem_nil, or_false, forall_eq_or_imp, forall_eq]
    exact ⟨hhigh _ (by omega), hhigh _ (by omega), hhigh _ (by omega)⟩
  · refine ⟨_, _, rfl, ?_⟩
    simp only [List.mem_cons, List.not_mem_nil, or_false, forall_eq_or_imp, forall_eq]
    exact ⟨hhigh _ (by omega), hhigh _ (by omega), hhigh _ (by omega), hhigh _ (by omega)⟩

/-- A set of octets and a set of characters: the same ASCII characters, and all others. -/
structure SameClass (p : UInt8 → Bool) (q : Char → Bool) : Prop where
  ascii : ∀ n, n < 128 → p (UInt8.ofNat n) = q (Char.ofNat n)
  octet : ∀ b : UInt8, 0x80 ≤ b → p b = true
  char : ∀ c : Char, 128 ≤ c.toNat → q c = true

section SameClass

variable {p : UInt8 → Bool} {q : Char → Bool}

/-- A longest run of characters is one of octets, and so is what is behind it. -/
theorem SameClass.span (h : SameClass p q) (cs : List Char) :
    (octets cs).takeWhile p = octets (cs.takeWhile q) ∧
      (octets cs).dropWhile p = octets (cs.dropWhile q) := by
  induction cs with
  | nil => exact ⟨rfl, rfl⟩
  | cons c cs ih =>
      rcases Nat.lt_or_ge c.toNat 128 with hc | hc
      · have hp := h.ascii c.toNat hc
        rw [Char.ofNat_toNat] at hp
        rw [octets_ascii hc, List.takeWhile_cons, List.dropWhile_cons, List.takeWhile_cons,
          List.dropWhile_cons, hp]
        split
        · exact ⟨by rw [ih.1, octets_ascii hc], ih.2⟩
        · exact ⟨rfl, (octets_ascii hc cs).symm⟩
      · obtain ⟨b, bs, hcons, hhigh⟩ := octets_other hc cs
        have hall : ∀ b' ∈ b :: bs, p b' = true := fun b' hb' => h.octet b' (hhigh b' hb')
        have hself : octets [c] = b :: bs := by
          have := hcons
          rw [← List.singleton_append, octets_append, ← List.cons_append] at this
          exact List.append_cancel_right this
        rw [hcons, ← List.cons_append, List.takeWhile_append_of_pos hall,
          List.dropWhile_append_of_pos hall, List.takeWhile_cons_of_pos (h.char c hc),
          List.dropWhile_cons_of_pos (h.char c hc), ih.1, ih.2,
          ← List.singleton_append (l := cs.takeWhile q), octets_append, hself]
        exact ⟨rfl, rfl⟩

end SameClass

theorem sameClass_plain : SameClass (!Lexeme.isDelimiter ·) (!Token.isDelimiter ·) where
  ascii := by decide
  octet b hb := by
    rw [Bool.not_eq_true', Bool.eq_false_iff]
    intro hd
    rw [UInt8.le_iff_toNat_le] at hb
    simp only [Lexeme.isDelimiter, Lexeme.isBlank, Bool.or_eq_true, beq_iff_eq] at hd
    rcases hd with (((((((((rfl | rfl) | rfl) | rfl) | rfl) | rfl) | rfl) | rfl) | rfl) | rfl) | rfl
      <;> exact absurd hb (by decide)
  char c hc := by
    rw [Bool.not_eq_true', Bool.eq_false_iff]
    intro hd
    simp only [Token.isDelimiter, Text.isAsciiBlank, Bool.or_eq_true, beq_iff_eq] at hd
    rcases hd with (((((((((rfl | rfl) | rfl) | rfl) | rfl) | rfl) | rfl) | rfl) | rfl) | rfl) | rfl
      <;> exact absurd hc (by decide)

theorem sameClass_quoted : SameClass (fun b => b ≠ 0x22 && b ≠ 0) (fun c => c ≠ '"' && c ≠ '\x00') where
  ascii := by decide
  octet b hb := by
    rw [UInt8.le_iff_toNat_le] at hb
    simp only [ne_eq, decide_not, Bool.and_eq_true, Bool.not_eq_true', decide_eq_false_iff_not]
    constructor <;> (rintro rfl; exact absurd hb (by decide))
  char c hc := by
    simp only [ne_eq, decide_not, Bool.and_eq_true, Bool.not_eq_true', decide_eq_false_iff_not]
    constructor <;> (rintro rfl; exact absurd hc (by decide))

theorem sameClass_line : SameClass (fun b => b ≠ 0x0A) (fun c => c ≠ '\n') where
  ascii := by decide
  octet b hb := by
    rw [UInt8.le_iff_toNat_le] at hb
    simp only [ne_eq, decide_not, Bool.not_eq_true', decide_eq_false_iff_not]
    rintro rfl
    exact absurd hb (by decide)
  char c hc := by
    simp only [ne_eq, decide_not, Bool.not_eq_true', decide_eq_false_iff_not]
    rintro rfl
    exact absurd hc (by decide)

end Utf8

/-! ## The scanner -/

namespace Token

/-- A token's octets. -/
def lexeme : Token → Lexeme
  | .opening => .opening
  | .closing => .closing
  | .dot => .dot
  | .quote => .quote
  | .text s => .text (Utf8.encode s)
  | .atom s => .atom (Utf8.encode s)
  | .unterminated => .unterminated

theorem lexeme_injective : Function.Injective lexeme := by
  intro t u h
  cases t <;> cases u <;> simp only [lexeme, Lexeme.text.injEq, Lexeme.atom.injEq, reduceCtorEq] at h
    <;> first | rfl | rw [Utf8.encode_injective h]

open Utf8 (octets)

theorem lexeme_ofAtom (acc : List Char) :
    (ofAtom acc).lexeme = .ofRun (octets acc.reverse) := by
  have hdot : octets ['.'] = [0x2E] := rfl
  have hencode : Utf8.encode (String.ofList acc.reverse) = octets acc.reverse := by
    rw [Utf8.encode_eq_octets, String.toList_ofList]
  unfold ofAtom Lexeme.ofRun
  by_cases h : String.ofList acc.reverse = "."
  · have hacc : acc.reverse = ['.'] := by simpa using congrArg String.toList h
    simp only [if_true, hacc, hdot]
    rfl
  · have hne : octets acc.reverse ≠ [0x2E] := fun e => h <| by
      refine Utf8.encode_injective (hencode.trans (e.trans ?_))
      rw [Utf8.encode_eq_octets]
      exact hdot.symm
    simp only [h, if_false, if_neg hne, lexeme, hencode]

/-- Behind a run of characters that is as long as can be, the scanner goes on as between tokens. -/
theorem finish_atom (run rest acc : List Char) (ts : List Token)
    (hrun : ∀ c ∈ run, isDelimiter c = false) (hrest : ∀ c ∈ rest.head?, isDelimiter c = true) :
    finish ((run ++ rest).foldl step (ts, .atom acc))
      = finish (rest.foldl step (ofAtom (run.reverse ++ acc) :: ts, .blank)) := by
  rw [List.foldl_append, foldl_step_atom ts hrun]
  cases rest with
  | nil => rfl
  | cons c rest =>
      have hc := hrest c rfl
      simp only [List.foldl_cons, step, hc, if_true]

theorem finish_text (run rest acc : List Char) (ts : List Token)
    (hrun : ∀ c ∈ run, c ≠ '"' ∧ c ≠ '\x00') :
    finish ((run ++ '"' :: rest).foldl step (ts, .text acc))
      = finish (rest.foldl step (.text (String.ofList (acc.reverse ++ run)) :: ts, .blank)) := by
  rw [List.foldl_append, foldl_step_text ts hrun, List.foldl_cons]
  simp [step]

theorem foldl_step_done (ts : List Token) (cs : List Char) :
    cs.foldl step (ts, .done) = (ts, .done) := by
  induction cs with
  | nil => rfl
  | cons c cs ih => exact ih

/-- A string without an end. -/
theorem finish_unterminated (run rest acc : List Char) (ts : List Token)
    (hrun : ∀ c ∈ run, c ≠ '"' ∧ c ≠ '\x00') (hrest : ∀ c ∈ rest.head?, c = '\x00') :
    finish ((run ++ rest).foldl step (ts, .text acc)) = .unterminated :: ts := by
  rw [List.foldl_append, foldl_step_text ts hrun]
  cases rest with
  | nil => rfl
  | cons c rest =>
      obtain rfl := hrest c rfl
      have hnul : step (ts, .text (run.reverse ++ acc)) '\x00' = (.unterminated :: ts, .done) := rfl
      rw [List.foldl_cons, hnul, foldl_step_done]
      rfl

theorem foldl_step_comment (ts : List Token) (run : List Char) (hrun : ∀ c ∈ run, c ≠ '\n') :
    run.foldl step (ts, .comment) = (ts, .comment) := by
  induction run with
  | nil => rfl
  | cons c run ih =>
      have hc : c ≠ '\n' := hrun c List.mem_cons_self
      rw [List.foldl_cons, show step (ts, .comment) c = (ts, .comment) by simp [step, hc]]
      exact ih fun c' hc' => hrun c' (List.mem_cons_of_mem _ hc')

theorem finish_comment (run rest : List Char) (ts : List Token) (hrun : ∀ c ∈ run, c ≠ '\n')
    (hrest : ∀ c ∈ rest.head?, c = '\n') :
    finish ((run ++ rest).foldl step (ts, .comment)) = finish (rest.foldl step (ts, .blank)) := by
  rw [List.foldl_append, foldl_step_comment ts run hrun]
  cases rest with
  | nil => rfl
  | cons c rest =>
      obtain rfl := hrest c rfl
      rfl

theorem mem_takeWhile {p : Char → Bool} {cs : List Char} {c : Char} (hc : c ∈ cs.takeWhile p) :
    p c = true :=
  List.all_eq_true.1 List.all_takeWhile c hc

theorem head_dropWhile {p : Char → Bool} (cs : List Char) :
    ∀ c ∈ (cs.dropWhile p).head?, p c = false := by
  intro c hc
  have h := List.head?_dropWhile_not p cs
  rw [Option.mem_def.1 hc] at h
  exact h

/-- A character that is no delimiter begins a run. -/
theorem ofOctets_plain {c : Char} (hc : isDelimiter c = false) (cs : List Char) :
    Lexeme.ofOctets (octets (c :: cs)) =
      .ofRun (octets (c :: cs.takeWhile (!isDelimiter ·)))
        :: Lexeme.ofOctets (octets (cs.dropWhile (!isDelimiter ·))) := by
  obtain ⟨htake, hdrop⟩ := Utf8.sameClass_plain.span (c :: cs)
  rw [List.takeWhile_cons_of_pos (by simp [hc])] at htake
  rw [List.dropWhile_cons_of_pos (by simp [hc])] at hdrop
  obtain ⟨b, bs, hcons, hb⟩ : ∃ b bs, octets (c :: cs) = b :: bs ∧ Lexeme.isDelimiter b = false := by
    rcases Nat.lt_or_ge c.toNat 128 with h | h
    · refine ⟨_, _, Utf8.octets_ascii h cs, ?_⟩
      have := Utf8.sameClass_plain.ascii c.toNat h
      rw [Char.ofNat_toNat, hc] at this
      simpa using this
    · obtain ⟨b, bs, heq, hhigh⟩ := Utf8.octets_other h cs
      refine ⟨b, _, heq, ?_⟩
      simpa using Utf8.sameClass_plain.octet b (hhigh b List.mem_cons_self)
  rw [hcons] at htake hdrop ⊢
  rw [Lexeme.ofOctets_run hb, htake, hdrop]

theorem delimiter_cases {c : Char} (hd : isDelimiter c = true) :
    Text.isAsciiBlank c = true ∨
      c = '(' ∨ c = ')' ∨ c = '"' ∨ c = '\x27' ∨ c = ';' ∨ c = '\x00' := by
  simpa [isDelimiter, or_assoc] using hd

theorem octets_opening (cs : List Char) : octets ('(' :: cs) = 0x28 :: octets cs := rfl

theorem octets_closing (cs : List Char) : octets (')' :: cs) = 0x29 :: octets cs := rfl

theorem octets_quote (cs : List Char) : octets ('\x27' :: cs) = 0x27 :: octets cs := rfl

theorem octets_doubleQuote (cs : List Char) : octets ('"' :: cs) = 0x22 :: octets cs := rfl

theorem octets_semicolon (cs : List Char) : octets (';' :: cs) = 0x3B :: octets cs := rfl

theorem octets_nul (cs : List Char) : octets ('\x00' :: cs) = 0 :: octets cs := rfl

/-- A blank is passed over. -/
theorem blank_of_isAsciiBlank {c : Char} (hc : Text.isAsciiBlank c = true) (ts : List Token)
    (cs : List Char) : step (ts, .blank) c = (ts, .blank) ∧
      ∃ b, Lexeme.isBlank b = true ∧ octets (c :: cs) = b :: octets cs := by
  refine ⟨by simp [step, start, hc, add], UInt8.ofNat c.toNat, ?_⟩
  simp only [Text.isAsciiBlank, Bool.or_eq_true, beq_iff_eq] at hc
  rcases hc with (((rfl | rfl) | rfl) | rfl) | rfl <;>
    exact ⟨by decide, Utf8.octets_ascii (by decide) cs⟩

/-- A string ends, or never does. -/
theorem text_cases (cs : List Char) :
    (∃ run rest, cs = run ++ '"' :: rest ∧ (∀ c ∈ run, c ≠ '"' ∧ c ≠ '\x00') ∧
      Lexeme.ofOctets (0x22 :: octets cs)
        = .text (octets run) :: Lexeme.ofOctets (octets rest)) ∨
    (∀ ts, finish (cs.foldl step (ts, .text [])) = .unterminated :: ts) ∧
      Lexeme.ofOctets (0x22 :: octets cs) = [.unterminated] := by
  obtain ⟨htake, hdrop⟩ := Utf8.sameClass_quoted.span cs
  have hcs := List.takeWhile_append_dropWhile (p := fun c => c ≠ '"' && c ≠ '\x00') (l := cs)
  have hrun : ∀ c ∈ cs.takeWhile fun c => c ≠ '"' && c ≠ '\x00', c ≠ '"' ∧ c ≠ '\x00' :=
    fun c hc => by simpa using mem_takeWhile hc
  have hstop : ∀ c ∈ (cs.dropWhile fun c => c ≠ '"' && c ≠ '\x00').head?, c = '"' ∨ c = '\x00' :=
    fun c hc => by simpa [Decidable.or_iff_not_imp_left] using head_dropWhile cs c hc
  generalize cs.takeWhile (fun c => c ≠ '"' && c ≠ '\x00') = run at *
  generalize cs.dropWhile (fun c => c ≠ '"' && c ≠ '\x00') = rest at *
  by_cases hquote : ∃ rest', rest = '"' :: rest'
  · obtain ⟨rest', rfl⟩ := hquote
    refine .inl ⟨run, rest', hcs.symm, hrun, ?_⟩
    rw [octets_doubleQuote] at hdrop
    rw [Lexeme.ofOctets_text hdrop, htake]
  · have hnul : ∀ c ∈ rest.head?, c = '\x00' := by
      intro c hc
      refine (hstop c hc).resolve_left ?_
      rintro rfl
      obtain ⟨rest', rfl⟩ := List.head?_eq_some_iff.1 hc
      exact hquote ⟨rest', rfl⟩
    refine .inr ⟨fun ts => ?_, Lexeme.ofOctets_unterminated fun bs hbs => ?_⟩
    · rw [← hcs]
      exact finish_unterminated run rest [] ts hrun hnul
    · rw [hdrop] at hbs
      cases rest with
      | nil => cases hbs
      | cons c rest =>
          obtain rfl := hnul c rfl
          cases hbs

/-- Between tokens the scanner finds what longest runs find. -/
theorem lexeme_finish (cs : List Char) (ts : List Token) :
    (finish (cs.foldl step (ts, .blank))).map lexeme
      = (Lexeme.ofOctets (octets cs)).reverse ++ ts.map lexeme := by
  induction hn : cs.length using Nat.strong_induction_on generalizing cs ts with
  | _ n ih =>
      have hnext : ∀ ds us, ds.length < n → (finish (ds.foldl step (us, .blank))).map lexeme
          = (Lexeme.ofOctets (octets ds)).reverse ++ us.map lexeme := fun ds us hds => ih _ hds ds us rfl
      clear ih
      subst hn
      cases cs with
      | nil => simp [octets, finish]
      | cons c cs =>
          have hlt : cs.length < (c :: cs).length := Nat.lt_succ_self _
          have hdrop : ∀ p, (cs.dropWhile p).length < (c :: cs).length := fun p =>
            Nat.lt_succ_of_le (List.dropWhile_sublist _).length_le
          rw [List.foldl_cons]
          cases hd : isDelimiter c with
          | false =>
              rw [ofOctets_plain hd]
              have hstep : step (ts, .blank) c = (ts, .atom [c]) := by
                simp only [step, start_of_plain hd, add]
              conv_lhs => rw [hstep, ← List.takeWhile_append_dropWhile (p := (!isDelimiter ·)) (l := cs)]
              rw [finish_atom _ _ _ _ (fun c' hc' => by simpa using mem_takeWhile hc')
                (fun c' hc' => by simpa using head_dropWhile cs c' hc'), hnext _ _ (hdrop _)]
              simp [lexeme_ofAtom]
          | true =>
              rcases delimiter_cases hd with hblank | rfl | rfl | rfl | rfl | rfl | rfl
              · obtain ⟨hstep, b, hb, hoctets⟩ := blank_of_isAsciiBlank hblank ts cs
                rw [hstep, hoctets, Lexeme.ofOctets_blank hb]
                exact hnext cs ts hlt
              · rw [octets_opening, Lexeme.ofOctets_opening, List.reverse_cons, List.append_assoc]
                exact hnext cs (.opening :: ts) hlt
              · rw [octets_closing, Lexeme.ofOctets_closing, List.reverse_cons, List.append_assoc]
                exact hnext cs (.closing :: ts) hlt
              · rw [octets_doubleQuote]
                change List.map lexeme (finish (cs.foldl step (ts, .text []))) = _
                rcases text_cases cs with ⟨run, rest, hcs, hrun, hoctets⟩ | ⟨hscan, hoctets⟩
                · rw [hcs, finish_text run rest [] ts hrun, ← hcs, hoctets]
                  have hrest : rest.length < ('"' :: cs).length := by
                    rw [hcs]
                    simp only [List.length_cons, List.length_append]
                    omega
                  rw [hnext _ _ hrest]
                  simp [lexeme, Utf8.encode_eq_octets]
                · rw [hscan, hoctets]
                  rfl
              · rw [octets_quote, Lexeme.ofOctets_quote, List.reverse_cons, List.append_assoc]
                exact hnext cs (.quote :: ts) hlt
              · rw [octets_semicolon, Lexeme.ofOctets_comment, (Utf8.sameClass_line.span cs).2,
                  ← hnext _ _ (hdrop _)]
                change List.map lexeme (finish (cs.foldl step (ts, .comment))) = _
                conv_lhs => rw [← List.takeWhile_append_dropWhile (p := (· ≠ '\n')) (l := cs)]
                rw [finish_comment _ _ _ (fun c hc => by simpa using mem_takeWhile hc)
                  (fun c hc => by simpa using head_dropWhile cs c hc)]
              · rw [octets_nul, Lexeme.ofOctets_nul]
                change List.map lexeme (finish (cs.foldl step (ts, .done))) = _
                rw [foldl_step_done]
                rfl

/-- The scanner finds the lexemes of a text. -/
theorem lexeme_ofString (text : String) :
    (ofString text).map lexeme = Lexeme.ofOctets (Utf8.encode text) := by
  rw [ofString, scan, List.map_reverse, lexeme_finish, Utf8.encode_eq_octets]
  simp

end Token
end CellLisp
