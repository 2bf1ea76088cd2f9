import CellLisp.Proofs.Number.Legible
import CellLisp.Syntax.Datum
import CellLisp.Syntax.Token

/-!
# `CellLisp.Proofs.Syntax.Written` — trees as text and as tokens

A tree is *readable* when each of its leaves can be written as one token or as `()`.
`Datum.text` is its text and `Datum.tokens` are its tokens; both are built along the tails of
a list, so that a dotted tail that is a list is no tail of its own:

| | `text`, `tokens` | `tailText`, `tailTokens` |
| :-- | :-- | :-- |
| `nil` | `()` | `)` |
| a pair | `(`, the head, the tail | a blank, the head, the tail |
| another leaf | the leaf | ` . `, the leaf, `)` |

`Datum.scan_text` says that scanning the text gives the tokens.
-/

namespace CellLisp

/-- A text that is one token with the name of a number or a symbol. -/
structure Token.Word (text : String) : Prop where
  nonempty : text ≠ ""
  plain : ∀ c ∈ text.toList, Token.isDelimiter c = false
  notDot : text ≠ "."

/-- A name that is read as a symbol. -/
structure Symbol.Name (name : String) : Prop where
  word : Token.Word name
  notNumeral : Number.parse? name = none

/-- A text that can stand between double quotes. -/
def Token.Quotable (text : String) : Prop := ∀ c ∈ text.toList, c ≠ '"' ∧ c ≠ '\x00'

instance (text : String) : Decidable (Token.Word text) :=
  have := List.decidableBAll (fun c => Token.isDelimiter c = false) text.toList
  decidable_of_iff (text ≠ "" ∧ (∀ c ∈ text.toList, Token.isDelimiter c = false) ∧ text ≠ ".")
    ⟨fun h => ⟨h.1, h.2.1, h.2.2⟩, fun h => ⟨h.nonempty, h.plain, h.notDot⟩⟩

instance (name : String) : Decidable (Symbol.Name name) :=
  decidable_of_iff (Token.Word name ∧ Number.parse? name = none)
    ⟨fun h => ⟨h.1, h.2⟩, fun h => ⟨h.word, h.notNumeral⟩⟩

instance (text : String) : Decidable (Token.Quotable text) :=
  List.decidableBAll (fun c => c ≠ '"' ∧ c ≠ '\x00') text.toList

/-- A number whose text is one token, which reads back as the number. -/
structure Number.Legible (text : String) (n : Number) : Prop where
  word : Token.Word text
  parse : Number.parse? text = some n

/-- A text of digits, points, marks and signs in which a digit comes first. -/
theorem Token.word_of_plain {text : String}
    (hfirst : Literal.DigitFirst (Literal.splitSign text.toList).2)
    (hplain : ∀ c ∈ text.toList, Binary32.IsPlain c) : Token.Word text where
  nonempty := by
    rintro rfl
    obtain ⟨c, rest, h, -⟩ := hfirst
    cases h
  plain c hc := by
    rcases hplain c hc with hd | rfl | rfl | rfl
    · have hrange := Digits.toNat_of_isDigit hd
      have hne : ∀ c' : Char, c'.toNat < 48 ∨ 57 < c'.toNat → (c == c') = false := by
        intro c' h
        rw [beq_eq_false_iff_ne]
        rintro rfl
        omega
      simp only [isDelimiter, Text.isAsciiBlank]
      rw [hne, hne, hne, hne, hne, hne, hne, hne, hne, hne, hne] <;> decide
    · decide
    · decide
    · decide
  notDot := by
    rintro rfl
    obtain ⟨c, rest, h, hc⟩ := hfirst
    cases h
    cases hc

/-- An integer in range is legible. -/
theorem Number.legible_int {i : Int} (h : intMin ≤ i ∧ i ≤ intMax) :
    Number.Legible (toString i) (.int i) := by
  refine ⟨Token.word_of_plain ?_ fun c hc => Binary32.isPlain_toString hc,
    Number.parse?_toString h.1 h.2⟩
  have hfirst := Literal.digitFirst_of_digits (Digits.digitsOf_ne_nil i.natAbs)
    (Binary32.hasDigits i.natAbs)
  rw [Literal.toList_toString_int, Literal.splitSign_signed hfirst]
  exact hfirst

/-- A finite float is legible. -/
theorem Number.legible_float {x : Binary32} (hx : x.isFinite = true) :
    Number.Legible x.text (.float x) :=
  ⟨Token.word_of_plain (Binary32.word_text hx).1 (Binary32.word_text hx).2, Binary32.parse?_text hx⟩

namespace Datum

/-- A tree whose leaves can be written. -/
def Readable : Datum → Prop
  | .nil => True
  | .int i => intMin ≤ i ∧ i ≤ intMax
  | .float x => x.isFinite = true
  | .symbol name => Symbol.Name name
  | .string text => Token.Quotable text
  | .pair head tail => head.Readable ∧ tail.Readable
  | .other => False

instance : DecidablePred Readable := go
where
  /-- Leaf by leaf. -/
  go : (d : Datum) → Decidable d.Readable
    | .nil => .isTrue trivial
    | .int i => inferInstanceAs (Decidable (intMin ≤ i ∧ i ≤ intMax))
    | .float x => inferInstanceAs (Decidable (x.isFinite = true))
    | .symbol name => inferInstanceAs (Decidable (Symbol.Name name))
    | .string text => inferInstanceAs (Decidable (Token.Quotable text))
    | .pair head tail =>
      have := go head
      have := go tail
      inferInstanceAs (Decidable (head.Readable ∧ tail.Readable))
    | .other => .isFalse id

/-- Text of a leaf. -/
def atomText : Datum → String
  | .nil => "()"
  | .int i => toString i
  | .float x => x.text
  | .symbol name => name
  | .string text => "\"" ++ text ++ "\""
  | .pair _ _ | .other => ""

mutual

/-- Text of a tree. -/
def text : Datum → String
  | .pair head tail => "(" ++ head.text ++ tail.tailText
  | d => d.atomText

/-- Text of a tree behind the elements of a list. -/
def tailText : Datum → String
  | .nil => ")"
  | .pair head tail => " " ++ head.text ++ tail.tailText
  | d => " . " ++ d.atomText ++ ")"

end

/-- Tokens of a leaf. -/
def atomTokens : Datum → List Token
  | .nil => [.opening, .closing]
  | .int i => [.atom (toString i)]
  | .float x => [.atom x.text]
  | .symbol name => [.atom name]
  | .string text => [.text text]
  | .pair _ _ | .other => []

mutual

/-- Tokens of a tree. -/
def tokens : Datum → List Token
  | .pair head tail => .opening :: (head.tokens ++ tail.tailTokens)
  | d => d.atomTokens

/-- Tokens of a tree behind the elements of a list. -/
def tailTokens : Datum → List Token
  | .nil => [.closing]
  | .pair head tail => head.tokens ++ tail.tailTokens
  | d => .dot :: (d.atomTokens ++ [.closing])

end

/-- A leaf. -/
def IsAtom : Datum → Prop
  | .pair _ _ => False
  | _ => True

/-- Induction on a tree whose leaves are all alike. -/
@[elab_as_elim] theorem leafInduction {P : Datum → Prop} (leaf : ∀ d : Datum, d.IsAtom → P d)
    (pair : ∀ a b, P a → P b → P (.pair a b)) (d : Datum) : P d := by
  induction d with
  | pair a b iha ihb => exact pair a b iha ihb
  | _ => exact leaf _ trivial

theorem text_of_isAtom {d : Datum} (h : d.IsAtom) : d.text = d.atomText := by
  cases d <;> first | rfl | exact h.elim

theorem tokens_of_isAtom {d : Datum} (h : d.IsAtom) : d.tokens = d.atomTokens := by
  cases d <;> first | rfl | exact h.elim

theorem tailText_of_isAtom {d : Datum} (h : d.IsAtom) (hn : d ≠ .nil) :
    d.tailText = " . " ++ d.atomText ++ ")" := by
  cases d <;> first | rfl | exact h.elim | exact absurd rfl hn

theorem tailTokens_of_isAtom {d : Datum} (h : d.IsAtom) (hn : d ≠ .nil) :
    d.tailTokens = .dot :: (d.atomTokens ++ [.closing]) := by
  cases d <;> first | rfl | exact h.elim | exact absurd rfl hn

end Datum

/-! ## Scanning -/

namespace Token

/-- The tokens so far, in reverse, if a delimiter came next. -/
def flush (p : List Token × Scan) : List Token :=
  match p.2 with
  | .atom acc => ofAtom acc :: p.1
  | _ => p.1

/-- The scanner has come to the end of some tokens, or of a word that is the last of them. -/
structure Between (p : List Token × Scan) (ts : List Token) : Prop where
  scan : p.2 = .blank ∨ ∃ acc, p.2 = .atom acc
  tokens : flush p = ts

theorem between_blank (ts : List Token) : Between (ts, .blank) ts := ⟨.inl rfl, rfl⟩

/-- A delimiter ends a word. -/
theorem step_of_between {p : List Token × Scan} {ts : List Token} {c : Char} (h : Between p ts)
    (hc : isDelimiter c = true) : step p c = (add ts (start c).1, (start c).2) := by
  obtain ⟨ts', st⟩ := p
  obtain ⟨rfl | ⟨acc, rfl⟩, rfl⟩ := h
  · rfl
  · simp [step, hc, flush]

theorem finish_of_between {p : List Token × Scan} {ts : List Token} (h : Between p ts) :
    finish p = ts := by
  obtain ⟨ts', st⟩ := p
  obtain ⟨rfl | ⟨acc, rfl⟩, rfl⟩ := h <;> rfl

theorem foldl_step_atom {cs acc : List Char} (ts : List Token)
    (hcs : ∀ c ∈ cs, isDelimiter c = false) :
    cs.foldl step (ts, .atom acc) = (ts, .atom (cs.reverse ++ acc)) := by
  induction cs generalizing acc with
  | nil => rfl
  | cons c cs ih =>
      have hc : isDelimiter c = false := hcs c (by simp)
      rw [List.foldl_cons]
      have hstep : step (ts, .atom acc) c = (ts, .atom (c :: acc)) := by simp [step, hc]
      rw [hstep, ih fun c' h => hcs c' (by simp [h])]
      simp

/-- A character that is no delimiter begins a word. -/
theorem start_of_plain {c : Char} (hc : isDelimiter c = false) : start c = (none, .atom [c]) := by
  simp only [isDelimiter, Bool.or_eq_false_iff, beq_eq_false_iff_ne] at hc
  obtain ⟨⟨⟨⟨⟨⟨hb, h1⟩, h2⟩, h3⟩, h4⟩, h5⟩, h6⟩ := hc
  simp [start, hb, h1, h2, h3, h4, h5, h6]

/-- Scanning a word. -/
theorem between_word {text : String} (hw : Word text) (ts : List Token) :
    Between (text.toList.foldl step (ts, .blank)) (.atom text :: ts) := by
  obtain ⟨c, cs, hcs⟩ : ∃ c cs, text.toList = c :: cs := by
    cases h : text.toList with
    | nil => exact absurd (String.toList_inj.1 h) hw.nonempty
    | cons c cs => exact ⟨c, cs, rfl⟩
  have hplain := hw.plain
  rw [hcs] at hplain ⊢
  have hstart : step (ts, .blank) c = (ts, .atom [c]) := by
    simp [step, start_of_plain (hplain c (by simp)), add]
  rw [List.foldl_cons, hstart, foldl_step_atom ts fun c' h => hplain c' (by simp [h])]
  refine ⟨.inr ⟨_, rfl⟩, ?_⟩
  have htext : String.ofList (c :: cs) = text := by rw [← hcs, String.ofList_toList]
  simp [flush, ofAtom, htext, hw.notDot]

theorem foldl_step_text {cs acc : List Char} (ts : List Token)
    (hcs : ∀ c ∈ cs, c ≠ '"' ∧ c ≠ '\x00') :
    cs.foldl step (ts, .text acc) = (ts, .text (cs.reverse ++ acc)) := by
  induction cs generalizing acc with
  | nil => rfl
  | cons c cs ih =>
      obtain ⟨hq, hz⟩ := hcs c (by simp)
      rw [List.foldl_cons]
      have hstep : step (ts, .text acc) c = (ts, .text (c :: acc)) := by simp [step, hq, hz]
      rw [hstep, ih fun c' h => hcs c' (by simp [h])]
      simp

/-- Scanning a string. -/
theorem foldl_step_quoted {text : String} (hq : Quotable text) (ts : List Token) :
    ("\"" ++ text ++ "\"").toList.foldl step (ts, .blank) = (.text text :: ts, .blank) := by
  have hquote : "\"".toList = ['"'] := rfl
  rw [String.toList_append, String.toList_append, hquote, List.foldl_append, List.foldl_append]
  have hopen : [('"' : Char)].foldl step (ts, .blank) = (ts, .text []) := by
    simp [step, start, add, Text.isAsciiBlank]
  rw [hopen, foldl_step_text ts hq]
  simp [step]

end Token

namespace Datum

open Token

/-- The characters of a leaf give its tokens. -/
theorem between_atomText {d : Datum} (ha : d.IsAtom) (hr : d.Readable)
    (ts : List Token) :
    Between (d.atomText.toList.foldl step (ts, .blank)) (d.atomTokens.reverse ++ ts) := by
  cases d with
  | nil => exact ⟨.inl rfl, rfl⟩
  | int i => exact between_word (Number.legible_int hr).word ts
  | float x => exact between_word (Number.legible_float hr).word ts
  | symbol name => exact between_word hr.word ts
  | string text =>
      rw [atomText, foldl_step_quoted hr]
      exact between_blank _
  | pair _ _ => exact ha.elim
  | other => exact hr.elim

/-- The end of an improper list. -/
theorem between_dotted {d : Datum} (ha : d.IsAtom) (hr : d.Readable)
    {p : List Token × Scan} {ts : List Token} (hp : Between p ts) :
    Between ((" . " ++ d.atomText ++ ")").toList.foldl step p)
      ((.dot :: (d.atomTokens ++ [.closing])).reverse ++ ts) := by
  have hdot : " . ".toList = [' ', '.', ' '] := rfl
  have hclose : ")".toList = [')'] := rfl
  rw [String.toList_append, String.toList_append, hdot, hclose, List.foldl_append,
    List.foldl_append]
  have hblank : [' ', '.', ' '].foldl step p = (.dot :: ts, .blank) := by
    rw [List.foldl_cons, step_of_between hp (by decide)]
    simp [step, start, add, Text.isAsciiBlank, isDelimiter, ofAtom]
  rw [hblank, List.foldl_cons, step_of_between (between_atomText ha hr _) (by decide)]
  simpa [start, Text.isAsciiBlank, add] using between_blank _

/-- The characters of a tree give its tokens, also behind the elements of a list. -/
theorem between_text (d : Datum) (hr : d.Readable) :
    (∀ ts, Between (d.text.toList.foldl step (ts, .blank)) (d.tokens.reverse ++ ts)) ∧
      ∀ p ts, Between p ts →
        Between (d.tailText.toList.foldl step p) (d.tailTokens.reverse ++ ts) := by
  induction d using leafInduction with
  | pair head tail ihh iht =>
      have hopen : "(".toList = ['('] := rfl
      have hspace : " ".toList = [' '] := rfl
      obtain ⟨hhead, -⟩ := ihh hr.1
      obtain ⟨-, htail⟩ := iht hr.2
      constructor
      · intro ts
        rw [text, tokens, String.toList_append, String.toList_append, hopen, List.foldl_append,
          List.foldl_append]
        have hstart : ['('].foldl step (ts, .blank) = (.opening :: ts, .blank) := by
          simp [step, start, add, Text.isAsciiBlank]
        rw [hstart]
        simpa using htail _ _ (hhead (.opening :: ts))
      · intro p ts hp
        rw [tailText, tailTokens, String.toList_append, String.toList_append, hspace,
          List.foldl_append, List.foldl_append, List.foldl_cons, step_of_between hp (by decide)]
        simpa [start, Text.isAsciiBlank, add] using htail _ _ (hhead ts)
  | leaf d ha =>
      refine ⟨fun ts => ?_, fun p ts hp => ?_⟩
      · rw [text_of_isAtom ha, tokens_of_isAtom ha]
        exact between_atomText ha hr ts
      · by_cases hn : d = .nil
        · subst hn
          have hclose : (tailText .nil).toList = [')'] := rfl
          rw [hclose, List.foldl_cons, step_of_between hp (by decide)]
          simpa [start, Text.isAsciiBlank, add, tailTokens] using between_blank _
        · rw [tailText_of_isAtom ha hn, tailTokens_of_isAtom ha hn]
          exact between_dotted ha hr hp

/-- Scanning the text of a tree gives its tokens. -/
theorem scan_text {d : Datum} (hr : d.Readable) :
    Token.ofString d.text = d.tokens := by
  have h := (between_text d hr).1 []
  rw [Token.ofString, Token.scan, Token.finish_of_between h]
  simp

end Datum
end CellLisp
