import CellLisp.Proofs.Syntax.Accepted

/-!
# `CellLisp.Proofs.Syntax.ReadBack` — the tokens of a tree are read as the tree

The tokens that a tree is written with are those of a form that denotes it (`Datum.form_tokens`),
so its text is read as the same tree (`gives_read_print`).
-/

namespace CellLisp

namespace Datum

variable {d : Datum}

/-- The tokens of a leaf. -/
theorem form_atomTokens (ha : d.IsAtom) (hr : d.Readable) : Form d.atomTokens d := by
  cases d with
  | nil => exact .list .nil
  | int i =>
      have h := Form.atom (toString i)
      rwa [ofAtom, (Number.legible_int hr).parse] at h
  | float x =>
      have h := Form.atom x.text
      rwa [ofAtom, (Number.legible_float hr).parse] at h
  | symbol name =>
      have h := Form.atom name
      rwa [ofAtom, hr.notNumeral] at h
  | string text => exact .text text
  | pair => exact ha.elim
  | other => exact hr.elim

/-- The tokens behind the elements of a list. -/
def IsTail (d : Datum) : Prop :=
  ∀ ⦃ts : List Token⦄ ⦃es : List Datum⦄, Forms ts es → es ≠ [] →
    Form (.opening :: (ts ++ d.tailTokens)) (.list es d)

theorem isTail_of_isAtom (ha : d.IsAtom) (hr : d.Readable) : d.IsTail := by
  intro ts es hs hne
  by_cases hn : d = .nil
  · subst hn
    exact .list hs
  · rw [tailTokens_of_isAtom ha hn]
    exact .dotted hs hne (form_atomTokens ha hr)

/-- The tokens that a tree is written with. -/
theorem form_tokens (hr : d.Readable) : Form d.tokens d ∧ d.IsTail := by
  induction d using Datum.leafInduction with
  | leaf d ha =>
      rw [tokens_of_isAtom ha]
      exact ⟨form_atomTokens ha hr, isTail_of_isAtom ha hr⟩
  | pair a b iha ihb =>
      have ha := (iha hr.1).1
      have hb := (ihb hr.2).2
      refine ⟨hb (Forms.nil.snoc ha) (List.cons_ne_nil a []), ?_⟩
      intro ts es hs hne
      have h := hb (hs.snoc ha) (by simp)
      rw [list, List.foldr_append, List.append_assoc] at h
      exact h

end Datum

/-- The text of a value is read as the same tree. -/
theorem gives_read_print {E : Error → Prop} {s : State} {v : Value} {d : Datum} (hs : s.Ready)
    (hd : s.Denotes v d) (hr : d.Readable) :
    Gives E (read (s.heap.print v)) s fun w s' => s.Onward [] s' ∧ s'.Denotes w d := by
  rw [hd.print_eq hs.isFree_zero, read, Datum.scan_text hr]
  refine Gives.withRoots ?_
  rw [← List.append_nil d.tokens]
  refine ((Datum.form_tokens hr).1.gives_first hs).mono ?_
  rintro w s' ⟨hon, hw⟩
  have hsame : { s' with roots := s'.roots.shrink s.roots.size } = s' := by
    rw [← hon.roots]
    exact s'.shrink_size
  rw [hsame]
  exact ⟨hon, hw⟩

end CellLisp
