import CellLisp.Proofs.Syntax.Lexeme
import CellLisp.Proofs.Syntax.RoundTrip

/-!
# `CellLisp.Proofs.Syntax.Language` — the language that is read

Which texts are read, as what, and that reading leaves no value protected, however it ends.
-/

namespace CellLisp

variable {s : State}

/-- The error is a fault of the text. -/
def Error.IsRead (cause : Error) : Prop := ∃ fault, cause = .read fault

theorem Reads.gives {α : Type} {act : Act α} {d : Nat} {Q : α → State → Prop}
    (h : Reads d act s Q) : Gives Error.IsRead act s Q := by
  unfold Reads at h
  unfold Gives
  cases e : act s with
  | ok =>
      rw [e] at h
      exact h.2
  | error stop =>
      rw [e] at h
      cases stop with
      | error => exact h.2
      | fatal => exact h.2

/-- However an action ends, the same values are protected as before. -/
def State.Restored {α : Type} (s : State) : EStateM.Result Stop State α → Prop
  | .ok _ s' | .error _ s' => s'.roots = s.roots

theorem State.Below.shrink {s' : State} (h : s.Below s.roots.size s') :
    s'.roots.shrink s.roots.size = s.roots := by
  refine Array.ext_getElem? fun k => ?_
  rw [← Array.getElem?_toList, Array.toList_shrink, List.getElem?_take]
  split
  · rw [Array.getElem?_toList, h.same k ‹_›]
  · rw [Array.getElem?_eq_none (by omega)]

theorem Reads.restored {α : Type} {act : Act α} {Q : α → State → Prop}
    (h : Reads s.roots.size act s Q) : s.Restored (withRoots act s) := by
  unfold Reads at h
  unfold withRoots
  dsimp only
  split at h
  · rename_i e
    rw [e]
    exact h.1.shrink
  · rename_i e
    rw [e]
    exact h.1.shrink
  · rename_i e
    rw [e]
    exact h.1.shrink

theorem reads_readAll (s : State) (text : String) :
    Reads s.roots.size (do
      let base ← gets (·.roots.size)
      Reader.all (Token.ofString text) []
      listFromRoots base .nil) s fun _ _ => ∃ ds, Forms (Token.ofString text) ds := by
  refine Reads.bind (Q := fun _ s' => s = s') (.gets (Nat.le_refl _) rfl) ?_
  rintro base _ - rfl
  refine Reads.bind (Reader.reads_all [] (Token.ofString text)
    (.opened (.nil (Nat.le_refl _)))) fun _ s₁ h₁ hds => ?_
  exact (reads_listFromRoots h₁.depth base .nil).mono fun _ _ _ => hds

/-- The octets of a text fall into lexemes that are tokens, and these decide: a list of all forms
is read if they are forms, and is the list of the trees these denote; the first form is read if
they begin with one, and is the tree it denotes; else the text is at fault.  A full store may
still stop either.  The protected values are those of before. -/
theorem State.read_iff_form (hs : s.Ready) (text : String) :
    ∃ ts, ts.map Token.lexeme = Lexeme.ofOctets (Utf8.encode text) ∧
      (∀ ds, Forms ts ds →
        Gives (fun _ => False) (readAll text) s fun v s' => s'.Denotes v (.list ds .nil)) ∧
      ((¬∃ ds, Forms ts ds) → Gives Error.IsRead (readAll text) s fun _ _ => False) ∧
      (∀ us vs d, ts = us ++ vs → Form us d →
        Gives (fun _ => False) (read text) s fun v s' => s'.Denotes v d) ∧
      ((¬∃ us vs d, ts = us ++ vs ∧ Form us d) →
        Gives Error.IsRead (read text) s fun _ _ => False) ∧
      s.Restored (readAll text s) ∧ s.Restored (read text s) := by
  have hall := reads_readAll s text
  have hfirst := Reader.reads_first [] (s := s) (Token.ofString text)
    (.opened (.nil (Nat.le_refl _)))
  refine ⟨Token.ofString text, Token.lexeme_ofString text, fun ds h => h.gives_readAll hs,
    fun hnone => ?_, fun us vs d hts h => ?_, fun hnone => ?_, hall.restored, hfirst.restored⟩
  · exact Gives.withRoots (hall.gives.mono fun _ _ hds => hnone hds)
  · rw [read, hts]
    exact Gives.withRoots ((h.gives_first hs).mono fun _ _ hw => hw.2.with_roots _)
  · refine Gives.withRoots (hfirst.gives.mono ?_)
    rintro _ _ ⟨us, vs, d, hts, h⟩
    exact hnone ⟨us, vs, d, hts, h⟩

/-- A list with a dotted tail that is quoted, and nothing else. -/
theorem State.read_iff_form_mixed :
    State.mixed.Ready ∧ Gives (fun _ => False) (readAll "(a . 'b)") State.mixed fun v s' =>
      s'.Denotes v (.list [.pair (.symbol "a") (.quoted (.symbol "b"))] .nil) := by
  have hscan : Token.ofString "(a . 'b)"
      = [.opening, .atom "a", .dot, .quote, .atom "b", .closing] := by decide
  have hform : Form [.opening, .atom "a", .dot, .quote, .atom "b", .closing]
      (.pair (.symbol "a") (.quoted (.symbol "b"))) :=
    .dotted (.cons (.atom "a") .nil) (by simp) (.quoted (.atom "b"))
  obtain ⟨ts, hts, hall, -⟩ := State.read_iff_form State.ready_mixed "(a . 'b)"
  rw [← Token.lexeme_ofString, hscan] at hts
  obtain rfl := List.map_injective_iff.2 Token.lexeme_injective hts
  exact ⟨State.ready_mixed, hall _ (.cons hform .nil)⟩

end CellLisp
