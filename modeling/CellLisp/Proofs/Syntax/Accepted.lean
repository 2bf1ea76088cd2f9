import CellLisp.Proofs.Syntax.Elements
import CellLisp.Proofs.Syntax.Grammar

/-!
# `CellLisp.Proofs.Syntax.Accepted` — the reader accepts its grammar

A derivation is followed along its tokens: wherever a form may begin, the reader takes those of a
form and delivers a value that is the tree it denotes (`Form.gives`), and in an open list those of
any number of forms, whose values are then the next elements (`Forms.gives`).
-/

namespace CellLisp

open Reader

/-- A run of the reader: one token after the other, each led on from. -/
structure Stepwise {β : Type} (run : List Token → List Reader.Frame → Act β)
    (next : List Token → Outcome → Act β) : Prop where
  cons : ∀ t ts frames, run (t :: ts) frames = Reader.step t frames >>= next ts
  more : ∀ ts frames, next ts (.more frames) = run ts frames

section Derivations

variable {β : Type} {E : Error → Prop} {run : List Token → List Reader.Frame → Act β}
  {next : List Token → Outcome → Act β} {Q : β → State → Prop} {s : State}

/-- An atom gives what it denotes. -/
theorem gives_ofAtom (hs : s.Ready) (text : String) :
    Gives E (atomValue text) s fun w s' => s.Onward [] s' ∧ s'.Denotes w (.ofAtom text) := by
  unfold atomValue Datum.ofAtom
  cases Number.parse? text with
  | none => exact (gives_intern hs.toInOrder text).mono fun w s' h => ⟨h.1, .symbol h.2⟩
  | some n =>
      cases n with
      | int i => exact .pure ⟨.refl hs.toInOrder, .int i⟩
      | float x => exact .pure ⟨.refl hs.toInOrder, .float x⟩

/-- A form that was quoted. -/
theorem gives_quoted {w : Value} {d : Datum} {frames : List Reader.Frame} {k : Outcome → Act β}
    (hs : s.Ready) (hw : s.Denotes w d)
    (hk : ∀ v s', s.Onward [] s' → s'.Denotes v (.quoted d) → Gives E (deliver v frames >>= k) s' Q) :
    Gives E (deliver w (.quoted :: frames) >>= k) s Q := by
  rw [deliver, bind_assoc]
  refine Gives.bind (gives_cons hs.toInOrder hw.holds State.Denotes.nil.holds) ?_
  rintro body s₁ ⟨hon, hpair⟩
  have hon := hon.toOnward
  have hbody : s₁.Denotes body (.pair d .nil) :=
    .pair hpair (hw.onward hs.toInOrder hon (Heap.reaches_of_mem (by simp))) .nil
  have hs₁ := hs.onward hon
  rw [bind_assoc]
  refine Gives.bind (Q := fun v s' => v = s₁.known.quote ∧ s₁ = s') (.gets ⟨rfl, rfl⟩) ?_
  rintro _ _ ⟨rfl, rfl⟩
  have hquote : s₁.Denotes s₁.known.quote (.symbol "quote") := .symbol hs₁.quote
  rw [bind_assoc]
  refine Gives.bind (gives_cons hs₁.toInOrder hquote.holds hbody.holds) ?_
  rintro v s₂ ⟨hon₂, hpair₂⟩
  have hon₂ := hon₂.toOnward
  refine hk v s₂ ?_ ?_
  · exact (hon.mono (List.nil_subset _)).trans (hon₂.mono (List.nil_subset _))
  · exact .pair hpair₂ (hquote.onward hs₁.toInOrder hon₂ (Heap.reaches_of_mem (by simp)))
      (hbody.onward hs₁.toInOrder hon₂ (Heap.reaches_of_mem (by simp)))

/-- One more element of an open list. -/
theorem gives_push {base : Nat} {es : List Datum} {w : Value} {d : Datum} {fs : List Reader.Frame}
    {rest : List Token} (hrun : Stepwise run next) (hs : s.Ready) (he : s.Elements base es)
    (hw : s.Denotes w d)
    (hk : ∀ s', s'.Ready → s'.Elements base (es ++ [d]) →
      State.Onward [] { s with roots := s.roots.shrink base }
        { s' with roots := s'.roots.shrink base } →
      Gives E (run rest (.list base :: fs)) s' Q) :
    Gives E (deliver w (.list base :: fs) >>= next rest) s Q := by
  rw [deliver, bind_assoc]
  refine Gives.bind (gives_protect (s := s) (v := w)) ?_
  rintro _ _ rfl
  rw [pure_bind, hrun.more]
  have hready : State.Ready { s with roots := s.roots.push w } := by
    refine hs.with_roots fun u hu => ?_
    rcases Array.mem_push.1 hu with hu | rfl
    · exact hs.holds_root hu
    · exact hw.holds
  refine hk _ hready (he.push hw) ?_
  have hshrink : (s.roots.push w).shrink base = s.roots.shrink base := by
    have hsize := he.size
    apply Array.ext'
    simp [hsize]
  rw [hshrink]
  exact .refl (hs.toInOrder.shrink base)

mutual

/-- The tokens of a form, where one may begin. -/
theorem Form.gives {ts : List Token} {d : Datum} (h : Form ts d) (hrun : Stepwise run next)
    {frames : List Reader.Frame} {rest : List Token} {s : State} (hs : s.Ready) (hf : Accepts frames)
    (hk : ∀ w s', s.Onward [] s' → s'.Denotes w d →
      Gives E (deliver w frames >>= next rest) s' Q) :
    Gives E (run (ts ++ rest) frames) s Q := by
  match h with
  | .atom text =>
      rw [List.singleton_append, hrun.cons, step_atom hf, bind_assoc]
      exact Gives.bind (gives_ofAtom hs text) fun w s₁ h₁ => hk w s₁ h₁.1 h₁.2
  | .text text =>
      rw [List.singleton_append, hrun.cons, step_text hf, bind_assoc]
      exact Gives.bind (gives_makeString hs.toInOrder text) fun w s₁ h₁ =>
        hk w s₁ h₁.1.toOnward (.string h₁.2)
  | .quoted h =>
      rw [List.cons_append, hrun.cons, step_quote hf, pure_bind, hrun.more]
      refine h.gives hrun hs trivial fun w s₁ hon hw => ?_
      exact gives_quoted (hs.onward hon) hw fun v s₂ hon₂ hv => hk v s₂ (hon.trans hon₂) hv
  | .list hts =>
      rw [List.cons_append, List.append_assoc, hrun.cons, step_opening hf, bind_assoc]
      refine Gives.bind (Q := fun n s' => n = s.roots.size ∧ s = s') (.gets ⟨rfl, rfl⟩) ?_
      rintro _ _ ⟨rfl, rfl⟩
      rw [pure_bind, hrun.more]
      refine hts.gives hrun hs s.elements_nil fun s₁ hs₁ he₁ hon => ?_
      rw [List.singleton_append, hrun.cons]
      refine gives_close hs₁ he₁ .nil fun w s₂ hon₂ hw => ?_
      rw [State.shrink_size] at hon
      exact hk w s₂ (hon.trans hon₂) (by simpa [Datum.list] using hw)
  | .dotted hts hne hu =>
      rw [List.cons_append, List.append_assoc, hrun.cons, step_opening hf, bind_assoc]
      refine Gives.bind (Q := fun n s' => n = s.roots.size ∧ s = s') (.gets ⟨rfl, rfl⟩) ?_
      rintro _ _ ⟨rfl, rfl⟩
      rw [pure_bind, hrun.more]
      refine hts.gives hrun hs s.elements_nil fun s₁ hs₁ he₁ hon => ?_
      rw [State.shrink_size] at hon
      have hdot : s₁.roots.size ≠ s.roots.size := by
        have hsize := he₁.size
        have hpos := List.length_pos_iff.2 hne
        simp only [List.nil_append] at hsize
        omega
      rw [List.cons_append, hrun.cons, Reader.step]
      refine Gives.bind (Q := fun o s' => o = .more (.dotted s.roots.size :: frames) ∧ s₁ = s') ?_ ?_
      · refine Gives.bind (Q := fun n s' => n = s₁.roots.size ∧ s₁ = s') (.gets ⟨rfl, rfl⟩) ?_
        rintro _ _ ⟨rfl, rfl⟩
        rw [if_neg hdot]
        exact .pure ⟨rfl, rfl⟩
      rintro _ _ ⟨rfl, rfl⟩
      rw [hrun.more, List.append_assoc]
      refine hu.gives hrun hs₁ trivial fun w s₂ hon₂ hw => ?_
      rw [deliver, pure_bind, hrun.more, List.singleton_append, hrun.cons]
      refine gives_close (hs₁.onward hon₂) (he₁.onward hs₁.toInOrder hon₂) hw fun v s₃ hon₃ hv => ?_
      exact hk v s₃ (hon.trans ((hon₂.shrink _).trans hon₃)) (by simpa [Datum.list] using hv)

/-- The tokens of any number of forms, in an open list. -/
theorem Forms.gives {ts : List Token} {ds : List Datum} (h : Forms ts ds)
    (hrun : Stepwise run next) {base : Nat} {es : List Datum} {fs : List Reader.Frame} {rest : List Token}
    {s : State} (hs : s.Ready) (he : s.Elements base es)
    (hk : ∀ s', s'.Ready → s'.Elements base (es ++ ds) →
      State.Onward [] { s with roots := s.roots.shrink base }
        { s' with roots := s'.roots.shrink base } →
      Gives E (run rest (.list base :: fs)) s' Q) :
    Gives E (run (ts ++ rest) (.list base :: fs)) s Q := by
  match h with
  | .nil =>
      refine hk s hs (by simpa using he) (.refl (hs.toInOrder.shrink base))
  | .cons hd hds =>
      rw [List.append_assoc]
      refine hd.gives hrun hs trivial fun w s₁ hon hw => ?_
      refine gives_push hrun (hs.onward hon) (he.onward hs.toInOrder hon) hw
        fun s₂ hs₂ he₂ hon₂ => ?_
      refine hds.gives hrun hs₂ he₂ fun s₃ hs₃ he₃ hon₃ => ?_
      refine hk s₃ hs₃ (by simpa using he₃) ?_
      exact (hon.shrink base).trans (hon₂.trans hon₃)

end

end Derivations

/-! ## Whole texts -/

namespace Reader

/-- Goes on from what a token led to, among all forms. -/
def proceed (ts : List Token) : Outcome → Act Unit
  | .done form => do
    let _ ← protect form
    all ts []
  | .more frames => all ts frames

theorem stepwise_first : Stepwise first resume := ⟨first_cons, fun _ _ => rfl⟩

theorem stepwise_all : Stepwise all proceed where
  cons t ts frames := by
    rw [all]
    refine congrArg (Reader.step t frames >>= ·) (funext fun o => ?_)
    cases o <;> rfl
  more _ _ := rfl

end Reader

section Texts

variable {E : Error → Prop} {s : State}

theorem Form.gives_first {us vs : List Token} {d : Datum} (h : Form us d) (hs : s.Ready) :
    Gives E (first (us ++ vs) []) s fun w s' => s.Onward [] s' ∧ s'.Denotes w d :=
  h.gives stepwise_first hs trivial fun _ _ hon hw => .pure ⟨hon, hw⟩

/-- Each form is one more protected value. -/
theorem Forms.gives_all {ts : List Token} {ds es : List Datum} {s : State} (h : Forms ts ds)
    {base : Nat} (hs : s.Ready) (he : s.Elements base es) :
    Gives E (all ts []) s fun _ s' => s'.Ready ∧ s'.Elements base (es ++ ds) := by
  match h with
  | .nil => exact .pure ⟨hs, by simpa using he⟩
  | .cons hd hds =>
      refine hd.gives stepwise_all hs trivial fun w s₁ hon hw => ?_
      rw [deliver, pure_bind, proceed]
      refine Gives.bind (gives_protect (s := s₁) (v := w)) ?_
      rintro _ _ rfl
      have hs₁ := hs.onward hon
      have hready : State.Ready { s₁ with roots := s₁.roots.push w } := by
        refine hs₁.with_roots fun u hu => ?_
        rcases Array.mem_push.1 hu with hu | rfl
        · exact hs₁.holds_root hu
        · exact hw.holds
      refine (hds.gives_all hready ((he.onward hs.toInOrder hon).push hw)).mono ?_
      rintro _ s₂ ⟨hs₂, he₂⟩
      exact ⟨hs₂, by simpa using he₂⟩

theorem Forms.gives_readAll {text : String} {ds : List Datum} (h : Forms (Token.ofString text) ds) (hs : s.Ready) :
    Gives E (readAll text) s fun v s' => s'.Denotes v (.list ds .nil) := by
  refine Gives.withRoots ?_
  refine Gives.bind (Q := fun n s' => n = s.roots.size ∧ s = s') (.gets ⟨rfl, rfl⟩) ?_
  rintro _ _ ⟨rfl, rfl⟩
  refine Gives.bind (h.gives_all hs s.elements_nil) ?_
  rintro _ s₁ ⟨hs₁, he₁⟩
  rw [List.nil_append] at he₁
  refine (gives_listFromRoots hs₁.toInOrder he₁ .nil).mono ?_
  rintro v s₂ ⟨-, hv⟩
  exact hv.with_roots _

end Texts

end CellLisp
