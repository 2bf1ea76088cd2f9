import CellLisp.Proofs.State.Uncounted
import CellLisp.Proofs.Syntax.Language
import CellLisp.Repl

/-!
# `CellLisp.Proofs.Syntax.Completeness` — what the prompt waits for

The prompt counts parentheses; the reader takes forms.  In between are the tokens, of which it is
counted how many lists they leave open (`Token.Leaves`).

    the check     follows the scanner, and holds if no string and at most zero lists are open
    forms         leave no list open
    the reader    misses a parenthesis only inside a list, which the tokens leave open

A parenthesis too many is none of these: there the check holds, and the reader says what is wrong.
A NUL ends a text for the reader, but not for the check.
-/

namespace CellLisp

/-! ## Lists that tokens leave open -/

namespace Token

/-- How many more lists are open behind a token. -/
def weight : Token → Int
  | .opening => 1
  | .closing => -1
  | _ => 0

/-- The tokens leave a number of lists open, and no string. -/
structure Leaves (ts : List Token) (n : Int) : Prop where
  lists : (ts.map weight).sum = n
  texts : .unterminated ∉ ts

section Leaves

variable {t : Token} {ts us : List Token} {m n : Int}

theorem leaves_nil : Leaves [] 0 := ⟨rfl, List.not_mem_nil⟩

theorem Leaves.cons (ht : t ≠ .unterminated) (h : Leaves ts n) : Leaves (t :: ts) (t.weight + n) where
  lists := by rw [List.map_cons, List.sum_cons, h.lists]
  texts := fun hmem => (List.mem_cons.1 hmem).elim (fun he => ht he.symm) h.texts

theorem Leaves.opening (h : Leaves ts n) : Leaves (.opening :: ts) (n + 1) := by
  rw [Int.add_comm]
  exact h.cons nofun

theorem Leaves.closing (h : Leaves ts n) : Leaves (.closing :: ts) (n - 1) := by
  rw [Int.sub_eq_add_neg, Int.add_comm]
  exact h.cons nofun

/-- Other tokens open and close nothing. -/
theorem Leaves.plain (h : Leaves ts n) (ht : t ≠ .unterminated) (hw : t.weight = 0) :
    Leaves (t :: ts) n := by
  have hcons := h.cons ht
  rwa [hw, Int.zero_add] at hcons

theorem Leaves.append (h : Leaves ts m) (h' : Leaves us n) : Leaves (ts ++ us) (m + n) where
  lists := by rw [List.map_append, List.sum_append, h.lists, h'.lists]
  texts := fun hmem => (List.mem_append.1 hmem).elim h.texts h'.texts

theorem Leaves.reverse (h : Leaves ts n) : Leaves ts.reverse n where
  lists := by rw [List.map_reverse, List.sum_reverse, h.lists]
  texts := fun hmem => h.texts (List.mem_reverse.1 hmem)

theorem Leaves.ofAtom (acc : List Char) (h : Leaves ts n) : Leaves (ofAtom acc :: ts) n := by
  unfold Token.ofAtom
  dsimp only
  split
  · exact h.plain nofun rfl
  · exact h.plain nofun rfl

end Leaves

end Token

/-! ## The check follows the scanner -/

namespace Balance

open Token (Leaves Scan)

/-- The check is inside what the scanner is inside of. -/
def At (b : Balance) : Scan → Prop
  | .blank | .atom _ => b.inText = false ∧ b.inComment = false
  | .text _ => b.inText = true ∧ b.inComment = false
  | .comment => b.inText = false ∧ b.inComment = true
  | .done => False

/-- The check has counted the lists that the tokens so far leave open. -/
structure Follows (b : Balance) (p : List Token × Scan) : Prop where
  leaves : Leaves p.1 b.depth
  place : b.At p.2

section Follows

variable {b : Balance} {c : Char} {p : List Token × Scan} {ts : List Token}

theorem step_outside (hout : b.At .blank) (c : Char) :
    b.step c = if c = '(' then { b with depth := b.depth + 1 }
      else if c = ')' then { b with depth := b.depth - 1 }
      else if c = '"' then { b with inText := true }
      else if c = ';' then { b with inComment := true }
      else b := by
  unfold step
  simp only [hout.1, hout.2, Bool.false_eq_true, if_false]

theorem step_plain (hout : b.At .blank) (hc : c ≠ '(' ∧ c ≠ ')' ∧ c ≠ '"' ∧ c ≠ ';') : b.step c = b := by
  rw [step_outside hout, if_neg hc.1, if_neg hc.2.1, if_neg hc.2.2.1, if_neg hc.2.2.2]

/-- A character between tokens. -/
theorem follows_start (h : Leaves ts b.depth) (hout : b.At .blank) (hc : c ≠ '\x00') :
    (b.step c).Follows (Token.add ts (Token.start c).1, (Token.start c).2) := by
  by_cases hd : Token.isDelimiter c = true
  · rcases Token.delimiter_cases hd with hblank | rfl | rfl | rfl | rfl | rfl | rfl
    · have hstart : Token.start c = (none, .blank) := by rw [Token.start, if_pos hblank]
      rw [hstart, step_plain hout ⟨?_, ?_, ?_, ?_⟩]
      · exact ⟨h, hout⟩
      all_goals
        rintro rfl
        exact absurd hblank (by decide)
    · rw [step_outside hout]
      exact ⟨h.opening, hout⟩
    · rw [step_outside hout]
      exact ⟨h.closing, hout⟩
    · rw [step_outside hout]
      exact ⟨h, rfl, hout.2⟩
    · rw [step_outside hout]
      exact ⟨h.plain (by rintro ⟨⟩) rfl, hout⟩
    · rw [step_outside hout]
      exact ⟨h, hout.1, rfl⟩
    · exact absurd rfl hc
  · have hplain : Text.isAsciiBlank c = false ∧ c ≠ '(' ∧ c ≠ ')' ∧ c ≠ '"' ∧ c ≠ '\x27' ∧ c ≠ ';' := by
      simp_all [Token.isDelimiter]
    obtain ⟨hblank, hopening, hclosing, htext, hquote, hcomment⟩ := hplain
    have hstart : Token.start c = (none, .atom [c]) := by
      simp only [Token.start, hblank, hopening, hclosing, htext, hquote, hcomment, hc, if_false,
        Bool.false_eq_true]
    rw [hstart, step_plain hout ⟨hopening, hclosing, htext, hcomment⟩]
    exact ⟨h, hout⟩

/-- One more character. -/
theorem Follows.step (h : b.Follows p) (hc : c ≠ '\x00') : (b.step c).Follows (Token.step p c) := by
  obtain ⟨ts, scan⟩ := p
  obtain ⟨hl, hat⟩ := h
  cases scan with
  | blank => exact follows_start hl hat hc
  | comment =>
      have hstep : b.step c = { b with inComment := c != '\n' } := if_pos hat.2
      rw [hstep]
      refine ⟨hl, ?_⟩
      by_cases hline : c = '\n'
      · subst hline
        exact ⟨hat.1, rfl⟩
      · rw [Token.step, if_neg hline]
        exact ⟨hat.1, bne_iff_ne.2 hline⟩
  | text acc =>
      have hstep : b.step c = { b with inText := c != '"' } := by
        rw [Balance.step, hat.2, if_neg Bool.false_ne_true, if_pos hat.1]
      have hscan : Token.step (ts, .text acc) c =
          if c = '"' then (.text (String.ofList acc.reverse) :: ts, .blank)
          else if c = '\x00' then (.unterminated :: ts, .done) else (ts, .text (c :: acc)) := rfl
      rw [hstep, hscan]
      by_cases hend : c = '"'
      · subst hend
        exact ⟨hl.plain (by rintro ⟨⟩) rfl, rfl, hat.2⟩
      · rw [if_neg hend, if_neg hc]
        exact ⟨hl, bne_iff_ne.2 hend, hat.2⟩
  | atom acc =>
      have hscan : Token.step (ts, .atom acc) c =
          if Token.isDelimiter c then
            (Token.add (Token.ofAtom acc :: ts) (Token.start c).1, (Token.start c).2)
          else (ts, .atom (c :: acc)) := rfl
      rw [hscan]
      by_cases hd : Token.isDelimiter c = true
      · rw [if_pos hd]
        exact follows_start (hl.ofAtom acc) hat hc
      · have hplain : c ≠ '(' ∧ c ≠ ')' ∧ c ≠ '"' ∧ c ≠ ';' := by
          simp_all [Token.isDelimiter]
        rw [if_neg hd, step_plain hat hplain]
        exact ⟨hl, hat⟩
  | done => exact hat.elim

theorem Follows.foldl {cs : List Char} (h : b.Follows p) (hcs : '\x00' ∉ cs) :
    (cs.foldl Balance.step b).Follows (cs.foldl Token.step p) := by
  induction cs generalizing b p with
  | nil => exact h
  | cons c cs ih =>
      rw [List.mem_cons, not_or] at hcs
      exact ih (h.step (Ne.symm hcs.1)) hcs.2

end Follows

end Balance

section Check

variable {text : String} {n : Int}

/-- A text without a NUL is complete unless its tokens leave a list or a string open. -/
theorem isComplete_cases (hnul : '\x00' ∉ text.toList) :
    .unterminated ∈ Token.ofString text ∧ isComplete text = false ∨
      ∃ n, Token.Leaves (Token.ofString text) n ∧ isComplete text = decide (n ≤ 0) := by
  have hstart : Balance.Follows {} (([], .blank) : List Token × Token.Scan) := ⟨Token.leaves_nil, rfl, rfl⟩
  have hend := hstart.foldl hnul
  unfold isComplete Token.ofString Token.scan
  generalize text.toList.foldl Balance.step {} = b at *
  generalize text.toList.foldl Token.step ([], .blank) = p at *
  obtain ⟨ts, scan⟩ := p
  obtain ⟨hl, hat⟩ := hend
  cases scan with
  | text acc => exact .inl ⟨by simp [Token.finish], by simp [hat.1]⟩
  | blank | comment => exact .inr ⟨b.depth, hl.reverse, by simp [hat.1]⟩
  | atom acc => exact .inr ⟨b.depth, (hl.ofAtom acc).reverse, by simp [hat.1]⟩
  | done => exact hat.elim

theorem isComplete_of_unterminated (hnul : '\x00' ∉ text.toList)
    (h : .unterminated ∈ Token.ofString text) : isComplete text = false := by
  rcases isComplete_cases hnul with ⟨-, hfalse⟩ | ⟨n, hl, -⟩
  · exact hfalse
  · exact absurd h hl.texts

theorem isComplete_of_leaves (hnul : '\x00' ∉ text.toList) (h : Token.Leaves (Token.ofString text) n) :
    isComplete text = decide (n ≤ 0) := by
  rcases isComplete_cases hnul with ⟨hmem, -⟩ | ⟨m, hl, heq⟩
  · exact absurd hmem h.texts
  · rw [heq, ← hl.lists, h.lists]

end Check

/-! ## Forms, and constructs still open -/

open Token (Leaves)

mutual

/-- A form closes the lists it opens. -/
theorem Form.leaves {ts : List Token} {d : Datum} (h : Form ts d) : Leaves ts 0 := by
  match h with
  | .atom _ | .text _ => exact Token.leaves_nil.plain nofun rfl
  | .quoted hf => exact hf.leaves.plain nofun rfl
  | .list hs => exact (hs.leaves.append Token.leaves_nil.closing).opening
  | .dotted hs _ hf =>
      have hdot := (hf.leaves.append Token.leaves_nil.closing).plain (t := .dot) nofun rfl
      exact (hs.leaves.append hdot).opening

theorem Forms.leaves {ts : List Token} {ds : List Datum} (h : Forms ts ds) : Leaves ts 0 := by
  match h with
  | .nil => exact Token.leaves_nil
  | .cons hf hfs => exact hf.leaves.append hfs.leaves

end

namespace Reader

/-- Whether a construct is a list. -/
def Frame.isList : Frame → Bool
  | .quoted => false
  | .list _ | .dotted _ | .ended _ _ => true

section Taken

variable {d n : Nat} {fs : List Frame} {us : List Token}

/-- Of the constructs still open, the tokens taken leave the lists open. -/
theorem Opened.leaves (h : Opened d fs us n) : Leaves us (fs.countP Frame.isList) := by
  induction h with
  | nil => exact Token.leaves_nil
  | list _ hs ih => simpa [Frame.isList, List.countP_cons] using ih.append hs.leaves.opening
  | dotted _ hs _ ih =>
      have hdot := Token.leaves_nil.plain (t := .dot) nofun rfl
      simpa [Frame.isList, List.countP_cons] using ih.append (hs.leaves.append hdot).opening
  | quoted _ ih =>
      have hquote := Token.leaves_nil.plain (t := .quote) nofun rfl
      simpa [Frame.isList, List.countP_cons] using ih.append hquote

theorem Taken.leaves (h : Taken d fs us n) : Leaves us (fs.countP Frame.isList) := by
  cases h with
  | opened h => exact h.leaves
  | ended h hx => simpa [Frame.isList, List.countP_cons] using h.leaves.append hx.leaves

end Taken

end Reader

/-- Behind some forms the tokens end inside a list. -/
def Token.EndInList (ts : List Token) : Prop :=
  ∃ us vs ds d fs n, ts = us ++ vs ∧ Forms us ds ∧ Reader.Taken d fs vs n ∧
    ∃ f ∈ fs, Reader.Frame.isList f = true

section

variable {ts us : List Token} {x : Datum}

theorem Token.EndInList.leaves (h : Token.EndInList ts) : ∃ n, 0 < n ∧ Leaves ts n := by
  obtain ⟨us, vs, ds, d, fs, n, rfl, hforms, htaken, hlist⟩ := h
  have hpos : 0 < fs.countP Reader.Frame.isList := List.countP_pos_iff.2 hlist
  exact ⟨_, by omega, hforms.leaves.append htaken.leaves⟩

theorem Token.EndInList.append (hx : Form us x) (h : Token.EndInList ts) :
    Token.EndInList (us ++ ts) := by
  obtain ⟨us', vs, ds, d, fs, n, rfl, hforms, htaken, hlist⟩ := h
  exact ⟨us ++ us', vs, x :: ds, d, fs, n, (List.append_assoc ..).symm, .cons hx hforms, htaken, hlist⟩

end

/-! ## What the reader misses at the end -/

/-- An action fails in its first step, or in what follows. -/
theorem Reads.error_bind {α β : Type} {d : Nat} {s s' : State} {x : Act α} {f : α → Act β}
    {Q : α → State → Prop} {cause : Error} (hx : Reads d x s Q)
    (h : (x >>= f) s = .error (.error cause) s') :
    x s = .error (.error cause) s' ∨ ∃ a s₁, Q a s₁ ∧ f a s₁ = .error (.error cause) s' := by
  rw [act_bind] at h
  unfold Reads at hx
  cases hs : x s with
  | ok a s₁ =>
      rw [hs] at h hx
      exact .inr ⟨a, s₁, hx.2, h⟩
  | error stop s₁ =>
      rw [hs] at h
      cases h
      exact .inl rfl

namespace Reader

/-- A fault that shows that a text is unfinished does so. -/
def Unfinished (ts : List Token) : ReadError → Prop
  | .unmatchedOpen => Token.EndInList ts
  | .unterminatedString => .unterminated ∈ ts
  | _ => True

section

variable {d : Nat} {s s' : State} {fs : List Frame} {us ts : List Token} {x : Datum} {fault : ReadError}

theorem Unfinished.append (hx : Form us x) (h : Unfinished ts fault) : Unfinished (us ++ ts) fault := by
  cases fault with
  | unmatchedOpen => exact Token.EndInList.append hx h
  | unterminatedString => exact List.mem_append_right us h
  | _ => trivial

/-- The end of the tokens is inside a list if that is what is wrong with it. -/
theorem unfinished_end {n : Nat} (h : Taken d fs us n) (hend : endError? fs = some fault) :
    Unfinished us fault := by
  have hinside : ∀ f rest, fs = f :: rest → f.isList = true → Token.EndInList us := fun f rest hfs hf =>
    ⟨[], us, [], d, fs, n, rfl, .nil, h, f, hfs ▸ List.mem_cons_self, hf⟩
  match fs, hend with
  | .list base :: rest, rfl | .dotted base :: rest, rfl => exact hinside _ _ rfl rfl
  | .ended _ _ :: _, rfl | .quoted :: _, rfl => trivial

/-- A token that is out of place says nothing about the end, unless it is a string without one. -/
theorem unfinished_step {t : Token} (h : step t fs s = .error (.error (.read fault)) s') :
    Unfinished (us ++ t :: ts) fault := by
  have hraises : Raises (fun cause => ∀ fault, cause = .read fault → Unfinished (us ++ t :: ts) fault)
      (step t fs) := by
    refine raises_step ?_
    rintro fault hopen htext _ ⟨⟩
    cases fault with
    | unmatchedOpen => exact absurd rfl hopen
    | unterminatedString =>
        obtain rfl := htext rfl
        exact List.mem_append_right us List.mem_cons_self
    | _ => trivial
  exact hraises s _ s' h fault rfl

/-- If the reader fails because a list or a string does not end, the tokens end there. -/
theorem unfinished_all (h : Taken d fs us s.roots.size)
    (hall : all ts fs s = .error (.error (.read fault)) s') : Unfinished (us ++ ts) fault := by
  induction ts generalizing s fs us with
  | nil =>
      rw [all] at hall
      cases hend : endError? fs with
      | none =>
          rw [hend] at hall
          cases hall
      | some cause =>
          rw [hend] at hall
          cases hall
          rw [List.append_nil]
          exact unfinished_end h hend
  | cons t ts ih =>
      rw [all] at hall
      rcases (reads_step t h).error_bind hall with hstep | ⟨o, s₁, ho, hrest⟩
      · exact unfinished_step hstep
      have htokens : us ++ t :: ts = us ++ [t] ++ ts := by simp
      rw [htokens]
      cases o with
      | more frames => exact ih ho hrest
      | done v =>
          obtain ⟨hd, x, hx⟩ := ho
          rcases (reads_protect hd v).error_bind hrest with hprotect | ⟨_, s₂, hroots, hrest⟩
          · exact (raises_protect (E := fun _ => False) v s₁ _ _ hprotect).elim
          · refine .append hx (ih (.opened (.nil ?_)) hrest)
            rw [hroots, Array.size_push]
            omega

end

end Reader

variable {s s' : State} {text : String} {fault : ReadError}

theorem unfinished_readAll (h : readAll text s = .error (.error (.read fault)) s') :
    Reader.Unfinished (Token.ofString text) fault := by
  unfold readAll withRoots at h
  dsimp only at h
  split at h
  · cases h
  · rename_i hread
    cases h
    have hbase : Reads s.roots.size (gets (·.roots.size)) s fun _ s' => s = s' := .gets (Nat.le_refl _) rfl
    rcases hbase.error_bind hread with hgets | ⟨base, _, rfl, hread⟩
    · cases hgets
    have htaken : Reader.Taken s.roots.size [] [] s.roots.size := .opened (.nil (Nat.le_refl _))
    rcases (Reader.reads_all [] (Token.ofString text) htaken).error_bind hread with hall | ⟨_, s₁, -, hlist⟩
    · exact Reader.unfinished_all htaken hall
    · exact (raises_listFromRoots (E := fun _ => False) base .nil s₁ _ _ hlist).elim

/-- The prompt goes on with a text that the reader takes, and waits where a list or a string has no
end yet, also behind a dot or a quote in that list. -/
theorem isComplete_agrees (s : State) (text : String) (hnul : '\x00' ∉ text.toList) :
    (∀ v s', readAll text s = .ok v s' → isComplete text = true) ∧
    (∀ s', readAll text s = .error (.error (.read .unmatchedOpen)) s' → isComplete text = false) ∧
    (∀ s', readAll text s = .error (.error (.read .unterminatedString)) s' → isComplete text = false) ∧
    (Token.EndInList (Token.ofString text) → isComplete text = false) := by
  have hlist : Token.EndInList (Token.ofString text) → isComplete text = false := by
    intro hend
    obtain ⟨n, hn, hl⟩ := hend.leaves
    rw [isComplete_of_leaves hnul hl]
    exact decide_eq_false (by omega)
  refine ⟨fun v s' hread => ?_, fun s' hread => hlist (unfinished_readAll hread), fun s' hread =>
    isComplete_of_unterminated hnul (unfinished_readAll hread), hlist⟩
  have hgives : Gives Error.IsRead (readAll text) s fun _ _ => ∃ ds, Forms (Token.ofString text) ds :=
    Gives.withRoots (reads_readAll s text).gives
  obtain ⟨ds, hforms⟩ := hgives.of_ok hread
  rw [isComplete_of_leaves hnul hforms.leaves]
  rfl

/-- No form at all, a list and a string without an end, and a list that lacks the form behind a
quote. -/
theorem isComplete_agrees_short :
    '\x00' ∉ " ; )\n".toList ∧ '\x00' ∉ "(".toList ∧ '\x00' ∉ "\"".toList ∧ '\x00' ∉ "('".toList ∧
    isComplete " ; )\n" = true ∧ isComplete "(" = false ∧ isComplete "\"" = false ∧
    isComplete "('" = false := by
  refine ⟨by decide, by decide, by decide, by decide,
    (isComplete_agrees State.mixed " ; )\n" (by decide)).1 .nil State.mixed rfl,
    (isComplete_agrees State.mixed "(" (by decide)).2.1 State.mixed rfl,
    (isComplete_agrees State.mixed "\"" (by decide)).2.2.1 State.mixed rfl,
    (isComplete_agrees State.mixed "('" (by decide)).2.2.2 ?_⟩
  exact ⟨[], [.opening, .quote], [], 0, [.quoted, .list 0], 0, by decide, .nil,
    .opened (.quoted (.list (.nil (Nat.le_refl 0)) .nil)), .list 0, by simp, rfl⟩

end CellLisp
