import CellLisp.Proofs.State.Act
import CellLisp.Proofs.Syntax.Frames
import CellLisp.Syntax.Datum

/-!
# `CellLisp.Proofs.Syntax.Grammar` — forms as sequences of tokens

    form ::= atom | text | quote form | ( form* ) | ( form form* . form )

Each form denotes a tree.  What the reader accepts is one: the tokens it has taken are those of
the constructs still open, from the outside in (`Opened`), each token is one more of them
(`reads_step`), and when none is open any more they make up a form (`reads_first`, `reads_all`).
Nothing else stops the reader but a full store, and either way the protected values below those of
the open lists are left alone (`Reads`).
-/

namespace CellLisp

/-- What an atom denotes: a number if it is a numeral, else a symbol. -/
def Datum.ofAtom (text : String) : Datum :=
  match Number.parse? text with
  | some (.int i) => .int i
  | some (.float x) => .float x
  | none => .symbol text

/-- What a quoted form denotes. -/
def Datum.quoted (d : Datum) : Datum := .pair (.symbol "quote") (.pair d .nil)

/-- A list of trees with a last tail. -/
def Datum.list (items : List Datum) (tail : Datum) : Datum := items.foldr .pair tail

mutual

/-- The tokens of a form, and the tree it denotes. -/
inductive Form : List Token → Datum → Prop
  | atom (text : String) : Form [.atom text] (.ofAtom text)
  | text (text : String) : Form [.text text] (.string text)
  | quoted {ts : List Token} {d : Datum} : Form ts d → Form (.quote :: ts) (.quoted d)
  | list {ts : List Token} {ds : List Datum} :
      Forms ts ds → Form (.opening :: (ts ++ [.closing])) (.list ds .nil)
  | dotted {ts us : List Token} {ds : List Datum} {d : Datum} : Forms ts ds → ds ≠ [] → Form us d →
      Form (.opening :: (ts ++ .dot :: (us ++ [.closing]))) (.list ds d)

/-- The tokens of any number of forms. -/
inductive Forms : List Token → List Datum → Prop
  | nil : Forms [] []
  | cons {ts us : List Token} {d : Datum} {ds : List Datum} :
      Form ts d → Forms us ds → Forms (ts ++ us) (d :: ds)

end

theorem Forms.append {ts us : List Token} {ds es : List Datum} (h : Forms ts ds)
    (h' : Forms us es) : Forms (ts ++ us) (ds ++ es) := by
  match h with
  | .nil => exact h'
  | .cons hf hfs =>
      rw [List.append_assoc]
      exact .cons hf (hfs.append h')

theorem Forms.snoc {ts us : List Token} {ds : List Datum} {d : Datum} (h : Forms ts ds)
    (h' : Form us d) : Forms (ts ++ us) (ds ++ [d]) := by
  have := h.append (.cons h' .nil)
  rwa [List.append_nil] at this

/-! ## Runs of the reader -/

/-- The protected values below a depth are those of before. -/
structure State.Below (d : Nat) (s s' : State) : Prop where
  depth : d ≤ s'.roots.size
  same : ∀ k, k < d → s'.roots[k]? = s.roots[k]?

/-- An action of the reader ends as `Q` says, or because of the text, or because a store is full;
in any case the protected values below a depth are those of before. -/
def Reads {α : Type} (d : Nat) (act : Act α) (s : State) (Q : α → State → Prop) : Prop :=
  match act s with
  | .ok a s' => s.Below d s' ∧ Q a s'
  | .error (.error cause) s' => s.Below d s' ∧ ∃ fault, cause = .read fault
  | .error (.fatal cause) s' => s.Below d s' ∧ cause.IsExhaustion

theorem State.below_of_roots {d : Nat} {s s' : State} (hd : d ≤ s.roots.size)
    (h : s'.roots = s.roots) : s.Below d s' :=
  ⟨by rw [h]; exact hd, fun _ _ => by rw [h]⟩

theorem State.Below.trans {d : Nat} {s s' s'' : State} (h : s.Below d s') (h' : s'.Below d s'') :
    s.Below d s'' :=
  ⟨h'.depth, fun k hk => (h'.same k hk).trans (h.same k hk)⟩

namespace Reads

variable {α β : Type} {d : Nat} {s : State} {Q : α → State → Prop} {R : β → State → Prop}

theorem ok {act : Act α} {a : α} {s' : State} (h : act s = .ok a s') (hb : s.Below d s')
    (hq : Q a s') : Reads d act s Q := by
  unfold Reads
  rw [h]
  exact ⟨hb, hq⟩

theorem pure {a : α} (hd : d ≤ s.roots.size) (hq : Q a s) : Reads d (pure a) s Q :=
  .ok rfl (State.below_of_roots hd rfl) hq

theorem gets {f : State → α} (hd : d ≤ s.roots.size) (hq : Q (f s) s) :
    Reads d (CellLisp.gets f) s Q :=
  .ok rfl (State.below_of_roots hd rfl) hq

theorem modify {f : State → State} {Q : Unit → State → Prop} (hb : s.Below d (f s))
    (hq : Q () (f s)) : Reads d (modify f) s Q :=
  .ok rfl hb hq

theorem fail {fault : ReadError} (hd : d ≤ s.roots.size) :
    Reads d (CellLisp.fail (.read fault) : Act α) s Q :=
  ⟨State.below_of_roots hd rfl, fault, rfl⟩

theorem bind {x : Act α} {f : α → Act β} (hx : Reads d x s Q)
    (hf : ∀ a s', s.Below d s' → Q a s' → Reads d (f a) s' R) : Reads d (x >>= f) s R := by
  unfold Reads at hx
  unfold Reads
  rw [act_bind]
  split at hx
  · rename_i a s' hs
    rw [hs]
    have hrest := hf a s' hx.1 hx.2
    unfold Reads at hrest
    dsimp only
    split at hrest
    · rename_i h
      rw [h]
      exact ⟨hx.1.trans hrest.1, hrest.2⟩
    · rename_i h
      rw [h]
      exact ⟨hx.1.trans hrest.1, hrest.2⟩
    · rename_i h
      rw [h]
      exact ⟨hx.1.trans hrest.1, hrest.2⟩
  · rename_i hs
    rw [hs]
    exact hx
  · rename_i hs
    rw [hs]
    exact hx

theorem mono {act : Act α} {Q' : α → State → Prop} (h : Reads d act s Q)
    (hq : ∀ a s', Q a s' → Q' a s') : Reads d act s Q' := by
  unfold Reads at *
  split at h
  · exact ⟨h.1, hq _ _ h.2⟩
  · exact h
  · exact h

end Reads

section Alloc

variable {d : Nat} {s : State}

theorem reads_exhausted {α : Type} {Q : α → State → Prop} (hd : d ≤ s.roots.size) {what : String}
    {cause : Fatal} (h : cause.IsExhaustion) : Reads d (exhausted what cause) s Q :=
  ⟨State.below_of_roots hd rfl, h⟩

/-- What follows a collection, or is done without one. -/
theorem reads_collected {α : Type} {Q : α → State → Prop} {act : Act α} {low : Bool}
    {pending : Option Cell} (hd : d ≤ s.roots.size)
    (h : ∀ s₁ : State, s₁.roots = s.roots → Reads d act s₁ Q) :
    Reads d (if low = true then do modify fun s => s.collect pending; act else act) s Q := by
  cases low with
  | false => exact h s rfl
  | true =>
      exact Reads.bind (.modify (Q := fun _ s' => s'.roots = s.roots)
        (State.below_of_roots hd rfl) rfl) fun _ s₁ _ h₁ => h s₁ h₁

/-- A cell that is placed leaves the protected values alone, and so does a collection. -/
theorem reads_allocCell (hd : d ≤ s.roots.size) (c : Cell) :
    Reads d (allocCell c) s fun _ s' => s'.roots = s.roots := by
  refine Reads.bind (Q := fun _ s' => s = s') (.gets hd rfl) ?_
  rintro low _ - rfl
  refine reads_collected hd fun s₁ h₁ => ?_
  have hd₁ : d ≤ s₁.roots.size := by rw [h₁]; exact hd
  refine Reads.bind (Q := fun _ s' => s'.roots = s₁.roots)
    (.ok (act_modifyGet _ _) (State.below_of_roots hd₁ rfl) rfl) fun place s₂ hb h₂ => ?_
  cases place with
  | some index => exact .pure hb.depth (h₂.trans h₁)
  | none => exact reads_exhausted hb.depth trivial

theorem reads_claimBlock (hd : d ≤ s.roots.size) (bytes : Nat) :
    Reads d (claimBlock bytes) s fun _ s' => s'.roots = s.roots :=
  .ok (act_modifyGet _ _) (State.below_of_roots hd rfl) rfl

theorem reads_allocBlock (hd : d ≤ s.roots.size) (bytes : Nat) :
    Reads d (allocBlock bytes) s fun _ s' => s'.roots = s.roots := by
  refine Reads.bind (reads_claimBlock hd bytes) fun block s₁ h₁ e₁ => ?_
  cases block with
  | some block => exact .pure h₁.depth e₁
  | none =>
      refine Reads.bind (Q := fun _ s' => s'.roots = s.roots)
        (.modify (State.below_of_roots h₁.depth rfl) e₁) fun _ s₂ h₂ e₂ => ?_
      refine Reads.bind (reads_claimBlock h₂.depth bytes) fun block s₃ h₃ e₃ => ?_
      cases block with
      | some block => exact .pure h₃.depth (e₃.trans e₂)
      | none => exact reads_exhausted h₃.depth trivial

theorem reads_allocPayload (hd : d ≤ s.roots.size) (bytes : Nat) (p : Payload) :
    Reads d (allocPayload bytes p) s fun _ s' => s'.roots = s.roots := by
  refine Reads.bind (reads_allocBlock hd bytes) fun block s₁ h₁ e₁ => ?_
  exact Reads.bind (Q := fun _ s' => s'.roots = s.roots)
    (.modify (State.below_of_roots h₁.depth rfl) e₁) fun _ s₂ h₂ e₂ => .pure h₂.depth e₂

theorem reads_makeString (hd : d ≤ s.roots.size) (text : String) :
    Reads d (makeString text) s fun _ s' => s'.roots = s.roots := by
  refine Reads.bind (reads_allocPayload hd _ _) fun b s₁ hb h => ?_
  exact (reads_allocCell hb.depth _).mono fun _ s₂ h' => h'.trans h

theorem reads_intern (hd : d ≤ s.roots.size) (name : String) :
    Reads d (intern name) s fun _ s' => s'.roots = s.roots := by
  refine Reads.bind (Q := fun _ s' => s = s') (.gets hd rfl) ?_
  rintro found _ - rfl
  cases found with
  | some v => exact .pure hd rfl
  | none =>
      refine Reads.bind (Q := fun _ s' => s = s') (.gets hd rfl) ?_
      rintro slot _ - rfl
      refine Reads.bind (Q := fun _ s' => s = s') (.gets hd rfl) ?_
      rintro next _ - rfl
      have hnew : Reads d (newSymbol name (hashName (Utf8.encode name)) next) s
          fun _ s' => s'.roots = s.roots :=
        Reads.bind (reads_makeString hd name) fun _ s₁ h₁ e₁ =>
          (reads_allocCell h₁.depth _).mono fun _ _ e₂ => e₂.trans e₁
      refine Reads.bind hnew fun v s₁ h₁ e₁ => ?_
      exact Reads.bind (Q := fun _ s' => s'.roots = s.roots)
        (.modify (State.below_of_roots h₁.depth rfl) e₁) fun _ s₂ h₂ e₂ => .pure h₂.depth e₂

theorem reads_atomValue (hd : d ≤ s.roots.size) (text : String) :
    Reads d (Reader.atomValue text) s fun _ s' => s'.roots = s.roots := by
  unfold Reader.atomValue
  split
  · exact .pure hd rfl
  · exact reads_intern hd text

theorem reads_protect (hd : d ≤ s.roots.size) (v : Value) :
    Reads d (protect v) s fun _ s' => s'.roots = s.roots.push v := by
  refine Reads.bind (Q := fun a s' => s = s' ∧ a = s) (.ok rfl (State.below_of_roots hd rfl) ⟨rfl, rfl⟩) ?_
  rintro _ _ - ⟨rfl, rfl⟩
  split
  · exact ⟨State.below_of_roots hd rfl, trivial⟩
  · refine .ok rfl ⟨?_, fun k hk => ?_⟩ rfl
    · rw [Array.size_push]
      omega
    · rw [Array.getElem?_push, if_neg (by omega)]

theorem reads_consRoots (hd : d ≤ s.roots.size) (base n : Nat) (tail : Value) :
    Reads d (consRoots base n tail) s fun _ s' => s'.roots = s.roots := by
  induction n generalizing s tail with
  | zero => exact .pure hd rfl
  | succ n ih =>
      refine Reads.bind (Q := fun _ s' => s = s') (.gets hd rfl) ?_
      rintro head _ - rfl
      refine Reads.bind (reads_allocCell hd _) fun v s₁ h₁ e₁ => ?_
      exact (ih h₁.depth v).mono fun _ _ e₂ => e₂.trans e₁

theorem reads_listFromRoots (hd : d ≤ s.roots.size) (base : Nat) (tail : Value) :
    Reads d (listFromRoots base tail) s fun _ s' => s'.roots = s.roots := by
  refine Reads.bind (Q := fun _ s' => s = s') (.gets hd rfl) ?_
  rintro n _ - rfl
  exact reads_consRoots hd base n tail

end Alloc

/-! ## Constructs still open -/

namespace Reader

/-- The tokens taken by the constructs still open, and how many values are protected with their
elements.  A form may come next. -/
inductive Opened (d : Nat) : List Frame → List Token → Nat → Prop
  | nil {n : Nat} : d ≤ n → Opened d [] [] n
  | list {fs : List Frame} {us ts : List Token} {ds : List Datum} {base : Nat} :
      Opened d fs us base → Forms ts ds →
      Opened d (.list base :: fs) (us ++ .opening :: ts) (base + ds.length)
  | dotted {fs : List Frame} {us ts : List Token} {ds : List Datum} {base : Nat} :
      Opened d fs us base → Forms ts ds → ds ≠ [] →
      Opened d (.dotted base :: fs) (us ++ .opening :: (ts ++ [.dot])) (base + ds.length)
  | quoted {fs : List Frame} {us : List Token} {n : Nat} : Opened d fs us n →
      Opened d (.quoted :: fs) (us ++ [.quote]) n

/-- The same where the form behind a dot may be complete. -/
inductive Taken (d : Nat) : List Frame → List Token → Nat → Prop
  | opened {fs : List Frame} {us : List Token} {n : Nat} : Opened d fs us n → Taken d fs us n
  | ended {fs : List Frame} {us ts : List Token} {x : Datum} {base n : Nat} {tail : Value} :
      Opened d (.dotted base :: fs) us n → Form ts x →
      Taken d (.ended base tail :: fs) (us ++ ts) n

/-- What the tokens taken led to. -/
def Reached (d : Nat) (us : List Token) (s : State) : Outcome → Prop
  | .more frames => Taken d frames us s.roots.size
  | .done _ => d ≤ s.roots.size ∧ ∃ x, Form us x

section

variable {d n base : Nat} {s : State} {fs : List Frame} {us ts : List Token} {x : Datum}

theorem Opened.le (h : Opened d fs us n) : d ≤ n := by
  induction h with
  | nil h => exact h
  | list _ _ ih | dotted _ _ _ ih => omega
  | quoted _ ih => exact ih

theorem Taken.le (h : Taken d fs us n) : d ≤ n := by
  cases h with
  | opened h => exact h.le
  | ended h => exact h.le

/-- A form is part of the construct it belongs to. -/
theorem reads_deliver {form : Value} (h : Opened d fs us n) (hn : s.roots.size = n)
    (hf : Form ts x) : Reads d (deliver form fs) s fun o s' => Reached d (us ++ ts) s' o := by
  induction h generalizing s form ts x with
  | nil hd =>
      rw [← hn] at hd
      exact .pure hd ⟨hd, x, hf⟩
  | @quoted fs us n h ih =>
      have hd := h.le
      refine Reads.bind (reads_allocCell (by omega) _) fun body s₁ h₁ e₁ => ?_
      refine Reads.bind (Q := fun _ s' => s₁ = s') (.gets h₁.depth rfl) ?_
      rintro quote _ - rfl
      refine Reads.bind (reads_allocCell h₁.depth _) fun v s₂ h₂ e₂ => ?_
      rw [List.append_assoc]
      exact ih (by rw [e₂, e₁, hn]) hf.quoted
  | @list fs us us' ds base h hs ih =>
      have hd := h.le
      refine Reads.bind (reads_protect (by omega) form) fun _ s₁ h₁ e₁ => .pure h₁.depth ?_
      have hlist := Taken.opened (h.list (hs.snoc hf))
      rw [List.append_assoc, List.cons_append]
      have hsize : s₁.roots.size = base + (ds ++ [x]).length := by
        rw [e₁, Array.size_push, hn, List.length_append]
        rfl
      rw [Reached, hsize]
      exact hlist
  | @dotted fs us us' ds base h hs hne ih =>
      have hd := h.le
      refine .pure (by omega) ?_
      rw [Reached, hn]
      exact .ended (h.dotted hs hne) hf

/-- A list is complete. -/
theorem reads_close (tail : Value) (h : Opened d fs us base) (hbase : base ≤ s.roots.size)
    (hf : Form ts x) : Reads d (close base tail fs) s fun o s' => Reached d (us ++ ts) s' o := by
  have hd := h.le
  refine Reads.bind (reads_listFromRoots (by omega) base tail) fun v s₁ h₁ e₁ => ?_
  have hsize : (s₁.roots.shrink base).size = base := by
    rw [Array.size_shrink, e₁]
    omega
  refine Reads.bind (Q := fun _ s' => s'.roots = s₁.roots.shrink base) (.modify ⟨?_, fun k hk => ?_⟩ rfl)
    fun _ s₂ h₂ e₂ => reads_deliver h (by rw [e₂, hsize]) hf
  · show d ≤ (s₁.roots.shrink base).size
    rw [hsize]
    exact hd
  · show (s₁.roots.shrink base)[k]? = _
    rw [← Array.getElem?_toList, Array.toList_shrink, List.getElem?_take, if_pos (by omega),
      Array.getElem?_toList]

/-- One more token. -/
theorem reads_step (t : Token) (h : Taken d fs us s.roots.size) :
    Reads d (step t fs) s fun o s' => Reached d (us ++ [t]) s' o := by
  have hd := h.le
  generalize hn : s.roots.size = n at h
  cases h with
  | @ended fs us ts x base _ tail h hx =>
      cases t with
      | closing =>
          cases h with
          | @dotted _ us ts' ds _ h hs hne =>
              have hform := reads_close tail (s := s) h (by omega) (.dotted hs hne hx)
              rw [step]
              simpa using hform
      | opening | dot | quote | text | atom | unterminated => exact .fail hd
  | opened h =>
      have hleaf : ∀ {act : Act Value} {x : Datum}, Form [t] x →
          Reads d act s (fun _ s' => s'.roots = s.roots) →
          Reads d (act >>= (deliver · fs)) s fun o s' => Reached d (us ++ [t]) s' o :=
        fun hx hact => Reads.bind hact fun v s₁ h₁ e₁ => reads_deliver h (by rw [e₁, hn]) hx
      have hfs : Accepts fs := by cases h <;> trivial
      cases t with
      | unterminated =>
          have : step .unterminated fs = fail (.read .unterminatedString) := by
            cases fs <;> rfl
          rw [this]
          exact .fail hd
      | text text =>
          rw [step_text hfs]
          exact hleaf (.text text) (reads_makeString hd text)
      | atom text =>
          rw [step_atom hfs]
          exact hleaf (.atom text) (reads_atomValue hd text)
      | opening =>
          rw [step_opening hfs]
          refine Reads.bind (Q := fun k s' => s = s' ∧ k = s.roots.size) (.gets hd ⟨rfl, rfl⟩) ?_
          rintro _ _ - ⟨rfl, rfl⟩
          refine .pure hd (.opened ?_)
          rw [hn]
          exact h.list .nil
      | quote =>
          rw [step_quote hfs]
          refine .pure hd (.opened ?_)
          rw [hn]
          exact h.quoted
      | closing =>
          cases h with
          | nil | dotted | quoted => exact .fail hd
          | list h hs =>
              have hform := reads_close .nil (s := s) h (by omega) (.list hs)
              rw [step]
              simpa using hform
      | dot =>
          cases h with
          | nil | dotted | quoted => exact .fail hd
          | @list fs us ts ds base h hs =>
              refine Reads.bind (Q := fun k s' => s = s' ∧ k = s.roots.size) (.gets hd ⟨rfl, rfl⟩) ?_
              rintro _ _ - ⟨rfl, rfl⟩
              split
              · exact .fail hd
              · refine .pure hd ?_
                have hne : ds ≠ [] := by
                  rintro rfl
                  exact absurd hn ‹_›
                have hdotted := Taken.opened (h.dotted hs hne)
                rw [Reached, hn]
                simpa using hdotted

end

/-! ## Whole texts -/

section

variable {d : Nat} {s : State} {fs : List Frame}

/-- The first form read is one that the tokens begin with. -/
theorem reads_first (us ts : List Token) (h : Taken d fs us s.roots.size) :
    Reads d (first ts fs) s fun _ _ => ∃ vs ws x, us ++ ts = vs ++ ws ∧ Form vs x := by
  induction ts generalizing s fs us with
  | nil => exact .fail h.le
  | cons t ts ih =>
      rw [first_cons]
      refine Reads.bind (reads_step t h) fun o s₁ h₁ ho => ?_
      cases o with
      | done v =>
          obtain ⟨-, x, hx⟩ := ho
          exact .pure h₁.depth ⟨us ++ [t], ts, x, by simp, hx⟩
      | more frames => simpa [resume] using ih (us ++ [t]) ho

/-- Forms are read up to the end, and nothing else. -/
theorem reads_all (us ts : List Token) (h : Taken d fs us s.roots.size) :
    Reads d (all ts fs) s fun _ _ => ∃ ds, Forms (us ++ ts) ds := by
  induction ts generalizing s fs us with
  | nil =>
      rw [all]
      split
      · exact .fail h.le
      · rename_i hend
        have hd := h.le
        generalize s.roots.size = n at h
        cases h with
        | opened h =>
            cases h with
            | nil => exact .pure hd ⟨[], .nil⟩
            | list | dotted | quoted => cases hend
        | ended h => cases hend
  | cons t ts ih =>
      rw [all]
      refine Reads.bind (reads_step t h) fun o s₁ h₁ ho => ?_
      cases o with
      | done v =>
          obtain ⟨hd, x, hx⟩ := ho
          refine Reads.bind (reads_protect hd v) fun _ s₂ h₂ e₂ => ?_
          refine (ih [] (.opened (.nil h₂.depth))).mono ?_
          rintro _ _ ⟨ds, hds⟩
          exact ⟨x :: ds, by simpa using Forms.cons hx hds⟩
      | more frames => simpa using ih (us ++ [t]) ho

end

end Reader

end CellLisp
