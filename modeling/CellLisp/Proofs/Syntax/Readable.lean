import CellLisp.Proofs.Syntax.ReadBack

/-!
# `CellLisp.Proofs.Syntax.Readable` — what is read can be written

Whatever text the reader is given, a value that it yields is a tree whose leaves can be written.
The scanner makes tokens of which this can be true (`Token.sound_ofString`); from then on the
protected values that belong to open lists, and the form behind a dot, are such trees.

| | gives |
| :-- | :-- |
| `gives_readable_step` | a readable form, or constructs still open that hold readable forms |
| `gives_readable_first` | a readable form |
| `gives_readable_all` | protected values that are readable |
-/

namespace CellLisp

/-! ## Tokens -/

namespace Token

/-- The text of a token can be written. -/
def Sound : Token → Prop
  | .text s => Quotable s
  | .atom s => Word s
  | _ => True

/-- The characters of the token being scanned can be part of one. -/
def ScanSound : Scan → Prop
  | .text acc => ∀ c ∈ acc, c ≠ '"' ∧ c ≠ '\x00'
  | .atom acc => acc ≠ [] ∧ ∀ c ∈ acc, isDelimiter c = false
  | _ => True

theorem sound_ofAtom {acc : List Char} (h : ScanSound (.atom acc)) : (ofAtom acc).Sound := by
  have hlist : (String.ofList acc.reverse).toList = acc.reverse := String.toList_ofList
  unfold ofAtom
  simp only
  split
  · trivial
  · refine ⟨fun e => h.1 ?_, fun c hc => ?_, ‹_›⟩
    · have hnil := congrArg String.toList e
      rw [hlist] at hnil
      simpa using hnil
    · rw [hlist] at hc
      exact h.2 c (List.mem_reverse.1 hc)

/-- A character between tokens begins what can be part of one. -/
theorem sound_start (c : Char) :
    (∀ t, (start c).1 = some t → t.Sound) ∧ ScanSound (start c).2 := by
  cases hd : isDelimiter c with
  | false => simp [start_of_plain hd, ScanSound, hd]
  | true =>
      unfold start
      split_ifs with hb h₁ h₂ h₃ h₄ h₅ h₆ <;> simp [ScanSound, Sound]
      simp_all [isDelimiter]

theorem sound_add {ts : List Token} {t? : Option Token} (h : ∀ t ∈ ts, t.Sound)
    (ht : ∀ t, t? = some t → t.Sound) : ∀ t ∈ add ts t?, t.Sound := by
  cases t? with
  | none => exact h
  | some t =>
      intro u hu
      rcases List.mem_cons.1 hu with rfl | hu
      · exact ht _ rfl
      · exact h u hu

theorem sound_cons {ts : List Token} {t : Token} (h : ∀ t ∈ ts, t.Sound) (ht : t.Sound) :
    ∀ u ∈ t :: ts, u.Sound :=
  @sound_add ts (some t) h fun _ e => Option.some.inj e ▸ ht

theorem quotable_ofList {acc : List Char} (h : ScanSound (.text acc)) :
    Quotable (String.ofList acc.reverse) := by
  intro c hc
  rw [String.toList_ofList] at hc
  exact h c (List.mem_reverse.1 hc)

/-- One character. -/
theorem sound_step {p : List Token × Scan} (h : ∀ t ∈ p.1, t.Sound) (hs : ScanSound p.2)
    (c : Char) : (∀ t ∈ (step p c).1, t.Sound) ∧ ScanSound (step p c).2 := by
  obtain ⟨ts, st⟩ := p
  obtain ⟨hstart, hnext⟩ := sound_start c
  cases st with
  | blank => exact ⟨sound_add h hstart, hnext⟩
  | comment =>
      refine ⟨h, ?_⟩
      simp only [step]
      split <;> trivial
  | text acc =>
      simp only [step]
      split
      · exact ⟨sound_cons h (quotable_ofList hs), trivial⟩
      · split
        · exact ⟨sound_cons h trivial, trivial⟩
        · refine ⟨h, fun c' hc' => ?_⟩
          rcases List.mem_cons.1 hc' with rfl | hc'
          · exact ⟨‹_›, ‹_›⟩
          · exact hs c' hc'
  | atom acc =>
      simp only [step]
      split
      · exact ⟨sound_add (sound_cons h (sound_ofAtom hs)) hstart, hnext⟩
      · rename_i hd
        refine ⟨h, by simp, fun c' hc' => ?_⟩
        rcases List.mem_cons.1 hc' with rfl | hc'
        · exact Bool.eq_false_iff.2 hd
        · exact hs.2 c' hc'
  | done => exact ⟨h, trivial⟩

theorem sound_foldl {cs : List Char} {p : List Token × Scan} (h : ∀ t ∈ p.1, t.Sound)
    (hs : ScanSound p.2) :
    (∀ t ∈ (cs.foldl step p).1, t.Sound) ∧ ScanSound (cs.foldl step p).2 := by
  induction cs generalizing p with
  | nil => exact ⟨h, hs⟩
  | cons c cs ih =>
      obtain ⟨h', hs'⟩ := sound_step h hs c
      exact ih h' hs'

/-- The tokens of a text can be written. -/
theorem sound_ofString (text : String) : ∀ t ∈ ofString text, t.Sound := by
  intro t ht
  rw [ofString, scan, List.mem_reverse] at ht
  obtain ⟨h, hs⟩ := @sound_foldl text.toList ([], .blank) (by simp) trivial
  revert ht h hs
  generalize text.toList.foldl step ([], .blank) = p
  obtain ⟨ts, st⟩ := p
  intro ht h hs
  cases st with
  | text acc => exact sound_cons (t := .unterminated) h trivial t ht
  | atom acc => exact sound_cons h (sound_ofAtom hs) t ht
  | blank | comment | done => exact h t ht

end Token

/-! ## Numbers -/

/-- An integer that is written is in range. -/
theorem Number.int_of_parse? {text : String} {i : Int} (h : parse? text = some (.int i)) :
    intMin ≤ i ∧ i ≤ intMax := by
  unfold parse? at h
  simp only at h
  split at h
  · cases h
  · have hfinite : Literal.finite? text.toList ≠ some (.int i) := by
      unfold Literal.finite?
      split
      · split <;> nofun
      · nofun
    split at h
    · split at h
      · simp only [Option.some.injEq, Number.int.injEq] at h
        subst h
        assumption
      · exact absurd h hfinite
    · exact absurd h hfinite

/-- A float that is written is finite. -/
theorem Number.float_of_parse? {text : String} {x : Binary32}
    (h : parse? text = some (.float x)) : x.isFinite = true := by
  have hfinite : Literal.finite? text.toList = some (.float x) → x.isFinite = true := by
    unfold Literal.finite?
    split
    · split
      · rintro ⟨⟩
        assumption
      · nofun
    · nofun
  unfold parse? at h
  simp only at h
  split at h
  · cases h
  · split at h
    · split at h
      · cases h
      · exact hfinite h
    · exact hfinite h

/-! ## Reading -/

namespace State

variable {s s' : State} {A : List Value} {v : Value} {d : Nat}

theorem Readable.onward (hv : s.Readable v) (hs : s.InOrder) (h : s.Onward A s')
    (hr : s.heap.Reaches (s.rootValues ++ A) v) : s'.Readable v := by
  obtain ⟨t, ht, htr⟩ := hv
  exact ⟨t, ht.onward hs h hr, htr⟩

theorem Readable.with_roots (hv : s.Readable v) (r : Array Value) :
    Readable { s with roots := r } v := by
  obtain ⟨t, ht, htr⟩ := hv
  exact ⟨t, ht.with_roots r, htr⟩

theorem Readable.holds (hv : s.Readable v) : s.heap.Holds v := by
  obtain ⟨t, ht, -⟩ := hv
  exact ht.holds

/-- The reader is at work: the protected values from a depth on are readable. -/
structure Reading (s : State) (d : Nat) : Prop extends State.Ready s where
  depth : d ≤ s.roots.size
  readable : ∀ k v, d ≤ k → s.roots[k]? = some v → s.Readable v

theorem Ready.reading (hs : s.Ready) : s.Reading s.roots.size :=
  ⟨hs, Nat.le_refl _, fun k v hk hv => by simp [Array.getElem?_eq_none hk] at hv⟩

theorem Reading.onward (hs : s.Reading d) (h : s.Onward A s') : s'.Reading d := by
  refine ⟨hs.toReady.onward h, by rw [h.roots]; exact hs.depth, fun k v hk hv => ?_⟩
  rw [h.roots] at hv
  refine (hs.readable k v hk hv).onward hs.toInOrder h (Heap.reaches_of_mem ?_)
  exact List.mem_append_left _ (mem_rootValues_of_roots (Array.mem_of_getElem? hv))

theorem Reading.push (hs : s.Reading d) (hv : s.Readable v) :
    Reading { s with roots := s.roots.push v } d := by
  refine ⟨hs.toReady.with_roots fun u hu => ?_, ?_, fun k u hk hu => ?_⟩
  · rcases Array.mem_push.1 hu with hu | rfl
    · exact hs.holds_root hu
    · exact hv.holds
  · show d ≤ (s.roots.push v).size
    rw [Array.size_push]
    exact Nat.le_succ_of_le hs.depth
  · have hget : (s.roots.push v)[k]? = some u := hu
    rw [Array.getElem?_push] at hget
    split at hget
    · obtain rfl := Option.some.inj hget
      exact hv.with_roots _
    · exact (hs.readable k u hk hget).with_roots _

theorem Reading.shrink (hs : s.Reading d) {n : Nat} (hn : d ≤ n) :
    Reading { s with roots := s.roots.shrink n } d := by
  refine ⟨hs.toReady.with_roots fun u hu => hs.holds_root (mem_of_mem_shrink hu), ?_,
    fun k u hk hu => ?_⟩
  · show d ≤ (s.roots.shrink n).size
    have := hs.depth
    rw [Array.size_shrink]
    omega
  · have hget : (s.roots.shrink n)[k]? = some u := hu
    rw [← Array.getElem?_toList, Array.toList_shrink, List.getElem?_take] at hget
    split at hget
    · rw [Array.getElem?_toList] at hget
      exact (hs.readable k u hk hget).with_roots _
    · cases hget

theorem Reading.readable_getD (hs : s.Reading d) {k : Nat} (hk : d ≤ k) :
    s.Readable (s.roots.getD k .nil) := by
  rw [Array.getD_eq_getD_getElem?]
  cases hv : s.roots[k]? with
  | none => exact ⟨.nil, .nil, trivial⟩
  | some v => exact hs.readable k v hk hv

end State

section Reading

open Reader

variable {s : State} {d : Nat}

/-- The constructs still open; only the innermost may hold a form, which is readable. -/
def Reader.FramesReadable (d : Nat) (s : State) : List Reader.Frame → Prop
  | .ended base tail :: rest => d ≤ base ∧ s.Readable tail ∧ ∀ f ∈ rest, f.Open d
  | frames => ∀ f ∈ frames, f.Open d

/-- What a token led to. -/
def Reader.OutcomeReadable (d : Nat) (s : State) : Outcome → Prop
  | .more frames => FramesReadable d s frames
  | .done form => s.Readable form

/-- Whatever goes wrong. -/
abbrev AnyError : Error → Prop := fun _ => True

/-- A pair of readable values. -/
theorem gives_readable_cons (hs : s.Reading d) {head tail : Value} (hh : s.Readable head)
    (ht : s.Readable tail) :
    Gives AnyError (cons head tail) s fun v s' => s'.Reading d ∧ s'.Readable v := by
  refine (gives_cons hs.toInOrder hh.holds ht.holds).mono ?_
  rintro v s₁ ⟨hon, hp⟩
  have hon := hon.toOnward
  refine ⟨hs.onward hon, ?_⟩
  obtain ⟨a, ha, har⟩ := hh.onward hs.toInOrder hon (Heap.reaches_of_mem (by simp))
  obtain ⟨b, hb, hbr⟩ := ht.onward hs.toInOrder hon (Heap.reaches_of_mem (by simp))
  exact ⟨.pair a b, .pair hp ha hb, har, hbr⟩

theorem gives_readable_consRoots {base n : Nat} {tail : Value} (hs : s.Reading d) (hd : d ≤ base)
    (ht : s.Readable tail) :
    Gives AnyError (consRoots base n tail) s fun v s' => s'.Reading d ∧ s'.Readable v := by
  induction n generalizing s tail with
  | zero => exact .pure ⟨hs, ht⟩
  | succ n ih =>
      refine Gives.bind (Q := fun v s' => v = s.roots.getD (base + n) .nil ∧ s = s')
        (.gets ⟨rfl, rfl⟩) ?_
      rintro _ _ ⟨rfl, rfl⟩
      refine Gives.bind (gives_readable_cons hs (hs.readable_getD (by omega)) ht) ?_
      rintro v s₁ ⟨hs₁, hv⟩
      exact ih hs₁ hv

theorem gives_readable_listFromRoots {base : Nat} {tail : Value} (hs : s.Reading d) (hd : d ≤ base)
    (ht : s.Readable tail) :
    Gives AnyError (listFromRoots base tail) s fun v s' => s'.Reading d ∧ s'.Readable v := by
  refine Gives.bind (Q := fun _ s' => s = s') (.gets rfl) ?_
  rintro n _ rfl
  exact gives_readable_consRoots hs hd ht

/-- A form goes to the construct it belongs to. -/
theorem gives_readable_deliver {form : Value} {frames : List Reader.Frame} (hs : s.Reading d)
    (hform : s.Readable form) (hframes : ∀ f ∈ frames, f.Open d) :
    Gives AnyError (deliver form frames) s fun o s' => s'.Reading d ∧ OutcomeReadable d s' o := by
  induction frames generalizing s form with
  | nil => exact .pure ⟨hs, hform⟩
  | cons f rest ih =>
      have hrest : ∀ f ∈ rest, f.Open d := fun f hf => hframes f (List.mem_cons_of_mem _ hf)
      have hopen := hframes f List.mem_cons_self
      cases f with
      | quoted =>
          refine Gives.bind (gives_readable_cons hs hform ⟨.nil, .nil, trivial⟩) ?_
          rintro body s₁ ⟨hs₁, hbody⟩
          refine Gives.bind (Q := fun v s' => v = s₁.known.quote ∧ s₁ = s') (.gets ⟨rfl, rfl⟩) ?_
          rintro _ _ ⟨rfl, rfl⟩
          have hquote : s₁.Readable s₁.known.quote := by
            exact ⟨.symbol "quote", .symbol hs₁.quote, show Symbol.Name "quote" by decide⟩
          refine Gives.bind (gives_readable_cons hs₁ hquote hbody) ?_
          rintro v s₂ ⟨hs₂, hv⟩
          exact ih hs₂ hv hrest
      | list base =>
          refine Gives.bind (gives_protect (s := s) (v := form)) ?_
          rintro _ _ rfl
          exact .pure ⟨hs.push hform, hframes⟩
      | dotted base => exact .pure ⟨hs, hopen, hform, hrest⟩
      | ended base tail => exact hopen.elim

/-- A list is completed. -/
theorem gives_readable_close {base : Nat} {tail : Value} {rest : List Reader.Frame} (hs : s.Reading d)
    (hd : d ≤ base) (ht : s.Readable tail) (hrest : ∀ f ∈ rest, f.Open d) :
    Gives AnyError (close base tail rest) s fun o s' =>
      s'.Reading d ∧ OutcomeReadable d s' o := by
  refine Gives.bind (gives_readable_listFromRoots hs hd ht) ?_
  rintro v s₁ ⟨hs₁, hv⟩
  refine Gives.bind (Q := fun _ s' => { s₁ with roots := s₁.roots.shrink base } = s')
    (.modify rfl) ?_
  rintro _ _ rfl
  exact gives_readable_deliver (hs₁.shrink hd) (hv.with_roots _) hrest

/-- The value of an atom. -/
theorem gives_readable_atomValue (hs : s.Reading d) {text : String} (ht : Token.Word text) :
    Gives AnyError (atomValue text) s fun v s' => s'.Reading d ∧ s'.Readable v := by
  unfold atomValue
  split
  · rename_i n hn
    cases n with
    | int i => exact .pure ⟨hs, .int i, .int i, Number.int_of_parse? hn⟩
    | float x => exact .pure ⟨hs, .float x, .float x, Number.float_of_parse? hn⟩
  · rename_i hn
    refine (gives_intern hs.toInOrder text).mono ?_
    rintro v s₁ ⟨hon, hv⟩
    exact ⟨hs.onward hon, .symbol text, .symbol hv, ht, hn⟩

/-- One token. -/
theorem gives_readable_step {t : Token} {frames : List Reader.Frame} (ht : t.Sound) (hs : s.Reading d)
    (hframes : FramesReadable d s frames) :
    Gives AnyError (Reader.step t frames) s fun o s' => s'.Reading d ∧ OutcomeReadable d s' o := by
  have hnil : s.Readable .nil := ⟨.nil, .nil, trivial⟩
  unfold Reader.step
  split
  · exact .fail trivial
  · exact gives_readable_close hs hframes.1 hframes.2.1 hframes.2.2
  · exact .fail trivial
  · have hbase := hframes _ List.mem_cons_self
    exact gives_readable_close hs hbase hnil fun f hf => hframes f (List.mem_cons_of_mem _ hf)
  · exact .fail trivial
  · refine Gives.bind (Q := fun _ s' => s = s') (.gets rfl) ?_
    rintro n _ rfl
    split
    · exact .fail trivial
    · refine .pure ⟨hs, fun f hf => ?_⟩
      rcases List.mem_cons.1 hf with rfl | hf
      · exact hframes (.list _) List.mem_cons_self
      · exact hframes f (List.mem_cons_of_mem _ hf)
  · exact .fail trivial
  all_goals
    have hopen : ∀ f ∈ frames, f.Open d := by
      cases frames with
      | nil => rintro f ⟨⟩
      | cons f rest =>
          cases f with
          | ended base tail => simp_all
          | list | dotted | quoted => exact hframes
  · refine Gives.bind (Q := fun n s' => n = s.roots.size ∧ s = s') (.gets ⟨rfl, rfl⟩) ?_
    rintro _ _ ⟨rfl, rfl⟩
    refine .pure ⟨hs, fun f hf => ?_⟩
    rcases List.mem_cons.1 hf with rfl | hf
    · exact hs.depth
    · exact hopen f hf
  · refine .pure ⟨hs, fun f hf => ?_⟩
    rcases List.mem_cons.1 hf with rfl | hf
    · trivial
    · exact hopen f hf
  · refine Gives.bind (gives_makeString hs.toInOrder _) ?_
    rintro v s₁ ⟨hon, hv⟩
    exact gives_readable_deliver (hs.onward hon.toOnward) ⟨_, .string hv, ht⟩ hopen
  · refine Gives.bind (gives_readable_atomValue hs ht) ?_
    rintro v s₁ ⟨hs₁, hv⟩
    exact gives_readable_deliver hs₁ hv hopen

/-- Up to the end of the first form. -/
theorem gives_readable_first {ts : List Token} {frames : List Reader.Frame} (hts : ∀ t ∈ ts, t.Sound)
    (hs : s.Reading d) (hframes : FramesReadable d s frames) :
    Gives AnyError (first ts frames) s fun v s' => s'.Readable v := by
  induction ts generalizing s frames with
  | nil => exact .fail trivial
  | cons t ts ih =>
      refine Gives.bind (gives_readable_step (hts t List.mem_cons_self) hs hframes) ?_
      rintro o s₁ ⟨hs₁, ho⟩
      cases o with
      | done form => exact .pure ho
      | more frames => exact ih (fun t ht => hts t (List.mem_cons_of_mem _ ht)) hs₁ ho

/-- All forms are kept. -/
theorem gives_readable_all {ts : List Token} {frames : List Reader.Frame} (hts : ∀ t ∈ ts, t.Sound)
    (hs : s.Reading d) (hframes : FramesReadable d s frames) :
    Gives AnyError (all ts frames) s fun _ s' => s'.Reading d := by
  induction ts generalizing s frames with
  | nil =>
      rw [all]
      split
      · exact .fail trivial
      · exact .pure hs
  | cons t ts ih =>
      have hrest : ∀ t ∈ ts, t.Sound := fun t ht => hts t (List.mem_cons_of_mem _ ht)
      refine Gives.bind (gives_readable_step (hts t List.mem_cons_self) hs hframes) ?_
      rintro o s₁ ⟨hs₁, ho⟩
      cases o with
      | done form =>
          refine Gives.bind (gives_protect (s := s₁) (v := form)) ?_
          rintro _ _ rfl
          exact ih hrest (hs₁.push ho) (by rintro f ⟨⟩)
      | more frames => exact ih hrest hs₁ ho

/-- The first form of a text. -/
theorem gives_readable_read (hs : s.Ready) (text : String) :
    Gives AnyError (read text) s fun v s' => s'.Readable v := by
  have hnone : FramesReadable s.roots.size s [] := nofun
  refine Gives.withRoots ?_
  refine (gives_readable_first (Token.sound_ofString text) hs.reading hnone).mono ?_
  intro v s' hv
  exact hv.with_roots _

/-- A list of all forms of a text. -/
theorem gives_readable_readAll (hs : s.Ready) (text : String) :
    Gives AnyError (readAll text) s fun v s' => s'.Readable v := by
  have hnone : FramesReadable s.roots.size s [] := nofun
  refine Gives.withRoots ?_
  refine Gives.bind (Q := fun n s' => n = s.roots.size ∧ s = s') (.gets ⟨rfl, rfl⟩) ?_
  rintro _ _ ⟨rfl, rfl⟩
  refine Gives.bind (gives_readable_all (Token.sound_ofString text) hs.reading hnone) ?_
  intro _ s₁ hs₁
  refine (gives_readable_listFromRoots hs₁ (Nat.le_refl _) ⟨.nil, .nil, trivial⟩).mono ?_
  rintro v s₂ ⟨-, hv⟩
  exact hv.with_roots _

end Reading

end CellLisp
