import CellLisp.Proofs.State.Queue
import CellLisp.Proofs.Text.Decoding

/-!
# `CellLisp.Proofs.State.Characters` — characters read from a stream

An open stream over a buffer has the bytes from its place on still to be read, `h.unread r`.

    to be read                    a character is read as         and passed are
    nothing                       none                           no bytes
    the octets of c, then others  c                              these octets
    anything else                 an error of input or output    one to four bytes

So texts that were written to a stream which had nothing to be read come back as their
characters, and then nothing does.
-/

namespace CellLisp

/-- The bytes of a stream that have not been read. -/
def Heap.unread (h : Heap) (r : StringStream) : List UInt8 := (h.buffered r).toList.drop r.pos

/-- The state in which so many more bytes of a stream have been read. -/
def State.skipped (s : State) (i : Nat) (r : StringStream) (n : Nat) : State :=
  s.putBuffer i { r with pos := r.pos + n }

section Reading

variable {s : State} {v : Value} {i n : Nat} {r : StringStream} {b : UInt8} {bs : List UInt8}
  {c : Char}

theorem State.skipped_skipped (m : Nat) :
    (s.skipped i r n).skipped i { r with pos := r.pos + n } m = s.skipped i r (n + m) := by
  rw [skipped, skipped, putBuffer_putBuffer, skipped, Nat.add_assoc]

theorem State.skipped_zero (hc : s.heap.stream? v = some (.buffer i r)) : s.skipped i r 0 = s :=
  putBuffer_self (Heap.buffer_of_stream? hc).2

theorem State.stream?_skipped (hc : s.heap.stream? v = some (.buffer i r)) (n : Nat) :
    (s.skipped i r n).heap.stream? v = some (.buffer i { r with pos := r.pos + n }) :=
  stream?_putBuffer hc

theorem Heap.unread_skipped (s : State) (i : Nat) (r : StringStream) (n : Nat) :
    (s.skipped i r n).heap.unread { r with pos := r.pos + n } = (s.heap.unread r).drop n := by
  rw [unread, unread, List.drop_drop]
  rfl

theorem Heap.getElem?_of_unread {h : Heap} :
    (h.buffered r)[r.pos]? = (h.unread r).head? := by
  rw [unread, List.head?_drop, Array.getElem?_toList]

theorem readByte_cons (hc : s.heap.stream? v = some (.buffer i r)) (ho : r.isOpen = true)
    (hu : s.heap.unread r = b :: bs) : readByte v s = .ok (some b) (s.skipped i r 1) := by
  rw [readByte_eq hc ho, Heap.getElem?_of_unread, hu]
  rfl

theorem readByte_nil (hc : s.heap.stream? v = some (.buffer i r)) (ho : r.isOpen = true)
    (hu : s.heap.unread r = []) : readByte v s = .ok none s := by
  rw [readByte_eq hc ho, Heap.getElem?_of_unread, hu]
  rfl

/-- So many bytes are read, or all that are left. -/
theorem readTails_eq (hc : s.heap.stream? v = some (.buffer i r)) (ho : r.isOpen = true) (n : Nat) :
    readTails v n s = if n ≤ (s.heap.unread r).length
      then .ok ((s.heap.unread r).take n) (s.skipped i r n)
      else .error (.error (.io .truncatedUtf8)) (s.skipped i r (s.heap.unread r).length) := by
  induction n generalizing s r with
  | zero =>
      rw [if_pos (Nat.zero_le _), State.skipped_zero hc]
      rfl
  | succ n ih =>
      rw [readTails, act_bind]
      cases hu : s.heap.unread r with
      | nil =>
          rw [readByte_nil hc ho hu, if_neg (by simp), List.length_nil, State.skipped_zero hc]
          rfl
      | cons b bs =>
          have hrest : (s.skipped i r 1).heap.unread { r with pos := r.pos + 1 } = bs := by
            rw [Heap.unread_skipped, hu]
            rfl
          have htails := ih (State.stream?_skipped hc 1) ho
          rw [hrest, State.skipped_skipped, State.skipped_skipped] at htails
          rw [readByte_cons hc ho hu]
          change (readTails v n >>= fun tails => pure (b :: tails)) (s.skipped i r 1) = _
          rw [act_bind, htails, Nat.add_comm 1 n, Nat.add_comm 1]
          by_cases hle : n ≤ bs.length
          · rw [if_pos hle, if_pos (show n + 1 ≤ (b :: bs).length from Nat.succ_le_succ hle)]
            rfl
          · rw [if_neg hle, if_neg fun h : n + 1 ≤ (b :: bs).length =>
              hle (Nat.le_of_succ_le_succ h)]
            rfl

/-- What a character is read as of which the first byte has been read. -/
theorem readChar_cons (hc : s.heap.stream? v = some (.buffer i r)) (ho : r.isOpen = true)
    (hu : s.heap.unread r = b :: bs) :
    readChar v s = match charWidth? b with
      | none => .error (.error (.io .invalidUtf8)) (s.skipped i r 1)
      | some width =>
        if width - 1 ≤ bs.length then
          match Utf8.decodeChars? [] (b :: bs.take (width - 1)) with
          | some (c :: _) => .ok (some c) (s.skipped i r (1 + (width - 1)))
          | _ => .error (.error (.io .invalidUtf8)) (s.skipped i r (1 + (width - 1)))
        else .error (.error (.io .truncatedUtf8)) (s.skipped i r (1 + bs.length)) := by
  have hrest : (s.skipped i r 1).heap.unread { r with pos := r.pos + 1 } = bs := by
    rw [Heap.unread_skipped, hu]
    rfl
  rw [readChar, act_bind, readByte_cons hc ho hu]
  dsimp only
  cases charWidth? b with
  | none => rfl
  | some width =>
      have htails := readTails_eq (State.stream?_skipped hc 1) ho (width - 1)
      rw [hrest, State.skipped_skipped, State.skipped_skipped] at htails
      dsimp only
      rw [act_bind, htails]
      by_cases hle : width - 1 ≤ bs.length
      · rw [if_pos hle, if_pos hle]
        dsimp only
        cases Utf8.decodeChars? [] (b :: bs.take (width - 1)) with
        | none => rfl
        | some cs => cases cs <;> rfl
      · rw [if_neg hle, if_neg hle]

/-- The character that is read is the one whose octets come next. -/
theorem readChar_encoded {tail : List UInt8} (hc : s.heap.stream? v = some (.buffer i r))
    (ho : r.isOpen = true) (hu : s.heap.unread r = String.utf8EncodeChar c ++ tail) :
    readChar v s = .ok (some c) (s.skipped i r (String.utf8EncodeChar c).length) := by
  cases henc : String.utf8EncodeChar c with
  | nil => exact absurd henc (String.utf8EncodeChar_ne_nil)
  | cons b bs =>
      rw [henc, List.cons_append] at hu
      rw [readChar_cons hc ho hu, Utf8.charWidth?_of_encoded henc.symm]
      have hle : bs.length + 1 - 1 ≤ (bs ++ tail).length := by simp
      have htake : (bs ++ tail).take (bs.length + 1 - 1) = bs := by simp
      dsimp only
      rw [if_pos hle, htake, Utf8.decodeChars?_of_encoded henc.symm, Nat.add_sub_cancel,
        List.length_cons, Nat.add_comm bs.length 1]

theorem readChar_nil (hc : s.heap.stream? v = some (.buffer i r)) (ho : r.isOpen = true)
    (hu : s.heap.unread r = []) : readChar v s = .ok none s := by
  rw [readChar, act_bind, readByte_nil hc ho hu]
  rfl

/-- Where no character comes next, one to four bytes are passed. -/
theorem readChar_illFormed (hc : s.heap.stream? v = some (.buffer i r)) (ho : r.isOpen = true)
    (hne : s.heap.unread r ≠ [])
    (hnone : ∀ c tail, s.heap.unread r ≠ String.utf8EncodeChar c ++ tail) :
    ∃ fault n, readChar v s = .error (.error (.io fault)) (s.skipped i r n) ∧ 1 ≤ n ∧ n ≤ 4 ∧
      n ≤ (s.heap.unread r).length := by
  cases hu : s.heap.unread r with
  | nil => exact absurd hu hne
  | cons b bs =>
      rw [readChar_cons hc ho hu, List.length_cons]
      cases hwidth : charWidth? b with
      | none => exact ⟨_, 1, rfl, Nat.le_refl 1, by decide, Nat.le_add_left 1 _⟩
      | some width =>
          obtain ⟨hlow, hhigh⟩ := Utf8.charWidth?_le hwidth
          dsimp only
          by_cases hle : width - 1 ≤ bs.length
          · rw [if_pos hle]
            cases hcs : Utf8.decodeChars? [] (b :: bs.take (width - 1)) with
            | none => exact ⟨_, _, rfl, by omega, by omega, by omega⟩
            | some cs =>
                obtain ⟨c, rest, hfront⟩ := Utf8.exists_of_decodeChars? hcs
                refine absurd ?_ (hnone c (rest ++ bs.drop (width - 1)))
                rw [hu, ← List.append_assoc, ← hfront, List.cons_append, List.take_append_drop]
          · rw [if_neg hle]
            exact ⟨_, _, rfl, by omega, by omega, by omega⟩

end Reading

/-! ## Texts -/

/-- Writes texts one after the other. -/
def writeTexts (stream : Value) : List String → Act Unit
  | [] => return ()
  | text :: texts => do
    writeText stream text
    writeTexts stream texts

/-- What so many characters read in turn are read as. -/
def readChars (stream : Value) : Nat → Act (List (Option Char))
  | 0 => return []
  | n + 1 => do
    let c? ← readChar stream
    return c? :: (← readChars stream n)

section Texts

variable {s s' : State} {v : Value} {i n : Nat} {r : StringStream} {cs : List Char}
  {bytes : List UInt8} {pos : Nat}

/-- The octets of characters are read as these characters, and what is behind them as none. -/
theorem readChars_octets (hc : s.heap.stream? v = some (.buffer i r)) (ho : r.isOpen = true)
    (hu : s.heap.unread r = Utf8.octets cs) (n : Nat) :
    readChars v (cs.length + n) s
      = .ok (cs.map some ++ List.replicate n none) (s.skipped i r (Utf8.octets cs).length) := by
  induction cs generalizing s r with
  | nil =>
      have hnone : readChar v s = .ok none s := readChar_nil hc ho hu
      rw [List.length_nil, Nat.zero_add]
      change readChars v n s = .ok (List.replicate n none) (s.skipped i r 0)
      rw [State.skipped_zero hc]
      induction n with
      | zero => rfl
      | succ n ih =>
          rw [readChars, act_bind, hnone]
          change (readChars v n >>= fun cs => pure (none :: cs)) s = _
          rw [act_bind, ih]
          rfl
  | cons c cs ih =>
      have hu' : s.heap.unread r = String.utf8EncodeChar c ++ Utf8.octets cs := hu
      have hrest := ih (State.stream?_skipped hc (String.utf8EncodeChar c).length) ho (by
        rw [Heap.unread_skipped, hu', List.drop_left])
      rw [State.skipped_skipped] at hrest
      rw [List.length_cons, Nat.succ_add, readChars, act_bind, readChar_encoded hc ho hu']
      change (readChars v (cs.length + n) >>= fun cs => pure (some c :: cs)) _ = _
      rw [act_bind, hrest]
      change _ = EStateM.Result.ok _ (s.skipped i r (String.utf8EncodeChar c ++ Utf8.octets cs).length)
      rw [List.length_append]
      rfl

/-- Texts written one after the other are appended. -/
theorem buffers_of_writeTexts {texts : List String} (hs : s.InOrder)
    (hb : s.heap.Buffers v bytes pos true) (hv : s.heap.Reaches s.rootValues v)
    (h : writeTexts v texts s = .ok () s') :
    s'.heap.Buffers v (bytes ++ Utf8.octets (texts.flatMap String.toList)) pos true := by
  induction texts generalizing s bytes with
  | nil =>
      cases h
      simpa [Utf8.octets] using hb
  | cons text texts ih =>
      obtain ⟨⟨⟩, s₁, hwrite, h⟩ := exists_of_bind_eq_ok h
      obtain ⟨hspares, hb₁⟩ := (gives_writeBytes (E := fun _ => False) hs hb hv _).of_ok hwrite
      have hnew : text.toUTF8.data.toList = Utf8.octets text.toList := by
        rw [← Utf8.encode_eq_octets, Utf8.encode, Utf8.toList_eq_data]
      rw [hnew] at hb₁
      have hrest := ih hspares.order hb₁ (hspares.reaches (hb.references_eq_nil hs.isFree_zero) hv) h
      rw [List.flatMap_cons, Utf8.octets_append, ← List.append_assoc]
      exact hrest

/-- Of an open stream over a buffer, the character is read whose octets come next, and no bytes but
these are passed; at the end none is read; and anything else is an error, at least one and at most
four bytes being passed.  So texts that are written to a stream that has been read to its end are
read as their characters, in this order, and then as none, however often. -/
theorem readChar_decodes (hc : s.heap.stream? v = some (.buffer i r)) (ho : r.isOpen = true) :
    (∀ c tail, s.heap.unread r = String.utf8EncodeChar c ++ tail →
      readChar v s = .ok (some c) (s.skipped i r (String.utf8EncodeChar c).length)) ∧
    (s.heap.unread r = [] → readChar v s = .ok none s) ∧
    (s.heap.unread r ≠ [] → (∀ c tail, s.heap.unread r ≠ String.utf8EncodeChar c ++ tail) →
      ∃ fault n, readChar v s = .error (.error (.io fault)) (s.skipped i r n) ∧ 1 ≤ n ∧ n ≤ 4 ∧
        n ≤ (s.heap.unread r).length) ∧
    (s.InOrder → s.heap.Reaches s.rootValues v → s.heap.Buffers v bytes bytes.length true →
      ∀ texts s', writeTexts v texts s = .ok () s' → ∀ n, ∃ s'',
        readChars v ((texts.flatMap String.toList).length + n) s'
          = .ok ((texts.flatMap String.toList).map some ++ List.replicate n none) s'') := by
  refine ⟨fun c tail => readChar_encoded hc ho, readChar_nil hc ho, readChar_illFormed hc ho, ?_⟩
  intro hs hv hb texts s' hwrite n
  obtain ⟨i', r', -, -, hc', hpos, ho', hp⟩ := (buffers_of_writeTexts hs hb hv hwrite).stream?
  have hu : s'.heap.unread r' = Utf8.octets (texts.flatMap String.toList) := by
    rw [Heap.unread, Heap.buffered, hp, hpos]
    simp [Payload.octets]
  exact ⟨_, readChars_octets hc' ho' hu n⟩

end Texts

/-! ### Three characters of different widths -/

/-- Writes two texts to a new stream. -/
def writeThree : Act Value := do
  let v ← openBuffer
  writeTexts v ["é", "€😀"]
  return v

theorem exists_writeThree : ∃ v s, writeThree (.initial .sparse .empty) = .ok v s := by
  have hok : (match writeThree (.initial .sparse .empty) with
      | .ok _ _ => true
      | .error _ _ => false) = true := by decide +kernel
  cases h : writeThree (.initial .sparse .empty) with
  | ok v s => exact ⟨v, s, rfl⟩
  | error c s =>
      rw [h] at hok
      cases hok

/-- The characters come back one at a time, and then none. -/
theorem readChar_decodes_three : ∃ v s i r, s.heap.stream? v = some (.buffer i r) ∧
    r.isOpen = true ∧ s.InOrder ∧ s.heap.Reaches s.rootValues v ∧ s.heap.Buffers v [] 0 true ∧
    readChar v s = .ok none s ∧ ∃ s' s'', writeTexts v ["é", "€😀"] s = .ok () s' ∧
      readChars v 4 s' = .ok [some 'é', some '€', some '😀', none] s'' := by
  obtain ⟨v, s', h⟩ := exists_writeThree
  obtain ⟨v, s, hopen, h⟩ := exists_of_bind_eq_ok h
  obtain ⟨⟨⟩, s', hwrite, h⟩ := exists_of_bind_eq_ok h
  cases h
  have hq := (History.of_openBuffer (State.tabled_initial .sparse .empty).order hopen).queued
  have hb : s.heap.Buffers v [] 0 true := hq.stored
  obtain ⟨i, r, -, -, hc, hpos, ho, hp⟩ := hb.stream?
  obtain ⟨-, hnone, -, htexts⟩ := readChar_decodes  hc ho
  have hu : s.heap.unread r = [] := by
    rw [Heap.unread, Heap.buffered, hp]
    exact List.drop_nil
  obtain ⟨s'', hread⟩ := htexts hq.order hq.reaches hb _ s' hwrite 1
  exact ⟨v, s, i, r, hc, ho, hq.order, hq.reaches, hb, hnone hu, s', s'', hwrite, hread⟩

end CellLisp
