import CellLisp.Proofs.State.Buffer
import CellLisp.Proofs.State.Interning

/-!
# `CellLisp.Proofs.State.Queue` — a stream over a buffer is a queue

A stream is made and led to from then on.  Bytes are written to it and read from it, strings are
made of it, it is closed, and what is refused it is tried again; beside that bytes are written to
other streams, the heap is collected, cells and blocks are allocated and changed in place, and the
roots change, all in any order.  A `History` is what was done, the newest first.

    written    the bytes of all that was written, oldest first
    taken      the bytes that were read, oldest first

`Queued` says that the stream holds the first and has passed as many of them as there are in the
second.  Every use keeps it.
-/

namespace CellLisp

/-! ## What is done -/

/-- Something done with a stream, or beside it. -/
inductive Use where
  | wrote (bytes : Array UInt8)
  | read (b? : Option UInt8)
  /-- A string of the whole stream was made. -/
  | copied (text : Value)
  | closed
  /-- A read or a write failed. -/
  | refused (cause : Error)
  /-- Bytes were written to another stream. -/
  | wroteElsewhere (u : Value) (bytes : Array UInt8)
  | collected
  /-- A cell was placed. -/
  | placed (c : Cell) (u : Value)
  /-- A block was claimed and filled. -/
  | filled (bytes : Nat) (p : Payload) (b : Block)
  /-- Another cell got other contents. -/
  | altered (j : Nat) (c : Cell)
  /-- Another block got other contents. -/
  | rewritten (b : Block)
  /-- Anything else but the heap became other. -/
  | rearranged

/-- A use of a stream takes one state to another. -/
inductive Use.Takes (v : Value) (s : State) : Use → State → Prop
  | wrote {bytes : Array UInt8} {s' : State} : writeBytes v bytes s = .ok () s' →
      Takes v s (wrote bytes) s'
  | read {b? : Option UInt8} {s' : State} : readByte v s = .ok b? s' → Takes v s (read b?) s'
  | copied {u : Value} {s' : State} : streamString v s = .ok u s' → Takes v s (copied u) s'
  | closed {s' : State} : closeStream v s = .ok () s' → Takes v s closed s'
  | refusedRead {cause : Error} {s' : State} : readByte v s = .error (.error cause) s' →
      Takes v s (refused cause) s'
  | refusedWrite {bytes : Array UInt8} {cause : Error} {s' : State} :
      writeBytes v bytes s = .error (.error cause) s' → Takes v s (refused cause) s'
  | wroteElsewhere {u : Value} {held : List UInt8} {pos : Nat} {bytes : Array UInt8} {s' : State} :
      u ≠ v → s.heap.Reaches s.rootValues u → s.heap.Buffers u held pos true →
      writeBytes u bytes s = .ok () s' → Takes v s (wroteElsewhere u bytes) s'
  | collected : Takes v s collected (s.collect none)
  | placed {c : Cell} {u : Value} {s' : State} : s.heap.Placeable c → allocCell c s = .ok u s' →
      Takes v s (placed c u) s'
  | filled {bytes : Nat} {p : Payload} {b : Block} {s' : State} : p.size ≤ bytes →
      (∀ u ∈ p.references, u ∈ s.rootValues) → allocPayload bytes p s = .ok b s' →
      Takes v s (filled bytes p b) s'
  | altered {j : Nat} {c : Cell} : v.cell? ≠ some j →
      State.InOrder { s with heap := s.heap.set j c } →
      Takes v s (altered j c) { s with heap := s.heap.set j c }
  | rewritten {b : Block} {f : Payload → Payload} :
      (∀ i, v.cell? = some i → (s.heap.cell i).block? ≠ some b) →
      State.InOrder { s with heap := s.heap.modifyPayload b f } →
      Takes v s (rewritten b) { s with heap := s.heap.modifyPayload b f }
  | rearranged {s' : State} : s'.heap = s.heap → s'.InOrder → Takes v s rearranged s'

/-- What was done since a stream was made, all the time being led to. -/
inductive History (v : Value) : List Use → State → Prop
  | opened {s s₁ s₂ : State} : s.InOrder → makeStringStream s = .ok v s₁ → s₂.heap = s₁.heap →
      s₂.InOrder → s₂.heap.Reaches s₂.rootValues v → History v [] s₂
  | next {past : List Use} {e : Use} {s s' : State} : History v past s → e.Takes v s s' →
      s'.heap.Reaches s'.rootValues v → History v (e :: past) s'

/-- All bytes that were written, oldest first. -/
def written : List Use → List UInt8
  | [] => []
  | .wrote bytes :: past => written past ++ bytes.toList
  | _ :: past => written past

/-- All bytes that were read, oldest first. -/
def taken : List Use → List UInt8
  | [] => []
  | .read (some b) :: past => taken past ++ [b]
  | _ :: past => taken past

/-- Whether the stream was not closed. -/
def staysOpen : List Use → Bool
  | [] => true
  | .closed :: _ => false
  | _ :: past => staysOpen past

/-! ## What stays as it is -/

/-- A state that is in order, and a stream in it that holds what was written. -/
structure State.Queued (v : Value) (past : List Use) (s : State) : Prop where
  order : s.InOrder
  reaches : s.heap.Reaches s.rootValues v
  stored : s.heap.Buffers v (written past) (taken past).length (staysOpen past)
  taken : taken past <+: written past

section Queued

variable {s s' : State} {u v : Value} {past : List Use} {e : Use}

/-- The stream is as it was after something that is neither a write nor a byte that was read, nor
closes it. -/
theorem State.Queued.same (hq : s.Queued v past) (hs' : s'.InOrder)
    (hreach : s'.heap.Reaches s'.rootValues v)
    (hb : s'.heap.Buffers v (written past) (CellLisp.taken past).length (staysOpen past))
    (hwritten : written (e :: past) = written past)
    (htaken : CellLisp.taken (e :: past) = CellLisp.taken past)
    (hopen : staysOpen (e :: past) = staysOpen past) : s'.Queued v (e :: past) where
  order := hs'
  reaches := hreach
  stored := by
    rw [hwritten, htaken, hopen]
    exact hb
  taken := by
    rw [hwritten, htaken]
    exact hq.taken

theorem State.Queued.grows (hq : s.Queued v past) (h : s.Grows [] s') :
    s'.heap.Buffers v (written past) (CellLisp.taken past).length (staysOpen past) :=
  hq.stored.kept hq.order.isFree_zero (h.kept.mono (List.subset_append_left _ _)) hq.reaches

/-- Different streams are different cells. -/
theorem Heap.Buffers.cell?_ne {h : Heap} {held held' : List UInt8} {pos pos' : Nat}
    {isOpen isOpen' : Bool} (hz : (h.cell 0).isFree = true) (hu : h.Buffers u held pos isOpen)
    (hv : h.Buffers v held' pos' isOpen') (hne : u ≠ v) : u.cell? ≠ v.cell? := by
  obtain ⟨i, hi, rfl⟩ := hu.cell?_eq hz
  obtain ⟨j, hj, rfl⟩ := hv.cell?_eq hz
  rw [hi, hj]
  rintro ⟨⟩
  exact hne rfl

theorem prefix_concat_of_getElem? {xs ys : List UInt8} {b : UInt8} (h : xs <+: ys)
    (hb : ys[xs.length]? = some b) : xs ++ [b] <+: ys := by
  obtain ⟨zs, rfl⟩ := h
  rw [List.getElem?_append_right (Nat.le_refl _), Nat.sub_self] at hb
  obtain ⟨rest, rfl⟩ : ∃ rest, zs = b :: rest := by
    cases zs with
    | nil => cases hb
    | cons c rest => exact ⟨rest, by rw [Option.some.inj hb]⟩
  exact ⟨rest, by simp⟩

/-- What a read of the stream comes to. -/
theorem State.Queued.readByte_eq (hq : s.Queued v past) (ho : staysOpen past = true) :
    (readByte v s = .ok none s ∧ (written past)[(CellLisp.taken past).length]? = none) ∨
    ∃ b s', readByte v s = .ok (some b) s' ∧ (written past)[(CellLisp.taken past).length]? = some b ∧
      s.Sparing v s' ∧
      s'.heap.Buffers v (written past) ((CellLisp.taken past).length + 1) true := by
  obtain ⟨i, r, rfl, hcell, hc, hpos, hopen, hp⟩ := hq.stored.stream?
  rw [ho] at hopen
  have hread := CellLisp.readByte_eq hc hopen
  have hheld : (s.heap.buffered r)[r.pos]? = (written past)[(CellLisp.taken past).length]? := by
    rw [Heap.buffered, hp, hpos]
    exact List.getElem?_toArray
  rw [hheld] at hread
  cases hb : (written past)[(CellLisp.taken past).length]? with
  | none =>
      rw [hb] at hread
      exact .inl ⟨hread, rfl⟩
  | some b =>
      rw [hb] at hread
      refine .inr ⟨b, _, hread, rfl, hq.order.sparing_putBuffer hcell rfl, ?_⟩
      rw [← hpos, ← hopen]
      exact .putBuffer { r with pos := r.pos + 1 } hcell rfl hp

/-- A closed stream gives and takes nothing. -/
theorem State.Queued.refuses (hq : s.Queued v past) (ho : staysOpen past = false) :
    readByte v s = .error (.error .closedStream) s ∧
      ∀ bytes, writeBytes v bytes s = .error (.error .closedStream) s := by
  obtain ⟨i, r, -, -, hc, -, hopen, -⟩ := hq.stored.stream?
  rw [ho] at hopen
  exact ⟨readByte_closed hc hopen, writeBytes_closed hc hopen⟩

/-- An open stream takes all bytes. -/
theorem State.Queued.gives_writeBytes {E : Error → Prop} (hq : s.Queued v past)
    (ho : staysOpen past = true) (bytes : Array UInt8) :
    Gives E (writeBytes v bytes) s fun _ s' => s.Sparing v s' ∧
      s'.heap.Buffers v (written past ++ bytes.toList) (CellLisp.taken past).length true :=
  CellLisp.gives_writeBytes hq.order (ho ▸ hq.stored) hq.reaches bytes

/-- Any stream can be closed. -/
theorem State.Queued.closeStream_eq (hq : s.Queued v past) :
    ∃ s', closeStream v s = .ok () s' ∧ s.Sparing v s' ∧
      s'.heap.Buffers v (written past) (CellLisp.taken past).length false := by
  obtain ⟨i, r, rfl, hcell, hc, hpos, -, hp⟩ := hq.stored.stream?
  refine ⟨_, CellLisp.closeStream_eq hc, hq.order.sparing_putBuffer hcell rfl, ?_⟩
  rw [← hpos]
  exact .putBuffer { r with isOpen := false } hcell rfl hp

/-- One use. -/
theorem Use.Takes.queued (h : e.Takes v s s') (hq : s.Queued v past)
    (hreach : s'.heap.Reaches s'.rootValues v) : s'.Queued v (e :: past) := by
  have hs := hq.order
  cases h with
  | @wrote bytes _ h =>
      have ho : staysOpen past = true := by
        by_contra hclosed
        rw [(hq.refuses (Bool.eq_false_of_not_eq_true hclosed)).2] at h
        cases h
      obtain ⟨hspares, hb⟩ := (hq.gives_writeBytes (E := fun _ => False) ho bytes).of_ok h
      refine ⟨hspares.order, hreach, ?_, hq.taken.trans (List.prefix_append _ _)⟩
      rw [show staysOpen (Use.wrote bytes :: past) = true from ho]
      exact hb
  | @read b? _ h =>
      have ho : staysOpen past = true := by
        by_contra hclosed
        rw [(hq.refuses (Bool.eq_false_of_not_eq_true hclosed)).1] at h
        cases h
      rcases hq.readByte_eq ho with ⟨hnone, -⟩ | ⟨b, s₁, hsome, hb, hspares, hbuffers⟩
      · rw [hnone] at h
        cases h
        exact hq.same hs hreach hq.stored rfl rfl rfl
      · rw [hsome] at h
        cases h
        refine ⟨hspares.order, hreach, ?_, prefix_concat_of_getElem? hq.taken hb⟩
        rw [show staysOpen (Use.read (some b) :: past) = true from ho,
          show CellLisp.taken (Use.read (some b) :: past) = CellLisp.taken past ++ [b] from rfl,
          List.length_append]
        exact hbuffers
  | copied h =>
      have hgrows := ((gives_streamString (E := fun _ => False) hs hq.stored).of_ok h).1
      exact hq.same hgrows.order hreach (hq.grows hgrows) rfl rfl rfl
  | closed h =>
      obtain ⟨s₁, hclose, hspares, hb⟩ := hq.closeStream_eq
      rw [hclose] at h
      cases h
      exact ⟨hspares.order, hreach, hb, hq.taken⟩
  | refusedRead h =>
      cases ho : staysOpen past with
      | false =>
          rw [(hq.refuses ho).1] at h
          cases h
          exact hq.same hs hreach hq.stored rfl rfl rfl
      | true =>
          rcases hq.readByte_eq ho with ⟨hnone, -⟩ | ⟨b, s₁, hsome, -⟩
          · rw [hnone] at h
            cases h
          · rw [hsome] at h
            cases h
  | @refusedWrite bytes cause _ h =>
      cases ho : staysOpen past with
      | false =>
          rw [(hq.refuses ho).2] at h
          cases h
          exact hq.same hs hreach hq.stored rfl rfl rfl
      | true =>
          have hgives := hq.gives_writeBytes (E := fun _ => False) ho bytes
          unfold Gives at hgives
          rw [h] at hgives
          exact hgives.elim
  | wroteElsewhere hne hu hb h =>
      obtain ⟨hspares, -⟩ := (gives_writeBytes (E := fun _ => False) hs hb hu _).of_ok h
      refine hq.same hspares.order hreach ?_ rfl rfl rfl
      exact hq.stored.sparing hs hspares hq.reaches (hb.cell?_ne hs.isFree_zero hq.stored hne)
  | collected =>
      have hgrows : s.Grows [] (s.collect none) :=
        State.grows_collect hs (fun _ hc => by cases hc) fun _ hv => by cases hv
      exact hq.same hgrows.order hreach (hq.grows hgrows) rfl rfl rfl
  | placed hc h =>
      have hgrows := ((gives_allocCell (E := fun _ => False) hs hc).of_ok h).1.mono (List.nil_subset _)
      exact hq.same hgrows.order hreach (hq.grows hgrows) rfl rfl rfl
  | filled hsize hrefs h =>
      have hgrows := ((gives_allocPayload (E := fun _ => False) hs hsize hrefs).of_ok h).1
      exact hq.same hgrows.order hreach (hq.grows hgrows) rfl rfl rfl
  | altered hne hs' =>
      refine hq.same hs' hreach ?_ rfl rfl rfl
      refine hq.stored.congr hs.isFree_zero (fun i hi => ?_) fun _ _ _ _ => rfl
      refine s.heap.cell_set_of_ne ?_ _
      rintro rfl
      exact hne hi
  | @rewritten b f hne hs' =>
      refine hq.same hs' hreach ?_ rfl rfl rfl
      refine hq.stored.congr hs.isFree_zero (fun _ _ => rfl) fun i b' hi hb => ?_
      have hoffset : b'.offset ≠ b.offset := by
        intro heq
        obtain rfl : b' = b := congrArg Block.mk heq
        exact hne i hi hb
      refine (Arena.record?_modify _ _ _ _).trans ?_
      simp only [if_neg hoffset, Option.map_id']
  | rearranged hheap hs' =>
      refine hq.same hs' hreach ?_ rfl rfl rfl
      rw [hheap]
      exact hq.stored

/-- All uses. -/
theorem History.queued (h : History v past s) : s.Queued v past := by
  induction h with
  | @opened s s₁ s₂ hs hmake hheap hs₂ hreach =>
      obtain ⟨-, hb⟩ := (gives_makeStringStream (E := fun _ => False) hs).of_ok hmake
      refine ⟨hs₂, hreach, ?_, List.nil_prefix⟩
      rw [hheap]
      exact hb
  | next _ he hreach ih => exact he.queued ih hreach

/-- What a stream is to its users after all that was done with it. -/
structure State.Queues (v : Value) (past : List Use) (s : State) : Prop where
  /-- It holds all that was written and has passed as many bytes as were read. -/
  stored : s.heap.Buffers v (written past) (taken past).length (staysOpen past)
  /-- The bytes that were read are the first that were written, in the same order. -/
  first : taken past <+: written past
  /-- The next byte that is read is the next that was written. -/
  reads : staysOpen past = true →
    ∃ s', readByte v s = .ok (written past)[(taken past).length]? s' ∧ s.Sparing v s'
  /-- None is read exactly if all were. -/
  drained : staysOpen past = true → ((∃ s', readByte v s = .ok none s') ↔ taken past = written past)
  /-- Bytes are taken unless a store is full, and nothing else that the roots lead to changes. -/
  writes : staysOpen past = true → ∀ bytes, Gives (fun _ => False) (writeBytes v bytes) s fun _ s' =>
    s'.heap.Buffers v (written past ++ bytes.toList) (taken past).length true ∧ s.Sparing v s'
  /-- A string of all that was written can be made unless a store is full, whatever was read; it is
  a new one. -/
  copies : Gives (fun _ => False) (streamString v) s fun u s' =>
    s'.heap.text? u = some (Utf8.lossy (written past)) ∧ s.Grows [] s' ∧
      ∀ i, u.cell? = some i → ¬s.heap.Reachable s.rootValues i
  /-- Once closed it is refused, and nothing changes. -/
  refuses : staysOpen past = false → readByte v s = .error (.error .closedStream) s ∧
    ∀ bytes, writeBytes v bytes s = .error (.error .closedStream) s
  closes : ∃ s', closeStream v s = .ok () s' ∧ s.Sparing v s' ∧
    s'.heap.Buffers v (written past) (taken past).length false

/-- A stream over a buffer loses no byte and gives none twice, whatever is done beside it and
wherever the collections fall. -/
theorem History.queues (h : History v past s) : s.Queues v past := by
  have hq := h.queued
  refine
    { stored := hq.stored
      first := hq.taken
      reads := fun ho => ?_
      drained := fun ho => ?_
      writes := fun ho bytes => (hq.gives_writeBytes ho bytes).mono fun _ _ h => h.symm
      copies := ?_
      refuses := hq.refuses
      closes := hq.closeStream_eq }
  · rcases hq.readByte_eq ho with ⟨hread, hnone⟩ | ⟨b, s', hread, hsome, hspares, -⟩
    · rw [hnone]
      exact ⟨s, hread, (State.Grows.refl hq.order).sparing⟩
    · rw [hsome]
      exact ⟨s', hread, hspares⟩
  · have hiff : (written past)[(taken past).length]? = none ↔ taken past = written past := by
      rw [List.getElem?_eq_none_iff]
      exact ⟨hq.taken.eq_of_length_le, fun heq => Nat.le_of_eq (congrArg List.length heq.symm)⟩
    rw [← hiff]
    rcases hq.readByte_eq ho with ⟨hread, hnone⟩ | ⟨b, s', hread, hsome, -⟩
    · exact ⟨fun _ => hnone, fun _ => ⟨s, hread⟩⟩
    · rw [hsome, hread]
      exact ⟨fun ⟨_, h⟩ => (by cases h), nofun⟩
  · refine (gives_streamString hq.order hq.stored).mono ?_
    rintro u s' ⟨hgrows, htext, hfresh⟩
    exact ⟨htext, hgrows, hfresh⟩

end Queued

/-! ### A stream that grows -/

section Opening

variable {s s' : State} {v : Value} {past : List Use} {bytes : Array UInt8} {b? : Option UInt8}

/-- Makes a stream and protects it. -/
def openBuffer : Act Value := do
  let v ← makeStringStream
  let _ ← protect v
  return v

theorem History.of_openBuffer (hs : s.InOrder) (h : openBuffer s = .ok v s') :
    History v [] s' := by
  obtain ⟨v, s₁, hmake, h⟩ := exists_of_bind_eq_ok h
  obtain ⟨_, s₂, hprotect, h⟩ := exists_of_bind_eq_ok h
  cases h
  obtain ⟨hgrows, hb⟩ := (gives_makeStringStream (E := fun _ => False) hs).of_ok hmake
  obtain rfl := (gives_protect (E := fun _ => False)).of_ok hprotect
  obtain ⟨i, data, rfl, hc, -⟩ := hb
  refine .opened hs hmake rfl (hgrows.order.with_roots fun u hu => ?_) (Heap.reaches_of_mem ?_)
  · rcases Array.mem_push.1 hu with hu | rfl
    · exact hgrows.order.holds_root hu
    · rintro _ _ ⟨⟩ -
      rw [hc]
      exact ⟨rfl, rfl⟩
  · exact State.mem_rootValues_of_roots Array.mem_push_self

theorem History.wrote (h : History v past s) (hwrite : writeBytes v bytes s = .ok () s') :
    History v (.wrote bytes :: past) s' := by
  have hq := h.queued
  refine h.next (.wrote hwrite) ?_
  cases ho : staysOpen past with
  | false =>
      rw [(hq.refuses ho).2] at hwrite
      cases hwrite
  | true =>
      obtain ⟨hspares, -⟩ := (hq.gives_writeBytes (E := fun _ => False) ho bytes).of_ok hwrite
      exact hspares.reaches (hq.stored.references_eq_nil hq.order.isFree_zero) hq.reaches

theorem History.read (h : History v past s) (hread : readByte v s = .ok b? s') :
    History v (.read b? :: past) s' := by
  have hq := h.queued
  refine h.next (.read hread) ?_
  cases ho : staysOpen past with
  | false =>
      rw [(hq.refuses ho).1] at hread
      cases hread
  | true =>
      rcases hq.readByte_eq ho with ⟨hnone, -⟩ | ⟨b, s₁, hsome, -, hspares, -⟩
      · rw [hnone] at hread
        cases hread
        exact hq.reaches
      · rw [hsome] at hread
        cases hread
        exact hspares.reaches (hq.stored.references_eq_nil hq.order.isFree_zero) hq.reaches

/-- Writes more bytes to a new stream than it has room for, and reads one. -/
def outgrow : Act (Value × Option UInt8) := do
  let v ← openBuffer
  writeBytes v (Array.replicate 40 7)
  let b? ← readByte v
  return (v, b?)

theorem exists_outgrow : ∃ r s, outgrow (.initial .sparse .empty) = .ok r s := by
  have hok : (match outgrow (.initial .sparse .empty) with
      | .ok _ _ => true
      | .error _ _ => false) = true := by decide +kernel
  cases h : outgrow (.initial .sparse .empty) with
  | ok r s => exact ⟨r, s, rfl⟩
  | error c s =>
      rw [h] at hok
      cases hok

/-- All forty bytes are there, in a block that is not the first, and the byte that was read is the
first of them. -/
theorem History.queues_outgrow : ∃ v b s, History v [.read (some b), .wrote (Array.replicate 40 7)] s ∧
    s.Queues v [.read (some b), .wrote (Array.replicate 40 7)] ∧ b = 7 ∧
    s.heap.Buffers v (List.replicate 40 7) 1 true := by
  obtain ⟨⟨v, b?⟩, s, h⟩ := exists_outgrow
  obtain ⟨v, s₁, hopen, h⟩ := exists_of_bind_eq_ok h
  obtain ⟨⟨⟩, s₂, hwrite, h⟩ := exists_of_bind_eq_ok h
  obtain ⟨b?, s₃, hread, h⟩ := exists_of_bind_eq_ok h
  cases h
  have hstart := History.of_openBuffer (State.tabled_initial .sparse .empty).order hopen
  have hwritten := hstart.wrote hwrite
  have hb : b? = some 7 := by
    rcases hwritten.queued.readByte_eq rfl with ⟨-, hnone⟩ | ⟨b, s', hsome, hfirst, -⟩
    · cases hnone
    · rw [hsome] at hread
      cases hread
      exact hfirst.symm
  subst hb
  have hqueues := (hwritten.read hread).queues
  exact ⟨v, 7, s, hwritten.read hread, hqueues, rfl, hqueues.stored⟩

end Opening

end CellLisp
