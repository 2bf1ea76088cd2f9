import CellLisp.Proofs.Heap.FirstFit
import CellLisp.Proofs.State.Exhaustion

/-!
# `CellLisp.Proofs.State.Vacancy` — blocks run out although there is room

Bytes are `Vacant` when no cell in use has them in its block.  A collection joins free blocks that
are neighbours, so vacant bytes below the words in use are inside one free block; and the bytes
above are in none, since a collection never lowers where they begin.  A claim looks at the one or
the other:

| vacant bytes | |
| :-- | :-- |
| below the top | inside a free block, which is found (`Arena.Tiled.fits_of_clear`) |
| above it | found by extending what is in use |
| on both sides | not found: the free block that ends at the top and the room behind it stay apart |

So a request fails just in case all the vacant bytes that it could have had lie on both sides
(`State.Reached.allocBlock_exhausted_iff`), and it does fail in an arena that holds nothing at all
(`State.exists_exhausted_vacant`).
-/

namespace CellLisp

/-- Bytes of the arena from `start` on, `n` of them, that no block of a cell in use has. -/
structure Heap.Vacant (h : Heap) (start n : Nat) : Prop where
  le_limit : start + n ≤ 8 * h.arena.limit
  clear : ∀ i b, (h.cell i).block? = some b →
    start + n ≤ 8 * b.offset ∨ 8 * b.offset + 8 + h.arena.capacity b ≤ start

/-! ## Vacant words below the top -/

namespace Arena

variable {a : Arena} {slots : Array Slot} {offset q bytes : Nat}

/-- Every word in use belongs to a block. -/
theorem Tiled.exists_tile (ht : Tiled slots offset) (hle : offset ≤ q) (hlt : q < slots.size) :
    ∃ o r, slots[o]? = some (.header r) ∧ o ≤ q ∧ q < o + 1 + r.words := by
  induction ht with
  | done hend => omega
  | @block offset r hr hw hin ht ih =>
      rcases Nat.lt_or_ge q (offset + 1 + r.words) with hinside | hbehind
      · exact ⟨offset, r, hr, hle, hinside⟩
      · exact ih hbehind

/-- Words that no block in use has, all below the top, are those of one free block: the next block
behind a free one is in use. -/
theorem Tiled.fits_of_clear (ht : Tiled a.slots 0) (ha : Apart a.slots 0)
    (hend : q + 1 + wordsFor bytes ≤ a.top)
    (hclear : ∀ o r, a.record? o = some r → r.used = true →
      q + 1 + wordsFor bytes ≤ o ∨ o + 1 + r.words ≤ q) : ∃ o, a.Fits bytes o := by
  have hsize : a.top = a.slots.size := rfl
  obtain ⟨o, r, hr, hle, hlt⟩ := ht.exists_tile (Nat.zero_le q) (by omega)
  have hfree : r.used = false := by
    refine Bool.eq_false_iff.2 fun hused => ?_
    have := hclear o r (record?_eq_some_iff.2 hr) hused
    omega
  refine ⟨o, fits_iff.2 ⟨r, record?_eq_some_iff.2 hr, hfree, ?_⟩⟩
  refine Nat.le_of_not_lt fun hsmall => ?_
  obtain ⟨-, -, hnext⟩ := (ht.at hr (Nat.zero_le _)).header hr
  cases hnext with
  | done hstop => omega
  | @block _ r' hr' hw' _ _ =>
      have hused := (ha o r r' (Nat.zero_le _) hr hr').resolve_left (by simp [hfree])
      have := hclear _ r' (record?_eq_some_iff.2 hr') hused
      omega

end Arena

/-! ## Behind a collection -/

namespace Heap

section Collected

variable {h : Heap} {rs : List Value} {bytes start : Nat}

/-- A collection does not give back words in use. -/
theorem top_collect (hw : h.WellFormed) (pending : Option Cell) :
    (h.collect rs pending).1.arena.top = h.arena.top := by
  have hslots := congrArg (fun p : Heap => p.arena.slots.size) (plain_marking h rs pending)
  simp only [plain, Array.size_map] at hslots
  exact (released_collect hw).size.trans hslots

/-- No two neighbours are free. -/
theorem settled_collect (hw : h.WellFormed) (pending : Option Cell) :
    (h.collect rs pending).1.Settled := by
  rw [Settled, arena_collect]
  refine Arena.apart_releaseFrom (hw.tiled.of_unmark ?_) (by simp)
  exact congrArg (fun p : Heap => p.arena.slots) (plain_marking h rs pending)

/-- The blocks in use are those of the cells in use. -/
theorem Collected.claims_iff {h' : Heap} (hc : h.Collected h' rs none) {b : Block} :
    h'.Claims b ↔ ∃ i, (h'.cell i).block? = some b := by
  rw [hc.claimed]
  constructor
  · rintro (⟨i, hi, hb⟩ | ⟨c, hnone, -⟩)
    · exact ⟨i, by rw [hc.cell i hi]; exact hb⟩
    · cases hnone
  · rintro ⟨i, hb⟩
    have hi := (hc.inUse i).1 (Cell.isFree_eq_false_of_block? hb)
    exact .inl ⟨i, hi, by rw [← hc.cell i hi]; exact hb⟩

theorem capacity_of_record? {a : Arena} {b : Block} {r : BlockRecord}
    (hr : a.record? b.offset = some r) : a.capacity b = 8 * r.words := by
  simp only [Arena.capacity, hr]

/-- Bytes are vacant just in case no block in use has them. -/
theorem Collected.vacant_iff {h' : Heap} (hc : h.Collected h' rs none) {n : Nat} :
    h'.Vacant start n ↔ start + n ≤ 8 * h'.arena.limit ∧
      ∀ o r, h'.arena.record? o = some r → r.used = true →
        start + n ≤ 8 * o ∨ 8 * o + 8 + 8 * r.words ≤ start := by
  constructor
  · rintro ⟨hlimit, hclear⟩
    refine ⟨hlimit, fun o r hr hu => ?_⟩
    obtain ⟨i, hb⟩ := hc.claims_iff.1 (⟨r, hr, hu⟩ : h'.Claims ⟨o⟩)
    rw [← capacity_of_record? (b := ⟨o⟩) hr]
    exact hclear i ⟨o⟩ hb
  · rintro ⟨hlimit, hclear⟩
    refine ⟨hlimit, fun i b hb => ?_⟩
    obtain ⟨r, hr, hu⟩ := hc.claims_iff.2 ⟨i, hb⟩
    rw [capacity_of_record? hr]
    exact hclear b.offset r hr hu

/-- A claim succeeds just in case there are vacant bytes for it on one side of the top. -/
theorem Collected.isSome_claim_iff {h' : Heap} (hc : h.Collected h' rs none) (hw : h'.WellFormed)
    (hsettled : h'.Settled) : (h'.claim bytes).1.isSome = true ↔
      ∃ start, h'.Vacant start (8 + Arena.rounded bytes) ∧
        (start + (8 + Arena.rounded bytes) ≤ 8 * h'.arena.top ∨ 8 * h'.arena.top ≤ start) := by
  have hsize : h'.arena.top = h'.arena.slots.size := rfl
  refine (Arena.isSome_claim hw.tiled).trans ⟨?_, ?_⟩
  · have htop := hw.top_le
    rintro (⟨o, r, hr, hfree, hneed⟩ | habove)
    · have hslot := Arena.record?_eq_some_iff.1 hr
      have hend := hw.tiled.words_le hslot (Nat.zero_le _)
      refine ⟨8 * o, hc.vacant_iff.2 ⟨by omega, fun o' r' hr' hu => ?_⟩, .inl (by omega)⟩
      have hne : o ≠ o' := by
        rintro rfl
        rw [hr] at hr'
        cases hr'
        rw [hfree] at hu
        cases hu
      rcases hw.tiled.apart hslot (Arena.record?_eq_some_iff.1 hr') hne with hlt | hlt
      · exact .inl (by omega)
      · exact .inr (by omega)
    · refine ⟨8 * h'.arena.top, hc.vacant_iff.2 ⟨?_, fun o r hr hu => .inr ?_⟩, .inr (Nat.le_refl _)⟩
      · unfold Arena.RoomAbove at habove
        omega
      · have := hw.tiled.words_le (Arena.record?_eq_some_iff.1 hr) (Nat.zero_le _)
        omega
  · rintro ⟨start, hv, hbelow | habove⟩
    · obtain ⟨-, hclear⟩ := hc.vacant_iff.1 hv
      rw [Arena.rounded_eq] at hbelow hclear
      -- The words from the one that the first byte is in on are vacant too.
      refine .inl (hw.tiled.fits_of_clear (q := start / 8) hsettled (by omega) fun o r hr hu => ?_)
      have := hclear o r hr hu
      omega
    · refine .inr ?_
      have := hv.le_limit
      unfold Arena.RoomAbove
      omega

/-- What fits before a collection fits behind it. -/
theorem Collected.isSome_claim {h' : Heap} (hc : h.Collected h' rs none) (hw : h.WellFormed)
    (hw' : h'.WellFormed) (hsettled : h'.Settled) (htop : h'.arena.top = h.arena.top) (hsome : (h.claim bytes).1.isSome = true) :
    (h'.claim bytes).1.isSome = true := by
  refine (Arena.isSome_claim hw'.tiled).2 ?_
  rcases (Arena.isSome_claim hw.tiled).1 hsome with ⟨o, ho⟩ | habove
  · obtain ⟨r, hr, hfree, hneed⟩ := Arena.fits_iff.1 ho
    have hslot := Arena.record?_eq_some_iff.1 hr
    have hend : o + 1 + r.words ≤ h.arena.top := hw.tiled.words_le hslot (Nat.zero_le _)
    refine .inl (hw'.tiled.fits_of_clear (q := o) hsettled (by omega) fun o' r' hr' hu => ?_)
    -- A block in use behind the collection was one before, where the free block was.
    have hheld := (hc.claimed ⟨o'⟩).1 ⟨r', hr', hu⟩
    have hsame : h.arena.record? o' = some r' := (hc.block ⟨o'⟩ hheld).symm.trans hr'
    have hne : o ≠ o' := by
      rintro rfl
      rw [hr] at hsame
      cases hsame
      rw [hfree] at hu
      cases hu
    have := hw.tiled.apart hslot (Arena.record?_eq_some_iff.1 hsame) hne
    omega
  · refine .inr ?_
    unfold Arena.RoomAbove at habove ⊢
    rw [htop, hc.limit]
    exact habove

end Collected
end Heap

/-! ## The request -/

namespace State

variable {config : Config} {world : World} {s : State} {bytes : Nat}

theorem claimBlock_eq (bytes : Nat) (s : State) : claimBlock bytes s =
    .ok (s.heap.claim bytes).1 { s with heap := (s.heap.claim bytes).2 } := rfl

/-- The first try of a request is all, if it finds a block. -/
theorem allocBlock_of_some {b : Block} (h : (s.heap.claim bytes).1 = some b) :
    allocBlock bytes s = .ok b { s with heap := (s.heap.claim bytes).2 } := by
  unfold allocBlock
  rw [act_bind, claimBlock_eq, h]
  rfl

/-- Otherwise it is made once more behind a collection. -/
theorem allocBlock_of_none (h : (s.heap.claim bytes).1 = none) : allocBlock bytes s =
    match ((s.collect none).heap.claim bytes).1 with
    | some b => .ok b { s.collect none with heap := ((s.collect none).heap.claim bytes).2 }
    | none => exhausted "payload heap" .payloadExhausted
        { s.collect none with heap := ((s.collect none).heap.claim bytes).2 } := by
  have hsame : { s with heap := (s.heap.claim bytes).2 } = s := by
    have hclaim : s.heap.arena.claim bytes = (none, (s.heap.claim bytes).2.arena) := Prod.ext h rfl
    have harena := Arena.eq_of_claim_none hclaim
    exact congrArg (fun a => { s with heap := { s.heap with arena := a } }) harena
  unfold allocBlock
  rw [act_bind, claimBlock_eq, h, hsame]
  show (CellLisp.collect >>= fun _ => _) s = _
  rw [act_bind]
  show (claimBlock bytes >>= fun _ => _) (s.collect none) = _
  rw [act_bind, claimBlock_eq]
  cases ((s.collect none).heap.claim bytes).1 <;> rfl

/-- A request stops with no room exactly if no block fits behind the collection. -/
theorem allocBlock_error_iff (hs : s.WellFormed none) :
    (∃ s', allocBlock bytes s = .error (.fatal .payloadExhausted) s') ↔
      ((s.collect none).heap.claim bytes).1 = none := by
  obtain ⟨hc, hw, -⟩ := collect_exact hs
  have hsettled : (s.collect none).heap.Settled := Heap.settled_collect hs.heap none
  have htop : (s.collect none).heap.arena.top = s.heap.arena.top := Heap.top_collect hs.heap none
  cases hfirst : (s.heap.claim bytes).1 with
  | some b =>
      have hsome : (s.heap.claim bytes).1.isSome = true := by rw [hfirst]; rfl
      have hafter := hc.isSome_claim hs.heap hw.heap hsettled htop hsome
      rw [allocBlock_of_some hfirst]
      constructor
      · rintro ⟨s', h⟩
        cases h
      · intro hnone
        rw [hnone] at hafter
        cases hafter
  | none =>
      rw [allocBlock_of_none hfirst]
      cases ((s.collect none).heap.claim bytes).1 with
      | some b =>
          constructor
          · rintro ⟨s', h⟩
            cases h
          · intro hnone
            cases hnone
      | none => exact ⟨fun _ => rfl, fun _ => ⟨_, rfl⟩⟩

/-- In terms of the bytes that no cell in use has in its block. -/
theorem allocBlock_error_iff_vacant (hs : s.WellFormed none) :
    (∃ s', allocBlock bytes s = .error (.fatal .payloadExhausted) s') ↔
      ∀ start, (s.collect none).heap.Vacant start (8 + Arena.rounded bytes) →
        start < 8 * (s.collect none).heap.arena.top ∧
          8 * (s.collect none).heap.arena.top < start + (8 + Arena.rounded bytes) := by
  obtain ⟨hc, hw, -⟩ := collect_exact hs
  have hclaim : ((s.collect none).heap.claim bytes).1.isSome = true ↔ _ :=
    hc.isSome_claim_iff hw.heap (Heap.settled_collect hs.heap none)
  rw [allocBlock_error_iff hs, ← Option.not_isSome_iff_eq_none, hclaim]
  constructor
  · intro hnone start hv
    refine ⟨Nat.lt_of_not_le fun h => hnone ⟨start, hv, .inr h⟩,
      Nat.lt_of_not_le fun h => hnone ⟨start, hv, .inl h⟩⟩
  · rintro hboth ⟨start, hv, hside⟩
    have := hboth start hv
    omega

end State

/-- In every state of a run a request for a block fails exactly if, behind the collection it makes,
all vacant bytes that are enough for a header and the rounded request lie on both sides of the place
where the bytes in use end.  Otherwise it gives out a block. -/
theorem State.Reached.allocBlock_exhausted_iff {config : Config} {world : World} {s : State}
    (hs : Reached config world s) (bytes : Nat) :
    ((∃ s', allocBlock bytes s = .error (.fatal .payloadExhausted) s') ↔
      ∀ start, (s.collect none).heap.Vacant start (8 + Arena.rounded bytes) →
        start < 8 * (s.collect none).heap.arena.top ∧
          8 * (s.collect none).heap.arena.top < start + (8 + Arena.rounded bytes)) ∧
    ((∃ s', allocBlock bytes s = .error (.fatal .payloadExhausted) s') ∨
      ∃ b s', allocBlock bytes s = .ok b s') := by
  refine ⟨allocBlock_error_iff_vacant hs.wellFormed, ?_⟩
  cases hfirst : (s.heap.claim bytes).1 with
  | some b => exact .inr ⟨b, _, allocBlock_of_some hfirst⟩
  | none =>
      rw [allocBlock_of_none hfirst]
      cases ((s.collect none).heap.claim bytes).1 with
      | some b => exact .inr ⟨b, _, rfl⟩
      | none => exact .inl ⟨_, rfl⟩

/-! ### An arena of eight words that holds nothing -/

/-- Eight words for blocks. -/
def Config.snug : Config := { cells := 2, payloadBytes := 64 }

/-- Five of them were claimed and vacated. -/
def State.vacated : State :=
  { State.initial .snug .empty with heap := ((State.initial .snug .empty).heap.claim 40).2 }

theorem State.reached_vacated : Reached .snug .empty vacated := .change .initial (.claim 40)

/-- Roots that refer to nothing lead nowhere. -/
theorem Heap.not_reachable {h : Heap} {rs : List Value} (hnone : ∀ v ∈ rs, v.cell? = none)
    (i : Nat) : ¬h.Reachable rs i := by
  intro hr
  induction hr with
  | root hv hi =>
      rw [hnone _ hv] at hi
      cases hi
  | step _ _ _ ih => exact ih

/-- No cell is in use behind a collection. -/
theorem State.isFree_collect_vacated (i : Nat) :
    ((vacated.collect none).heap.cell i).isFree = true := by
  obtain ⟨hc, -⟩ := collect_exact reached_vacated.wellFormed
  have hnone : ∀ v ∈ vacated.rootValues, v.cell? = none :=
    fun _ hv => @cell?_of_mem_rootValues_initial .snug .empty _ hv
  refine Bool.of_not_eq_false fun hi => ?_
  exact Heap.not_reachable hnone i ((hc.inUse i).1 hi)

theorem State.top_collect_vacated : (vacated.collect none).heap.arena.top = 6 := by
  refine (Heap.top_collect reached_vacated.wellFormed.heap none).trans ?_
  simp [vacated, State.initial, Config.snug, Heap.new, Arena.new, Heap.claim, Arena.claim,
    Arena.firstFit?, Arena.wordsFor, Arena.top, Arena.extend]

theorem State.limit_collect_vacated : (vacated.collect none).heap.arena.limit = 8 := by
  obtain ⟨hc, -⟩ := collect_exact reached_vacated.wellFormed
  refine hc.limit.trans ?_
  simp [vacated, State.initial, Config.snug, Heap.new, Arena.new, Heap.claim, Arena.claim,
    Arena.firstFit?, Arena.wordsFor, Arena.top, Arena.extend]

theorem State.vacant_vacated {n : Nat} (hn : n ≤ 64) :
    (vacated.collect none).heap.Vacant 0 n := by
  refine ⟨by rw [limit_collect_vacated]; omega, fun i b hb => ?_⟩
  have hi := Cell.isFree_eq_false_of_block? hb
  rw [isFree_collect_vacated] at hi
  cases hi

/-- All eight words are vacant, and the only eight in a row lie on both sides of the sixth. -/
theorem State.start_eq_of_vacant_vacated {start : Nat}
    (hv : (vacated.collect none).heap.Vacant start (8 + Arena.rounded 56)) : start = 0 := by
  have hlimit := hv.le_limit
  have hround : Arena.rounded 56 = 56 := rfl
  rw [limit_collect_vacated] at hlimit
  omega

/-- A request for seven words fails behind a collection that finds no cell in use, with all the
words of the arena vacant. -/
theorem State.exists_exhausted_vacant : ∃ s bytes s', Reached .snug .empty s ∧
    allocBlock bytes s = .error (.fatal .payloadExhausted) s' ∧
    (∀ i, ((s.collect none).heap.cell i).isFree = true) ∧
    (s.collect none).heap.Vacant 0 (8 + Arena.rounded bytes) := by
  have hfails : ∃ s', allocBlock 56 vacated = .error (.fatal .payloadExhausted) s' := by
    refine (allocBlock_error_iff_vacant reached_vacated.wellFormed).2 fun start hv => ?_
    rw [start_eq_of_vacant_vacated hv, top_collect_vacated]
    decide
  obtain ⟨s', h⟩ := hfails
  exact ⟨vacated, 56, s', reached_vacated, h, isFree_collect_vacated, vacant_vacated (by decide)⟩

/-- Seven words are not to be had, one is. -/
theorem State.Reached.allocBlock_exhausted_vacated : Reached .snug .empty vacated ∧
    (∃ s', allocBlock 56 vacated = .error (.fatal .payloadExhausted) s') ∧
    ∃ b s', allocBlock 8 vacated = .ok b s' := by
  refine ⟨reached_vacated, ?_, ?_⟩
  · refine (reached_vacated.allocBlock_exhausted_iff 56).1.2 fun start hv => ?_
    rw [start_eq_of_vacant_vacated hv, top_collect_vacated]
    decide
  · refine (reached_vacated.allocBlock_exhausted_iff 8).2.resolve_left fun hfails => ?_
    have hboth := (reached_vacated.allocBlock_exhausted_iff 8).1.1 hfails 0 (vacant_vacated (by decide))
    rw [top_collect_vacated] at hboth
    revert hboth
    decide

end CellLisp
