import CellLisp.Proofs.Heap.Upkeep

/-!
# `CellLisp.Proofs.Heap.FirstFit` — a claim takes the lowest block that fits

`Claim` says that a claimed block belonged to nobody.  Here is which one it is, and when there is
none:

| | |
| :-- | :-- |
| `Fits` | a free block with room for the rounded request |
| `RoomAbove` | room for a header and the rounded request behind the last block |
| `FirstFit` | the lowest block that fits, else the place behind the last |
| `Granted` | what the heap is afterwards |

A block that is split gets its second header written inside what were its own words.  The headers
in front of it and behind it are other words, so the tiling before and after has the same offsets,
and the words of a block in use are read off a record that did not change (`word?_of_used`).
-/

namespace CellLisp

namespace Arena

/-- Bytes of a block for a request: at least eight, and a multiple of eight. -/
def rounded (bytes : Nat) : Nat := (max bytes 8 + 7) / 8 * 8

theorem rounded_eq (bytes : Nat) : rounded bytes = 8 * wordsFor bytes := by
  unfold rounded wordsFor
  omega

/-- A free block at an offset has room for a request. -/
def Fits (a : Arena) (bytes o : Nat) : Prop :=
  ∃ r, a.record? o = some r ∧ r.used = false ∧ rounded bytes ≤ 8 * r.words

/-- Behind the last block there is room for a header and a request. -/
def RoomAbove (a : Arena) (bytes : Nat) : Prop := 8 * a.top + 8 + rounded bytes ≤ 8 * a.limit

/-- Where a request goes: to the lowest free block with room, or behind the last block if no free
one has any. -/
inductive FirstFit (a : Arena) (bytes : Nat) : Nat → Prop
  | lowest {o : Nat} : a.Fits bytes o → (∀ o', a.Fits bytes o' → o ≤ o') → FirstFit a bytes o
  | behind : (∀ o, ¬a.Fits bytes o) → a.RoomAbove bytes → FirstFit a bytes a.top

/-! ## Tiles -/

section Tiles

variable {a : Arena} {slots : Array Slot} {offset o o' : Nat} {r r' : BlockRecord}

/-- Of two blocks one ends before the other begins. -/
theorem Tiled.apart (ht : Tiled slots 0) (hr : slots[o]? = some (.header r))
    (hr' : slots[o']? = some (.header r')) (hne : o ≠ o') :
    o + 1 + r.words ≤ o' ∨ o' + 1 + r'.words ≤ o := by
  have hbehind : ∀ {p q : Nat} {u v : BlockRecord}, slots[p]? = some (.header u) →
      slots[q]? = some (.header v) → p < q → p + 1 + u.words ≤ q := by
    intro p q u v hp hq hlt
    obtain ⟨-, hin, -⟩ := (ht.at hp (Nat.zero_le _)).header hp
    refine Nat.le_of_not_lt fun hinside => ?_
    rw [hin q hlt hinside] at hq
    cases hq
  rcases Nat.lt_or_gt_of_ne hne with hlt | hlt
  · exact .inl (hbehind hr hr' hlt)
  · exact .inr (hbehind hr' hr hlt)

/-- Headers and sizes of the blocks add up to the bytes in use. -/
theorem Tiled.sum_tilesFrom (ht : Tiled a.slots offset) :
    8 * offset + ((a.tilesFrom offset).map fun t => 8 + 8 * t.2.words).sum = 8 * a.top := by
  induction ht with
  | done hend =>
      rw [tilesFrom, dif_neg (by omega), hend]
      rfl
  | @block offset r hr hw hin ht ih =>
      have hlt : offset < a.slots.size := by
        have := ht.le_size
        omega
      have hslot : a.slots[offset] = .header r := by
        rw [Array.getElem?_eq_getElem hlt] at hr
        exact Option.some.inj hr
      rw [tilesFrom, dif_pos hlt, hslot]
      simp only [List.map_cons, List.sum_cons]
      omega

/-- A word inside a block belongs to the header in front of it. -/
theorem Tiled.blockAt? (ht : Tiled a.slots 0) (hr : a.record? o = some r) {k : Nat}
    (hk : k ≤ r.words) : a.blockAt? (o + k) = some (o, r) := by
  have hslot := record?_eq_some_iff.1 hr
  obtain ⟨-, hin, -⟩ := (ht.at hslot (Nat.zero_le _)).header hslot
  induction k with
  | zero =>
      cases o with
      | zero => simp [Arena.blockAt?, hr]
      | succ o => simp [Arena.blockAt?, hr]
  | succ k ih =>
      have hnone : a.record? (o + k + 1) = none := by
        unfold record?
        rw [hin (o + k + 1) (by omega) (by omega)]
      show a.blockAt? (o + k + 1) = _
      rw [Arena.blockAt?, hnone]
      exact ih (by omega)

/-- The words of a block in use: its header, then its contents with zeros behind. -/
theorem word?_of_used (ht : Tiled a.slots 0) (htop : a.top ≤ a.limit)
    (hr : a.record? o = some r) (hu : r.used = true) {k : Nat} (hk : k ≤ r.words) :
    a.word? (o + k) = some (if k = 0 then r.image else r.payload.image.getD (k - 1) 0) := by
  have hend := ht.words_le (record?_eq_some_iff.1 hr) (Nat.zero_le _)
  have htop' : o + k < a.top := by
    rw [top]
    omega
  rw [word?, if_neg (by omega), if_neg (by omega), ht.blockAt? hr hk]
  simp only [Option.map_some, hu, if_true]
  by_cases hzero : k = 0
  · rw [if_pos hzero, if_pos (by omega)]
  · rw [if_neg hzero, if_neg (by omega), show o + k - o - 1 = k - 1 by omega]

end Tiles

/-! ## The scan -/

section Scan

variable {a : Arena} {bytes need offset o : Nat} {r : BlockRecord}

/-- The scan stops at the latest where a free block is large enough. -/
theorem Tiled.exists_firstFit? (ht : Tiled a.slots offset) (hle : offset ≤ o)
    (hr : a.record? o = some r) (hfree : r.used = false) (hneed : need ≤ r.words) :
    ∃ p, a.firstFit? need offset = some p ∧ p ≤ o := by
  have hslot := record?_eq_some_iff.1 hr
  induction ht with
  | done hend =>
      rw [Array.getElem?_eq_none (by omega)] at hslot
      cases hslot
  | @block offset r' hr' hw hin ht ih =>
      have hlt : offset < a.slots.size := by
        have := ht.le_size
        omega
      have hget : a.slots[offset] = .header r' := by
        rw [Array.getElem?_eq_getElem hlt] at hr'
        exact Option.some.inj hr'
      rw [firstFit?, dif_pos hlt, hget]
      simp only
      by_cases hfits : (!r'.used && decide (need ≤ r'.words)) = true
      · rw [if_pos hfits]
        exact ⟨offset, rfl, hle⟩
      · rw [if_neg hfits]
        refine ih (Nat.le_of_not_lt fun hlt' => ?_)
        rcases Nat.eq_or_lt_of_le hle with rfl | hgt
        · obtain rfl : r' = r := by simpa [hr'] using hslot
          simp [hfree, hneed] at hfits
        · rw [hin o hgt hlt'] at hslot
          cases hslot

theorem fits_iff : a.Fits bytes o ↔
    ∃ r, a.record? o = some r ∧ r.used = false ∧ wordsFor bytes ≤ r.words := by
  simp only [Fits, rounded_eq, Nat.mul_le_mul_left_iff (show 0 < 8 by decide)]

/-- The scan finds the lowest block that fits. -/
theorem firstFit?_of_fits (ht : Tiled a.slots 0) (ho : a.Fits bytes o) :
    ∃ p, a.firstFit? (wordsFor bytes) 0 = some p ∧ p ≤ o := by
  obtain ⟨r, hr, hfree, hneed⟩ := fits_iff.1 ho
  exact ht.exists_firstFit? (Nat.zero_le _) hr hfree hneed

theorem fits_of_firstFit? (ho : a.firstFit? (wordsFor bytes) 0 = some o) : a.Fits bytes o :=
  fits_iff.2 (record?_of_firstFit? ho)

theorem roomAbove_iff : a.RoomAbove bytes ↔ ¬a.limit < a.top + 1 + wordsFor bytes := by
  rw [RoomAbove, rounded_eq]
  omega

/-- A claim where a free block fits takes the one that the scan found. -/
theorem claim_of_firstFit? (ho : a.firstFit? (wordsFor bytes) 0 = some o)
    (hr : a.record? o = some r) : a.claim bytes =
      (some ⟨o⟩, { a with slots := occupy a.slots o r.words (wordsFor bytes) }) := by
  simp only [claim, ho, hr]

/-- A claim where none fits extends what is in use, if it can. -/
theorem claim_of_firstFit?_none (hn : a.firstFit? (wordsFor bytes) 0 = none) : a.claim bytes =
    if a.limit < a.top + 1 + wordsFor bytes then (none, a)
    else (some ⟨a.top⟩, { a with slots := extend a.slots (wordsFor bytes) }) := by
  simp only [claim, hn]

/-- A block is found exactly when a free one fits or there is room behind the last. -/
theorem isSome_claim (ht : Tiled a.slots 0) :
    (a.claim bytes).1.isSome = true ↔ (∃ o, a.Fits bytes o) ∨ a.RoomAbove bytes := by
  cases ho : a.firstFit? (wordsFor bytes) 0 with
  | some o =>
      obtain ⟨r, hr, -⟩ := record?_of_firstFit? ho
      rw [claim_of_firstFit? ho hr]
      exact ⟨fun _ => .inl ⟨o, fits_of_firstFit? ho⟩, fun _ => rfl⟩
  | none =>
      have hnone : ¬∃ o, a.Fits bytes o := by
        rintro ⟨o, hfits⟩
        obtain ⟨p, hp, -⟩ := firstFit?_of_fits ht hfits
        rw [ho] at hp
        cases hp
      rw [claim_of_firstFit?_none ho, roomAbove_iff]
      split
      · rename_i hfull
        exact ⟨nofun, fun h => (h.resolve_left hnone hfull).elim⟩
      · rename_i hroom
        exact ⟨fun _ => .inr hroom, fun _ => rfl⟩

/-- It is the lowest that fits, or the one behind the last. -/
theorem firstFit_of_claim {a' : Arena} {b : Block} (ht : Tiled a.slots 0)
    (h : a.claim bytes = (some b, a')) : a.FirstFit bytes b.offset := by
  cases ho : a.firstFit? (wordsFor bytes) 0 with
  | some o =>
      obtain ⟨r, hr, -⟩ := record?_of_firstFit? ho
      rw [claim_of_firstFit? ho hr] at h
      cases h
      refine .lowest (fits_of_firstFit? ho) fun o' hfits => ?_
      obtain ⟨p, hp, hle⟩ := firstFit?_of_fits ht hfits
      rw [ho] at hp
      cases hp
      exact hle
  | none =>
      rw [claim_of_firstFit?_none ho] at h
      split at h
      · cases h
      · rename_i hroom
        cases h
        refine .behind (fun o hfits => ?_) (roomAbove_iff.2 hroom)
        obtain ⟨p, hp, -⟩ := firstFit?_of_fits ht hfits
        rw [ho] at hp
        cases hp

/-- Its size: the rounded request, or up to two words more where a split would leave too little. -/
theorem record?_of_claim {a' : Arena} {b : Block} (ht : Tiled a.slots 0)
    (h : a.claim bytes = (some b, a')) : ∃ w, a'.record? b.offset = some ⟨w, true, false, .blank⟩ ∧
      wordsFor bytes ≤ w ∧ w < wordsFor bytes + splitAt := by
  cases ho : a.firstFit? (wordsFor bytes) 0 with
  | some o =>
      obtain ⟨r, hr, -, hneed⟩ := record?_of_firstFit? ho
      have hslot := record?_eq_some_iff.1 hr
      obtain ⟨-, hin, -⟩ := (ht.at hslot (Nat.zero_le _)).header hslot
      rw [claim_of_firstFit? ho hr] at h
      cases h
      have hget := getElem?_occupy hslot hin hneed o
      rw [if_pos rfl] at hget
      by_cases hsplit : splitAt ≤ r.words - wordsFor bytes
      · rw [if_pos hsplit] at hget
        refine ⟨_, record?_eq_some_iff.2 hget, Nat.le_refl _, ?_⟩
        simp only [splitAt]
        omega
      · rw [if_neg hsplit] at hget
        exact ⟨_, record?_eq_some_iff.2 hget, hneed, by omega⟩
  | none =>
      rw [claim_of_firstFit?_none ho] at h
      split at h
      · cases h
      · cases h
        have hget := getElem?_extend a.slots (wordsFor bytes) a.slots.size
        rw [if_neg (Nat.lt_irrefl _), if_pos rfl] at hget
        refine ⟨_, record?_eq_some_iff.2 hget, Nat.le_refl _, ?_⟩
        simp only [splitAt]
        omega

/-- Nothing but the blocks changes. -/
theorem eq_of_claim (a : Arena) (bytes : Nat) :
    (a.claim bytes).2 = { a with slots := (a.claim bytes).2.slots } := by
  cases ho : a.firstFit? (wordsFor bytes) 0 with
  | some o =>
      obtain ⟨r, hr, -⟩ := record?_of_firstFit? ho
      rw [claim_of_firstFit? ho hr]
  | none =>
      rw [claim_of_firstFit?_none ho]
      split <;> rfl

end Scan
end Arena

namespace Heap

/-- A heap `h'` in which a block was claimed from `h` for a number of bytes. -/
structure Granted (h : Heap) (bytes : Nat) (b : Block) (h' : Heap) : Prop where
  /-- It is the lowest that fits, or stands where the words in use ended. -/
  place : h.arena.FirstFit bytes b.offset
  /-- It is in use, blank and large enough: two words too large at most.  Its header has the size
  in the lower half and the one flag in the upper one, and all its other words are zero. -/
  here : ∃ w, h'.arena.record? b.offset = some ⟨w, true, false, .blank⟩ ∧
    Arena.rounded bytes ≤ 8 * w ∧ 8 * w < Arena.rounded bytes + 24 ∧ 8 * w < 2 ^ 32 ∧
    h'.arena.word? b.offset = some (8 * w + 2 ^ 32) ∧
    ∀ k, 0 < k → k ≤ w → h'.arena.word? (b.offset + k) = some 0
  /-- It overlaps no other block in use. -/
  apart : ∀ o r, h'.arena.record? o = some r → r.used = true → o ≠ b.offset →
    8 * o + 8 + 8 * r.words ≤ 8 * b.offset ∨ 8 * b.offset + 8 + h'.arena.capacity b ≤ 8 * o
  /-- A block that was in use is where it was, as large, with the same contents and words. -/
  kept : ∀ o r, h.arena.record? o = some r → r.used = true → h'.arena.record? o = some r ∧
    ∀ k, k ≤ r.words → h'.arena.word? (o + k) = h.arena.word? (o + k)
  /-- No other block is in use. -/
  claimed : ∀ o r, h'.arena.record? o = some r → r.used = true → o ≠ b.offset →
    h.arena.record? o = some r
  /-- Headers and sizes of the blocks, free ones and others, add up to the bytes in use. -/
  total : (h'.arena.tiles.map fun t => 8 + 8 * t.2.words).sum = 8 * h'.arena.top
  /-- The blocks tile what is in use, and that does not go past the end. -/
  tiled : Arena.Tiled h'.arena.slots 0
  top_le : h'.arena.top ≤ h'.arena.limit
  /-- Nothing but the blocks changes. -/
  rest : h' = { h with arena := { h.arena with slots := h'.arena.slots } }

section Granted

variable {h : Heap} {bytes : Nat} {b : Block}

/-- A claim that succeeds. -/
theorem granted_of_claim (ht : Arena.Tiled h.arena.slots 0) (htop : h.arena.top ≤ h.arena.limit)
    (hlimit : 8 * h.arena.limit < 2 ^ 32) (hb : (h.claim bytes).1 = some b) :
    h.Granted bytes b (h.claim bytes).2 := by
  have hclaim : h.arena.claim bytes = (some b, (h.claim bytes).2.arena) := Prod.ext hb rfl
  have hc := Arena.claimed_of_claim ht htop hclaim
  obtain ⟨w, hrecord, hle, hlt⟩ := Arena.record?_of_claim ht hclaim
  have hslot := Arena.record?_eq_some_iff.1 hrecord
  have hend : b.offset + 1 + w ≤ _ := hc.tiled.words_le hslot (Nat.zero_le _)
  have htop' : (h.claim bytes).2.arena.slots.size ≤ h.arena.limit := hc.limit ▸ hc.top_le
  have hword := fun k (hk : k ≤ w) => Arena.word?_of_used hc.tiled hc.top_le hrecord rfl hk
  refine
    { place := Arena.firstFit_of_claim ht hclaim
      here := ⟨w, hrecord, ?_, ?_, by omega, ?_, fun k hpos hk => ?_⟩
      apart := fun o r hr hu hne => ?_
      kept := fun o r hr hu => ⟨hc.kept o r hr hu, fun k hk => ?_⟩
      claimed := hc.claimed
      total := ?_
      tiled := hc.tiled
      top_le := hc.top_le
      rest := ?_ }
  · rw [Arena.rounded_eq]
    omega
  · rw [Arena.rounded_eq]
    simp only [Arena.splitAt] at hlt
    omega
  · exact hword 0 (Nat.zero_le _)
  · rw [hword k hk, if_neg (by omega)]
    rfl
  · have hcapacity : (h.claim bytes).2.arena.capacity b = 8 * w := by
      simp only [Arena.capacity, hrecord]
    rcases hc.tiled.apart (Arena.record?_eq_some_iff.1 hr) hslot hne with hbefore | hbehind
    · exact .inl (by omega)
    · refine .inr ?_
      rw [hcapacity]
      simp only at hbehind
      omega
  · rw [Arena.word?_of_used ht htop hr hu hk,
      Arena.word?_of_used hc.tiled hc.top_le (hc.kept o r hr hu) hu hk]
  · have hsum := hc.tiled.sum_tilesFrom
    rw [Nat.mul_zero, Nat.zero_add] at hsum
    exact hsum
  · exact congrArg (fun a => { h with arena := a }) (Arena.eq_of_claim h.arena bytes)

/-- Claiming is first fit.  A block is found exactly if a free one has room for the rounded
request, or the room behind the last has; it is the lowest free one that has, or else the one
behind the last; and nothing else in use is touched. -/
theorem claim_firstFit (ht : Arena.Tiled h.arena.slots 0) (htop : h.arena.top ≤ h.arena.limit)
    (hlimit : 8 * h.arena.limit < 2 ^ 32) (bytes : Nat) :
    ((h.claim bytes).1.isSome = true ↔
      (∃ o, h.arena.Fits bytes o) ∨ h.arena.RoomAbove bytes) ∧
    (∀ b, (h.claim bytes).1 = some b → h.Granted bytes b (h.claim bytes).2) ∧
    ((h.claim bytes).1 = none → (h.claim bytes).2 = h) := by
  refine ⟨Arena.isSome_claim ht, fun b hb => granted_of_claim ht htop hlimit hb, fun hnone => ?_⟩
  have hclaim : h.arena.claim bytes = (none, (h.claim bytes).2.arena) := Prod.ext hnone rfl
  exact congrArg (fun a => { h with arena := a }) (Arena.eq_of_claim_none hclaim)

end Granted

/-! ### Four free words in front of an array -/

/-- The array is of one value, and nine words are left behind it. -/
def gapped : Heap :=
  { Heap.new 4 128 0 with
    arena :=
      { slots := #[.header ⟨4, false, false, .blank⟩, .inner, .inner, .inner, .inner,
          .header ⟨1, true, false, .values #[.int 5]⟩, .inner]
        residue := #[]
        limit := 16 } }

theorem tiled_gapped : Arena.Tiled gapped.arena.slots 0 := by
  refine .block (r := ⟨4, false, false, .blank⟩) rfl (by decide) (fun k hk hk' => ?_)
    (.block (r := ⟨1, true, false, .values #[.int 5]⟩) rfl (by decide) (fun k hk hk' => ?_)
      (.done rfl))
  · have hk' : k < 5 := hk'
    obtain rfl | rfl | rfl | rfl : k = 1 ∨ k = 2 ∨ k = 3 ∨ k = 4 := by omega
    all_goals rfl
  · have hk : 5 < k := hk
    have hk' : k < 7 := hk'
    obtain rfl : k = 6 := by omega
    rfl

/-- One word is split off, two take all four, five go behind the array, and nine and their header
find no room. -/
theorem claim_firstFit_gapped :
    (gapped.claim 8).1 = some ⟨0⟩ ∧ gapped.Granted 8 ⟨0⟩ (gapped.claim 8).2 ∧
    (gapped.claim 16).1 = some ⟨0⟩ ∧ gapped.Granted 16 ⟨0⟩ (gapped.claim 16).2 ∧
    (gapped.claim 40).1 = some ⟨7⟩ ∧ gapped.Granted 40 ⟨7⟩ (gapped.claim 40).2 ∧
    (gapped.claim 72).1 = none ∧ (gapped.claim 72).2 = gapped := by
  have hspec := claim_firstFit tiled_gapped (by decide) (by decide)
  have hplaces : (gapped.claim 8).1 = some ⟨0⟩ ∧ (gapped.claim 16).1 = some ⟨0⟩ ∧
      (gapped.claim 40).1 = some ⟨7⟩ ∧ (gapped.claim 72).1 = none := by
    simp [Heap.claim, Arena.claim, Arena.firstFit?, Arena.record?, Arena.wordsFor, Arena.top, gapped]
  obtain ⟨h8, h16, h40, h72⟩ := hplaces
  exact ⟨h8, (hspec 8).2.1 _ h8, h16, (hspec 16).2.1 _ h16, h40, (hspec 40).2.1 _ h40, h72,
    (hspec 72).2.2 h72⟩

end Heap
end CellLisp
