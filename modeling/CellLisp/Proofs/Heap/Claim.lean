import CellLisp.Proofs.Heap.Layout

/-!
# `CellLisp.Proofs.Heap.Claim` — a claim takes a block that nobody has

Claiming finds the first free block that is large enough, or room behind the last block.
`Arena.Claimed` is all that the rest of the development knows about it:

| | |
| :-- | :-- |
| `here` | the block is claimed, blank and large enough |
| `fresh` | it was not claimed before |
| `kept` | other blocks that were claimed are as they were |
| `claimed` | no other block is claimed |
| `tiled`, `top_le` | the blocks tile the arena and do not go past its end |
-/

namespace CellLisp.Arena

/-- The slots are tiled from an offset on if they are from a header on and did not change
before it. -/
theorem Tiled.replace {slots slots' : Array Slot} {offset o : Nat} {r : BlockRecord}
    (ht : Tiled slots offset) (hr : slots[o]? = some (.header r)) (hle : offset ≤ o)
    (hsame : ∀ k, k < o → slots'[k]? = slots[k]?) (hnew : Tiled slots' o) :
    Tiled slots' offset := by
  induction ht with
  | done h =>
      have : o < slots.size := by
        refine Nat.lt_of_not_le fun hout => ?_
        simp [hout] at hr
      omega
  | @block offset r' hr' hw hin _ ih =>
      rcases Nat.eq_or_lt_of_le hle with rfl | hlt
      · exact hnew
      · have hbeyond : offset + 1 + r'.words ≤ o := by
          refine Nat.le_of_not_lt fun hlt' => ?_
          simp [hin o hlt hlt'] at hr
        exact .block ((hsame _ hlt).trans hr') hw
          (fun k hk hk' => (hsame k (by omega)).trans (hin k hk hk')) (ih hbeyond)

/-- Every header is where a tiling begins. -/
theorem Tiled.at {slots : Array Slot} {offset o : Nat} {r : BlockRecord}
    (ht : Tiled slots offset) (hr : slots[o]? = some (.header r)) (hle : offset ≤ o) :
    Tiled slots o := by
  induction ht with
  | done h =>
      have : o < slots.size := by
        refine Nat.lt_of_not_le fun hout => ?_
        simp [hout] at hr
      omega
  | @block offset r' hr' hw hin ht ih =>
      rcases Nat.eq_or_lt_of_le hle with rfl | hlt
      · exact .block hr' hw hin ht
      · refine ih (Nat.le_of_not_lt fun hlt' => ?_)
        simp [hin o hlt hlt'] at hr

theorem wordsFor_pos (bytes : Nat) : 0 < wordsFor bytes := by
  unfold wordsFor
  omega

theorem le_wordsFor (bytes : Nat) : bytes ≤ 8 * wordsFor bytes := by
  unfold wordsFor
  omega

/-- The first fit is free and large enough. -/
theorem record?_of_firstFit? {a : Arena} {need offset o : Nat}
    (h : a.firstFit? need offset = some o) :
    ∃ r, a.record? o = some r ∧ r.used = false ∧ need ≤ r.words := by
  fun_induction firstFit? a need offset with
  | case1 offset hlt hs => cases h
  | case2 offset hlt r hs hfit =>
      obtain rfl : offset = o := by simpa using h
      simp only [Bool.and_eq_true, Bool.not_eq_true', decide_eq_true_eq] at hfit
      exact ⟨r, by simp [record?, hlt, hs], hfit.1, hfit.2⟩
  | case3 offset hlt r hs hfit ih => exact ih h
  | case4 offset hge => cases h

/-- What claiming a block does. -/
structure Claimed (a : Arena) (bytes : Nat) (b : Block) (a' : Arena) : Prop where
  limit : a'.limit = a.limit
  tiled : Tiled a'.slots 0
  top_le : a'.top ≤ a'.limit
  here : ∃ w, a'.record? b.offset = some ⟨w, true, false, .blank⟩ ∧ bytes ≤ 8 * w
  fresh : ∀ r, a.record? b.offset = some r → r.used = false
  kept : ∀ o r, a.record? o = some r → r.used = true → a'.record? o = some r
  claimed : ∀ o r, a'.record? o = some r → r.used = true → o ≠ b.offset → a.record? o = some r
  marked : ∀ o r, a'.record? o = some r → r.marked = true → a.record? o = some r

/-- A claim marks no block. -/
theorem Claimed.unmarked {a a' : Arena} {bytes : Nat} {b : Block} (hc : Claimed a bytes b a')
    (hm : ∀ o r, a.record? o = some r → r.marked = false) (o : Nat) (r : BlockRecord)
    (hr : a'.record? o = some r) : r.marked = false := by
  cases hmark : r.marked with
  | false => rfl
  | true => exact hmark ▸ hm o r (hc.marked o r hr hmark)

section Occupy

variable {slots : Array Slot} {offset need : Nat} {r : BlockRecord}

/-- What taking a free block does: the rest of it, if that is worth it, stays a free
block. -/
theorem size_occupy (slots : Array Slot) (offset words need : Nat) :
    (occupy slots offset words need).size = slots.size := by
  unfold occupy
  split <;> simp

theorem getElem?_occupy (hr : slots[offset]? = some (.header r))
    (hin : ∀ k, offset < k → k < offset + 1 + r.words → slots[k]? = some .inner)
    (hneed : need ≤ r.words) (k : Nat) :
    (occupy slots offset r.words need)[k]? =
      if k = offset then
        some (.header ⟨if splitAt ≤ r.words - need then need else r.words, true, false, .blank⟩)
      else if splitAt ≤ r.words - need ∧ k = offset + 1 + need then
        some (.header ⟨r.words - need - 1, false, false, .blank⟩)
      else slots[k]? := by
  have hlt : offset < slots.size := by
    refine Nat.lt_of_not_le fun hout => ?_
    simp [hout] at hr
  unfold occupy
  by_cases hsplit : splitAt ≤ r.words - need
  · have hin' := hin (offset + 1 + need) (by omega) (by simp [splitAt] at hsplit; omega)
    have hlt' : offset + 1 + need < slots.size := by
      refine Nat.lt_of_not_le fun hout => ?_
      simp [hout] at hin'
    simp only [hsplit, if_true, true_and]
    rw [Array.getElem?_setIfInBounds, Array.getElem?_setIfInBounds]
    by_cases h1 : k = offset
    · subst h1
      simp [hlt]
    · by_cases h2 : k = offset + 1 + need
      · subst h2
        simp [hlt', h1, Ne.symm h1]
      · simp [h1, h2, Ne.symm h1, Ne.symm h2]
  · simp only [hsplit, if_false, false_and]
    rw [Array.getElem?_setIfInBounds]
    by_cases h1 : k = offset
    · subst h1
      simp [hlt]
    · simp [h1, Ne.symm h1]

/-- The blocks tile the arena again. -/
theorem Tiled.occupy (ht : Tiled slots offset) (hr : slots[offset]? = some (.header r))
    (hpos : 0 < need) (hneed : need ≤ r.words) :
    Tiled (occupy slots offset r.words need) offset := by
  obtain ⟨hw, hin, hnext⟩ := ht.header hr
  have hget := getElem?_occupy hr hin hneed
  have hend : Tiled (Arena.occupy slots offset r.words need) (offset + 1 + r.words) := by
    refine hnext.congr (size_occupy ..) fun k hk => ?_
    rw [hget, if_neg (by omega), if_neg]
    rintro ⟨hs, hk'⟩
    simp only [splitAt] at hs
    omega
  by_cases hsplit : splitAt ≤ r.words - need
  · have hs : 3 ≤ r.words - need := hsplit
    refine .block ((hget offset).trans (by simp [hsplit]; rfl)) hpos (fun k hk hk' => ?_)
      (.block (r := ⟨r.words - need - 1, false, false, .blank⟩) ?_ ?_ (fun k hk hk' => ?_) ?_)
    · rw [hget, if_neg (by omega), if_neg (fun h => by have := h.2; simp only at hk'; omega)]
      exact hin k hk (by simp only at hk'; omega)
    · rw [hget, if_neg (by simp only; omega), if_pos ⟨hsplit, rfl⟩]
    · simp only
      omega
    · simp only at hk hk'
      rw [hget, if_neg (by omega), if_neg (fun h => by have := h.2; omega)]
      exact hin k (by omega) (by omega)
    · have : offset + 1 + need + 1 + (r.words - need - 1) = offset + 1 + r.words := by omega
      simpa [this] using hend
  · refine .block (r := ⟨r.words, true, false, .blank⟩) ((hget offset).trans (by simp [hsplit]))
      hw (fun k hk hk' => ?_) hend
    rw [hget, if_neg (by omega), if_neg (fun h => hsplit h.1)]
    exact hin k hk hk'

end Occupy

section Extend

theorem getElem?_extend (slots : Array Slot) (need k : Nat) :
    (extend slots need)[k]? =
      if k < slots.size then slots[k]?
      else if k = slots.size then some (.header ⟨need, true, false, .blank⟩)
      else if k < slots.size + 1 + need then some .inner else none := by
  unfold extend
  rw [Array.getElem?_append]
  by_cases h1 : k < slots.size
  · rw [if_pos (by simp; omega), if_pos h1, Array.getElem?_push, if_neg (Nat.ne_of_lt h1)]
  · by_cases h2 : k = slots.size
    · subst h2
      simp
    · have h3 : ¬k < slots.size + 1 := by omega
      simp only [Array.size_push, h1, h2, h3, if_false, Array.getElem?_replicate]
      by_cases h4 : k < slots.size + 1 + need
      · rw [if_pos (by omega), if_pos h4]
      · rw [if_neg (by omega), if_neg h4]

theorem size_extend (slots : Array Slot) (need : Nat) :
    (extend slots need).size = slots.size + 1 + need := by
  simp [extend]

theorem Tiled.extend {slots : Array Slot} {offset need : Nat} (ht : Tiled slots offset)
    (hpos : 0 < need) : Tiled (extend slots need) offset := by
  induction ht with
  | @done offset h =>
      subst h
      refine .block (r := ⟨need, true, false, .blank⟩) (by simp [getElem?_extend]) hpos
        (fun k hk hk' => ?_) (.done (size_extend slots need).symm)
      rw [getElem?_extend, if_neg (by omega), if_neg (by omega), if_pos hk']
  | @block offset r hr hw hin ht ih =>
      have hle := ht.le_size
      refine .block ?_ hw (fun k hk hk' => ?_) ih
      · rw [getElem?_extend, if_pos (by omega)]
        exact hr
      · rw [getElem?_extend, if_pos (by omega)]
        exact hin k hk hk'

end Extend

/-- A claim that succeeds. -/
theorem claimed_of_claim {a a' : Arena} {bytes : Nat} {b : Block} (ht : Tiled a.slots 0)
    (htop : a.top ≤ a.limit) (h : a.claim bytes = (some b, a')) : Claimed a bytes b a' := by
  have hpos := wordsFor_pos bytes
  have hbytes := le_wordsFor bytes
  unfold claim at h
  simp only at h
  split at h
  · rename_i o ho
    obtain ⟨r, hr, hu, hneed⟩ := record?_of_firstFit? ho
    rw [hr] at h
    simp only [Prod.mk.injEq, Option.some.injEq] at h
    obtain ⟨rfl, rfl⟩ := h
    have hr' := record?_eq_some_iff.1 hr
    have hat := ht.at hr' (Nat.zero_le _)
    obtain ⟨hw, hin, -⟩ := hat.header hr'
    have hget := getElem?_occupy hr' hin hneed
    refine ⟨rfl, ?_, ?_, ⟨_, record?_eq_some_iff.2 ((hget o).trans (if_pos rfl)), ?_⟩, ?_,
      fun o' r' h' hu' => ?_, fun o' r' h' hu' hne => ?_, fun o' r' h' hm => ?_⟩
    · refine ht.replace hr' (Nat.zero_le _) (fun k hk => ?_) (hat.occupy hr' hpos hneed)
      rw [hget, if_neg (by omega), if_neg (fun h => by have := h.2; omega)]
    · simpa [top, size_occupy] using htop
    · split <;> omega
    · intro r' h'
      obtain rfl : r = r' := by simpa [hr] using h'
      exact hu
    · have h'' := record?_eq_some_iff.1 h'
      refine record?_eq_some_iff.2 ((hget o').trans ?_)
      rw [if_neg, if_neg]
      · exact h''
      · rintro ⟨hs, rfl⟩
        simp only [splitAt] at hs
        simp [hin (o + 1 + wordsFor bytes) (by omega) (by omega)] at h''
      · rintro rfl
        obtain rfl : r = r' := by simpa [hr] using h'
        simp [hu] at hu'
    · have h'' := (hget o').symm.trans (record?_eq_some_iff.1 h')
      rw [if_neg hne] at h''
      split at h''
      · simp only [Option.some.injEq, Slot.header.injEq] at h''
        subst h''
        cases hu'
      · exact record?_eq_some_iff.2 h''
    · have h'' := (hget o').symm.trans (record?_eq_some_iff.1 h')
      split at h''
      · simp only [Option.some.injEq, Slot.header.injEq] at h''
        subst h''
        cases hm
      · split at h''
        · simp only [Option.some.injEq, Slot.header.injEq] at h''
          subst h''
          cases hm
        · exact record?_eq_some_iff.2 h''
  · split at h
    · cases h
    · rename_i hroom
      simp only [Prod.mk.injEq, Option.some.injEq] at h
      obtain ⟨rfl, rfl⟩ := h
      have hget := getElem?_extend a.slots (wordsFor bytes)
      refine ⟨rfl, ht.extend hpos, ?_, ⟨wordsFor bytes, record?_eq_some_iff.2 ?_, hbytes⟩,
        fun r h' => ?_, fun o' r' h' _ => ?_, fun o' r' h' _ hne => ?_, fun o' r' h' hm => ?_⟩
      · simp only [top, size_extend] at hroom ⊢
        omega
      · refine (hget a.slots.size).trans ?_
        rw [if_neg (Nat.lt_irrefl _), if_pos rfl]
      · simp [record?, top] at h'
      · have h'' := record?_eq_some_iff.1 h'
        refine record?_eq_some_iff.2 ((hget o').trans ?_)
        rw [if_pos]
        · exact h''
        · refine Nat.lt_of_not_le fun hout => ?_
          simp [hout] at h''
      · have h'' := (hget o').symm.trans (record?_eq_some_iff.1 h')
        split at h''
        · exact record?_eq_some_iff.2 h''
        · have hne' : ¬o' = a.slots.size := hne
          rw [if_neg hne'] at h''
          split at h'' <;> cases h''
      · have h'' := (hget o').symm.trans (record?_eq_some_iff.1 h')
        split at h''
        · exact record?_eq_some_iff.2 h''
        · split at h''
          · simp only [Option.some.injEq, Slot.header.injEq] at h''
            subst h''
            cases hm
          · split at h'' <;> cases h''

/-- A claim that finds no room changes nothing. -/
theorem eq_of_claim_none {a a' : Arena} {bytes : Nat} (h : a.claim bytes = (none, a')) : a' = a := by
  unfold claim at h
  simp only at h
  split at h
  · rename_i o ho
    obtain ⟨r, hr, -, -⟩ := record?_of_firstFit? ho
    rw [hr] at h
    cases h
  · split at h
    · simpa using h.symm
    · cases h

end CellLisp.Arena
