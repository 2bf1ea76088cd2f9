import CellLisp.Proofs.Heap.Marking

/-!
# `CellLisp.Proofs.Heap.Layout` — the blocks tile the arena

`Tiled slots offset` says that from `offset` to the end the slots are blocks, one behind
the other: a header and then its words, at least one.  Offsets of headers are therefore
read off the slots, and a word inside a block is never taken for a header.

Releasing goes over the headers once, from the left.  `run` is the free block that ends
just before the place it has come to (`FreeRun`), and `Released` is what it leaves
behind at and after that place:

| | |
| :-- | :-- |
| `tiled` | the slots are tiled again |
| `kept` | a live block keeps its header, without the mark |
| `used` | a claimed block was a live block |
| `unmarked` | no mark is left |
-/

namespace CellLisp.Arena

/-- The slots from an offset on are blocks, one behind the other. -/
inductive Tiled (slots : Array Slot) : Nat → Prop
  | done {offset : Nat} : offset = slots.size → Tiled slots offset
  | block {offset : Nat} {r : BlockRecord} :
      slots[offset]? = some (.header r) → 0 < r.words →
      (∀ k, offset < k → k < offset + 1 + r.words → slots[k]? = some .inner) →
      Tiled slots (offset + 1 + r.words) → Tiled slots offset

/-- Tiling from an offset on does not depend on what is before it. -/
theorem Tiled.congr {slots slots' : Array Slot} {offset : Nat} (ht : Tiled slots offset)
    (hsize : slots'.size = slots.size)
    (hsame : ∀ k, offset ≤ k → slots'[k]? = slots[k]?) : Tiled slots' offset := by
  induction ht with
  | done h => exact .done (h.trans hsize.symm)
  | block hr hw hin _ ih =>
      refine .block ((hsame _ (Nat.le_refl _)).trans hr) hw (fun k hk hk' => ?_)
        (ih fun k hk => hsame k (by omega))
      exact (hsame k (by omega)).trans (hin k hk hk')

/-- A header is what the tiling has at its offset. -/
theorem Tiled.header {slots : Array Slot} {offset : Nat} {r : BlockRecord}
    (ht : Tiled slots offset) (hr : slots[offset]? = some (.header r)) :
    0 < r.words ∧ (∀ k, offset < k → k < offset + 1 + r.words → slots[k]? = some .inner) ∧
      Tiled slots (offset + 1 + r.words) := by
  cases ht with
  | done h =>
      subst h
      simp at hr
  | block hr' hw hin ht =>
      obtain rfl : r = _ := by simpa [hr] using hr'
      exact ⟨hw, hin, ht⟩

/-- The tiling does not end inside a block. -/
theorem Tiled.not_inner {slots : Array Slot} {offset : Nat} (ht : Tiled slots offset)
    (h : slots[offset]? = some .inner) : False := by
  cases ht with
  | done he =>
      subst he
      simp at h
  | block hr _ _ _ => simp [hr] at h

theorem Tiled.le_size {slots : Array Slot} {offset : Nat} (ht : Tiled slots offset) :
    offset ≤ slots.size := by
  induction ht with
  | done h => exact Nat.le_of_eq h
  | block _ _ _ _ ih => omega

/-- Every header starts a tile, which ends before the slots do. -/
theorem Tiled.words_le {slots : Array Slot} {offset o : Nat} {r : BlockRecord}
    (ht : Tiled slots offset) (hr : slots[o]? = some (.header r)) (hle : offset ≤ o) :
    o + 1 + r.words ≤ slots.size := by
  induction ht with
  | done h =>
      rw [Array.getElem?_eq_none (by omega)] at hr
      cases hr
  | @block offset r' hr' hw hin ht ih =>
      rcases Nat.eq_or_lt_of_le hle with rfl | hlt
      · obtain rfl : r' = r := by simpa [hr'] using hr
        exact ht.le_size
      · refine ih (Nat.le_of_not_lt fun hlt' => ?_)
        simp [hin o hlt hlt'] at hr

/-- A free block, its contents given up, that ends just before an offset. -/
def FreeRun (slots : Array Slot) (offset start : Nat) : Prop :=
  start + 1 < offset ∧
  slots[start]? = some (.header ⟨offset - start - 1, false, false, .blank⟩) ∧
  ∀ k, start < k → k < offset → slots[k]? = some .inner

/-- What releasing from an offset on leaves behind, `run` being the free block that ends
there. -/
structure Released (slots : Array Slot) (run : Option Nat) (offset : Nat)
    (out : Array Slot) : Prop where
  size : out.size = slots.size
  before : ∀ k, k < run.getD offset → out[k]? = slots[k]?
  joined : ∀ start, run = some start →
    (∃ w, out[start]? = some (.header ⟨w, false, false, .blank⟩)) ∧
    ∀ k, start < k → k < offset → out[k]? = some .inner
  tiled : Tiled out (run.getD offset)
  kept : ∀ o r, offset ≤ o → slots[o]? = some (.header r) → r.isLive = true →
    out[o]? = some (.header { r with marked := false })
  used : ∀ o r, offset ≤ o → out[o]? = some (.header r) → r.used = true →
    ∃ r₀, slots[o]? = some (.header r₀) ∧ r₀.isLive = true
  unmarked : ∀ o r, offset ≤ o → out[o]? = some (.header r) → r.marked = false

/-- Nothing is left to do at the end. -/
theorem Released.done {slots : Array Slot} {run : Option Nat} {offset : Nat}
    (ht : Tiled slots offset) (hrun : ∀ start, run = some start → FreeRun slots offset start)
    (hend : ¬offset < slots.size) : Released slots run offset slots := by
  have hnone : ∀ o, offset ≤ o → slots[o]? = none := fun o ho =>
    Array.getElem?_eq_none (by omega)
  refine ⟨rfl, fun _ _ => rfl, fun start hs => ?_, ?_, fun o r ho hr => ?_,
    fun o r ho hr => ?_, fun o r ho hr => ?_⟩
  · exact ⟨⟨_, (hrun start hs).2.1⟩, (hrun start hs).2.2⟩
  · cases run with
    | none => exact ht
    | some start =>
        obtain ⟨hlt, hh, hin⟩ := hrun start rfl
        refine .block hh (by simp; omega) (fun k hk hk' => hin k hk (by simp at hk'; omega)) ?_
        have : start + 1 + (offset - start - 1) = offset := by omega
        simpa [this] using ht
  · rw [hnone o ho] at hr; cases hr
  · rw [hnone o ho] at hr; cases hr
  · rw [hnone o ho] at hr; cases hr

section Step

variable {slots out : Array Slot} {run : Option Nat} {offset : Nat} {r : BlockRecord}

/-- A live block ends the run of free blocks before it. -/
theorem Released.keep (hlt : offset < slots.size) (hr : slots[offset]? = some (.header r))
    (hw : 0 < r.words)
    (hin : ∀ k, offset < k → k < offset + 1 + r.words → slots[k]? = some .inner)
    (hlive : r.isLive = true)
    (hrun : ∀ start, run = some start → FreeRun slots offset start)
    (ih : Released (slots.set offset (.header { r with marked := false })) none
      (offset + 1 + r.words) out) : Released slots run offset out := by
  have hset : ∀ k, k ≠ offset →
      (slots.set offset (.header { r with marked := false }))[k]? = slots[k]? := fun k hk => by
    rw [Array.getElem?_set_ne hlt (fun e => hk e.symm)]
  have hbefore : ∀ k, k < offset + 1 + r.words → k ≠ offset → out[k]? = slots[k]? :=
    fun k hk hne => (ih.before k hk).trans (hset k hne)
  have hat : out[offset]? = some (.header { r with marked := false }) := by
    rw [ih.before offset (by simp; omega), Array.getElem?_set_self]
  have htiled : Tiled out offset :=
    .block hat hw (fun k hk hk' => (hbefore k hk' (by omega)).trans (hin k hk hk')) ih.tiled
  refine ⟨ih.size.trans (by simp), fun k hk => ?_, fun start hs => ?_, ?_,
    fun o r' ho hr' hl => ?_, fun o r' ho hr' hu => ?_, fun o r' ho hr' => ?_⟩
  · have : k < offset := by
      cases run with
      | none => exact hk
      | some start => have := (hrun start rfl).1; simp at hk; omega
    exact hbefore k (by omega) (by omega)
  · obtain ⟨hlt', hh, hinner⟩ := hrun start hs
    exact ⟨⟨_, (hbefore start (by omega) (by omega)).trans hh⟩,
      fun k hk hk' => (hbefore k (by omega) (by omega)).trans (hinner k hk hk')⟩
  · cases run with
    | none => exact htiled
    | some start =>
        obtain ⟨hlt', hh, hinner⟩ := hrun start rfl
        refine .block ((hbefore start (by omega) (by omega)).trans hh) (by simp; omega)
          (fun k hk hk' => ?_) ?_
        · simp at hk'
          exact (hbefore k (by omega) (by omega)).trans (hinner k hk (by omega))
        · have : start + 1 + (offset - start - 1) = offset := by omega
          simpa [this] using htiled
  · rcases Nat.lt_or_ge o (offset + 1 + r.words) with hlo | hge
    · rcases Nat.eq_or_lt_of_le ho with rfl | hgt
      · obtain rfl : r' = r := by simpa [hr] using hr'.symm
        exact hat
      · simp [hin o hgt hlo] at hr'
    · exact ih.kept o r' hge (by rw [hset o (by omega)]; exact hr') hl
  · rcases Nat.lt_or_ge o (offset + 1 + r.words) with hlo | hge
    · rcases Nat.eq_or_lt_of_le ho with rfl | hgt
      · exact ⟨r, hr, hlive⟩
      · rw [hbefore o hlo (by omega), hin o hgt hlo] at hr'
        simp at hr'
    · obtain ⟨r₀, hr₀, hl⟩ := ih.used o r' hge hr' hu
      exact ⟨r₀, by rw [← hset o (by omega)]; exact hr₀, hl⟩
  · rcases Nat.lt_or_ge o (offset + 1 + r.words) with hlo | hge
    · rcases Nat.eq_or_lt_of_le ho with rfl | hgt
      · rw [hat] at hr'
        simp only [Option.some.injEq, Slot.header.injEq] at hr'
        rw [← hr']
      · rw [hbefore o hlo (by omega), hin o hgt hlo] at hr'
        simp at hr'
    · exact ih.unmarked o r' hge hr'

/-- A block that is given up becomes part of a free block at `start`, new or that of the
run before it; `slots'` is what is then gone over further. -/
theorem Released.give {slots' : Array Slot} {start : Nat} (hr : slots[offset]? = some (.header r))
    (hin : ∀ k, offset < k → k < offset + 1 + r.words → slots[k]? = some .inner)
    (hlive : ¬r.isLive = true) (hstart : start = run.getD offset) (hle : start ≤ offset)
    (hsize : slots'.size = slots.size)
    (hsame : ∀ k, k ≠ start → k ≠ offset → slots'[k]? = slots[k]?)
    (ih : Released slots' (some start) (offset + 1 + r.words) out) :
    Released slots run offset out := by
  obtain ⟨⟨w, hat⟩, hinner⟩ := ih.joined start rfl
  refine ⟨ih.size.trans hsize, fun k hk => ?_, fun start' hs => ?_, ?_,
    fun o r' ho hr' hl => ?_, fun o r' ho hr' hu => ?_, fun o r' ho hr' => ?_⟩
  · rw [← hstart] at hk
    exact (ih.before k hk).trans (hsame k (by omega) (by omega))
  · obtain rfl : start = start' := by rw [hstart, hs]; rfl
    exact ⟨⟨w, hat⟩, fun k hk hk' => hinner k hk (by omega)⟩
  · rw [← hstart]
    exact ih.tiled
  · rcases Nat.lt_or_ge o (offset + 1 + r.words) with hlo | hge
    · rcases Nat.eq_or_lt_of_le ho with rfl | hgt
      · obtain rfl : r' = r := by simpa [hr] using hr'.symm
        exact absurd hl hlive
      · simp [hin o hgt hlo] at hr'
    · exact ih.kept o r' hge (by rw [hsame o (by omega) (by omega)]; exact hr') hl
  · rcases Nat.lt_or_ge o (offset + 1 + r.words) with hlo | hge
    · rcases Nat.eq_or_lt_of_le (Nat.le_trans hle ho) with rfl | hgt
      · rw [hat] at hr'
        simp only [Option.some.injEq, Slot.header.injEq] at hr'
        rw [← hr'] at hu
        cases hu
      · simp [hinner o hgt hlo] at hr'
    · obtain ⟨r₀, hr₀, hl⟩ := ih.used o r' hge hr' hu
      exact ⟨r₀, by rw [← hsame o (by omega) (by omega)]; exact hr₀, hl⟩
  · rcases Nat.lt_or_ge o (offset + 1 + r.words) with hlo | hge
    · rcases Nat.eq_or_lt_of_le (Nat.le_trans hle ho) with rfl | hgt
      · rw [hat] at hr'
        simp only [Option.some.injEq, Slot.header.injEq] at hr'
        rw [← hr']
      · simp [hinner o hgt hlo] at hr'
    · exact ih.unmarked o r' hge hr'

end Step

theorem getElem?_join_start {slots : Array Slot} {start offset words : Nat}
    (hlt : start < slots.size) :
    (join slots start offset words)[start]?
      = some (.header ⟨offset + words - start, false, false, .blank⟩) := by
  simp [join, hlt]

theorem getElem?_join_offset {slots : Array Slot} {start offset words : Nat}
    (hne : start ≠ offset) (hlt : offset < slots.size) :
    (join slots start offset words)[offset]? = some .inner := by
  simp [join, hne, hlt]

theorem getElem?_join_other {slots : Array Slot} {start offset words k : Nat}
    (hs : k ≠ start) (ho : k ≠ offset) :
    (join slots start offset words)[k]? = slots[k]? := by
  simp [join, hs.symm, ho.symm]

/-- A run with the block behind it joined. -/
theorem FreeRun.join {slots : Array Slot} {start offset words : Nat}
    (hrun : FreeRun slots offset start) (hlt : offset < slots.size)
    (hin : ∀ k, offset < k → k < offset + 1 + words → slots[k]? = some .inner) :
    FreeRun (join slots start offset words) (offset + 1 + words) start := by
  obtain ⟨hbefore, -, hinner⟩ := hrun
  refine ⟨by omega, ?_, fun k hk hk' => ?_⟩
  · rw [getElem?_join_start (by omega)]
    congr 3
    omega
  · rcases Nat.lt_trichotomy k offset with hlt' | rfl | hgt
    · exact (getElem?_join_other (by omega) (by omega)).trans (hinner k hk hlt')
    · exact getElem?_join_offset (by omega) hlt
    · exact (getElem?_join_other (by omega) (by omega)).trans (hin k hgt hk')

/-- Releasing, from the place where a tiling begins. -/
theorem released_releaseFrom {slots : Array Slot} {run : Option Nat} {freed offset : Nat}
    (ht : Tiled slots offset)
    (hrun : ∀ start, run = some start → FreeRun slots offset start) :
    Released slots run offset (releaseFrom slots run freed offset).2 := by
  fun_induction releaseFrom slots run freed offset with
  | case1 slots run freed offset hlt hinner =>
      exact (ht.not_inner (by rw [Array.getElem?_eq_getElem hlt, hinner])).elim
  | case2 slots run freed offset hlt r hr hlive ih =>
      have hr : slots[offset]? = some (.header r) := by rw [Array.getElem?_eq_getElem hlt, hr]
      obtain ⟨hw, hin, hnext⟩ := ht.header hr
      refine .keep hlt hr hw hin hlive hrun (ih (hnext.congr (by simp) fun k hk => ?_) ?_)
      · exact Array.getElem?_set_ne hlt (by omega)
      · intro start hs
        cases hs
  | case3 slots freed offset hlt r hr hlive freed' ih =>
      have hr : slots[offset]? = some (.header r) := by rw [Array.getElem?_eq_getElem hlt, hr]
      obtain ⟨hw, hin, hnext⟩ := ht.header hr
      have hsame : ∀ k, k ≠ offset →
          (slots.set offset (.header ⟨r.words, false, false, .blank⟩))[k]? = slots[k]? :=
        fun k hk => Array.getElem?_set_ne hlt (fun e => hk e.symm)
      refine .give hr hin hlive rfl (Nat.le_refl _) (by simp) (fun k _ hk => hsame k hk)
        (ih (hnext.congr (by simp) fun k hk => hsame k (by omega)) ?_)
      rintro start ⟨⟩
      refine ⟨by omega, ?_, fun k hk hk' => (hsame k (by omega)).trans (hin k hk hk')⟩
      rw [Array.getElem?_set_self]
      congr 3
      omega
  | case4 slots freed offset hlt r hr hlive freed' start ih =>
      have hr : slots[offset]? = some (.header r) := by rw [Array.getElem?_eq_getElem hlt, hr]
      obtain ⟨hw, hin, hnext⟩ := ht.header hr
      have hbefore := (hrun start rfl).1
      refine .give hr hin hlive (rfl : start = (some start).getD offset) (by omega) (size_join ..)
        (fun k hs ho => getElem?_join_other hs ho)
        (ih (hnext.congr (size_join ..) fun k hk => getElem?_join_other (by omega) (by omega)) ?_)
      rintro start' ⟨⟩
      exact (hrun start rfl).join hlt hin
  | case5 slots run freed offset hend => exact .done ht hrun hend

end CellLisp.Arena
