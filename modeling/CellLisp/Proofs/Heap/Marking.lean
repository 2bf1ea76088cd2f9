import CellLisp.Heap.Collect
import Mathlib.Logic.Relation

/-!
# `CellLisp.Proofs.Heap.Marking` — marking finds what the roots lead to

Marking works through a list of values and enters every cell on the way.  Three facts
together say that it ends with the right cells.

| | |
| :-- | :-- |
| `marked_markFrom_sound` | a cell marked on the way is led to by the list |
| `Explored.markFrom` | what a marked cell refers to is marked or still on the list |
| `BlocksMarked.markFrom` | the blocks marked are those of the cells marked |

The second is the invariant of the traversal.  At the end nothing is on the list, so the
marked cells are closed under references and hold everything the roots lead to; cycles
need no case of their own, since a cell is marked before its references are followed.

Marks are the only thing that changes: `plain` is a heap without them, and it stays the
same throughout.

That marking ends is said of its single steps: `MarkStep` has no infinite run on any heap
(`wellFounded_markStep`), and marking is the run of them (`markFrom_run`).
-/

namespace CellLisp

/-! ## A heap without its marks -/

/-- A slot without its mark. -/
def Slot.unmark : Slot → Slot
  | .inner => .inner
  | .header r => .header { r with marked := false }

namespace Arena

theorem record?_eq_some_iff {a : Arena} {o : Nat} {r : BlockRecord} :
    a.record? o = some r ↔ a.slots[o]? = some (.header r) := by
  unfold record?
  split <;> simp_all

theorem record?_mark (a : Arena) (b : Block) (o : Nat) :
    (a.mark b).record? o
      = (a.record? o).map fun r => if b.offset = o then { r with marked := true } else r := by
  simp only [record?, mark, Array.getElem?_modify]
  by_cases ho : b.offset = o
  · subst ho
    cases h : a.slots[b.offset]? with
    | none => simp
    | some s => cases s <;> simp
  · cases h : a.slots[o]? with
    | none => simp [ho]
    | some s => cases s <;> simp [ho]

end Arena

namespace Heap

/-- A heap with every mark taken off. -/
def plain (h : Heap) : Heap :=
  { h with
    marks := #[]
    arena := { h.arena with slots := h.arena.slots.map Slot.unmark } }

@[simp] theorem cell_plain (h : Heap) (i : Nat) : h.plain.cell i = h.cell i := rfl

theorem record?_plain (h : Heap) (o : Nat) :
    h.plain.arena.record? o
      = (h.arena.record? o).map fun r => { r with marked := false } := by
  simp only [plain, Arena.record?, Array.getElem?_map]
  cases h : h.arena.slots[o]? with
  | none => rfl
  | some s => cases s <;> rfl

@[simp] theorem payload_plain (h : Heap) (b : Block) : h.plain.payload b = h.payload b := by
  simp only [payload, Arena.payload, record?_plain]
  cases h.arena.record? b.offset <;> rfl

@[simp] theorem references_plain (h : Heap) (c : Cell) :
    h.plain.references c = h.references c := by
  simp only [references, payload_plain]

/-- Heaps that differ in marks only have the same references. -/
theorem references_congr {h h' : Heap} (e : h'.plain = h.plain) (c : Cell) :
    h'.references c = h.references c := by
  rw [← references_plain h', e, references_plain]

theorem cell_congr {h h' : Heap} (e : h'.plain = h.plain) (i : Nat) : h'.cell i = h.cell i := by
  rw [← cell_plain h', e, cell_plain]

theorem size_congr {h h' : Heap} (e : h'.plain = h.plain) : h'.cells.size = h.cells.size := by
  have hsize : h'.plain.cells.size = h.plain.cells.size := by rw [e]
  exact hsize

theorem limit_congr {h h' : Heap} (e : h'.plain = h.plain) :
    h'.arena.limit = h.arena.limit := by
  have hlimit : h'.plain.arena.limit = h.plain.arena.limit := by rw [e]
  exact hlimit

theorem Reachable.congr {h h' : Heap} (e : h'.plain = h.plain) {rs : List Value} {i : Nat}
    (hi : Reachable h' rs i) : Reachable h rs i := by
  induction hi with
  | root hv hc => exact .root hv hc
  | step _ hv hc ih =>
      rw [cell_congr e, references_congr e] at hv
      exact .step ih hv hc

/-- What leads only to what `rs` leads to adds nothing. -/
theorem Reachable.of_roots {h : Heap} {rs rs' : List Value} {i : Nat}
    (H : ∀ v ∈ rs', ∀ j, v.cell? = some j → Reachable h rs j)
    (hi : Reachable h rs' i) : Reachable h rs i := by
  induction hi with
  | root hv hc => exact H _ hv _ hc
  | step _ hv hc ih => exact .step ih hv hc

theorem Reachable.mono {h : Heap} {rs rs' : List Value} (H : rs ⊆ rs') {i : Nat}
    (hi : Reachable h rs i) : Reachable h rs' i :=
  hi.of_roots fun _ hv _ hc => .root (H hv) hc

/-! ## Entering one cell -/

theorem slots_unmark_mark (a : Arena) (b : Block) :
    (a.mark b).slots.map Slot.unmark = a.slots.map Slot.unmark := by
  refine Array.ext_getElem? fun o => ?_
  simp only [Arena.mark, Array.getElem?_map, Array.getElem?_modify]
  by_cases ho : b.offset = o
  · subst ho
    cases a.slots[b.offset]? with
    | none => simp
    | some s => cases s <;> simp [Slot.unmark]
  · simp [ho]

theorem plain_markBlock (h : Heap) (c : Cell) : (h.markBlock c).plain = h.plain := by
  unfold markBlock
  cases c.block? with
  | none => rfl
  | some b =>
      have hs := slots_unmark_mark h.arena b
      simp only [plain, hs]
      rfl

theorem plain_enter (h : Heap) (i : Nat) : (h.enter i).plain = h.plain :=
  (plain_markBlock _ _).trans rfl

theorem marks_enter (h : Heap) (i : Nat) :
    (h.enter i).marks = h.marks.setIfInBounds i true := by
  simp [enter]

@[simp] theorem size_marks_enter (h : Heap) (i : Nat) :
    (h.enter i).marks.size = h.marks.size := by
  simp [marks_enter]

theorem marked_enter (h : Heap) {i : Nat} (hi : i < h.marks.size) (j : Nat) :
    (h.enter i).marked j = true ↔ h.marked j = true ∨ j = i := by
  simp only [marked, marks_enter, Array.getD_eq_getD_getElem?, Array.getElem?_setIfInBounds]
  grind

/-! ## Following a work list -/

theorem plain_markFrom (h : Heap) (work : List Value) : (h.markFrom work).plain = h.plain := by
  fun_induction markFrom h work with
  | case1 h => rfl
  | case2 h v work _ ih => exact ih
  | case3 h v work i _ hi hf ih => exact ih
  | case4 h v work i _ hi hf next ih => exact ih.trans (plain_enter h i)
  | case5 h v work i _ hi ih => exact ih

@[simp] theorem size_marks_markFrom (h : Heap) (work : List Value) :
    (h.markFrom work).marks.size = h.marks.size := by
  fun_induction markFrom h work with
  | case1 h => rfl
  | case2 h v work _ ih => exact ih
  | case3 h v work i _ hi hf ih => exact ih
  | case4 h v work i _ hi hf next ih => rw [ih, size_marks_enter]
  | case5 h v work i _ hi ih => exact ih

/-- Marking takes no mark off. -/
theorem marked_markFrom_of_marked {h : Heap} {work : List Value} {j : Nat}
    (hj : h.marked j = true) : (h.markFrom work).marked j = true := by
  fun_induction markFrom h work with
  | case1 h => exact hj
  | case2 h v work _ ih => exact ih hj
  | case3 h v work i _ hi hf ih => exact ih hj
  | case4 h v work i _ hi hf next ih => exact ih ((marked_enter h hi j).2 (.inl hj))
  | case5 h v work i _ hi ih => exact ih hj

/-- Only cells that the list leads to are marked. -/
theorem marked_markFrom_sound {h : Heap} {work : List Value} {j : Nat}
    (hj : (h.markFrom work).marked j = true) : h.marked j = true ∨ h.Reachable work j := by
  fun_induction markFrom h work with
  | case1 h => exact .inl hj
  | case2 h v work _ ih => exact (ih hj).imp_right (·.mono (by simp))
  | case3 h v work i _ hi hf ih => exact (ih hj).imp_right (·.mono (by simp))
  | case5 h v work i _ hi ih => exact (ih hj).imp_right (·.mono (by simp))
  | case4 h v work i hv hi hf next ih =>
      have hroot : h.Reachable (v :: work) i := .root (by simp) hv
      rcases ih hj with hm | hr
      · rcases (marked_enter h hi j).1 hm with hm | rfl
        · exact .inl hm
        · exact .inr hroot
      · refine .inr ((hr.congr (plain_enter h i)).of_roots ?_)
        intro w hw k hk
        rcases List.mem_append.1 hw with hw | hw
        · exact .step hroot hw hk
        · exact .root (List.mem_cons_of_mem _ hw) hk

/-- Every cell on the list is marked in the end. -/
theorem marked_markFrom_of_mem {h : Heap} {work : List Value} {w : Value} {j : Nat}
    (hw : w ∈ work) (hc : w.cell? = some j) (hj : j < h.marks.size) :
    (h.markFrom work).marked j = true := by
  fun_induction markFrom h work with
  | case1 h => cases hw
  | case2 h v work hv ih =>
      rcases List.mem_cons.1 hw with rfl | hw
      · rw [hv] at hc; cases hc
      · exact ih hw hj
  | case3 h v work i hv hi hf ih =>
      rcases List.mem_cons.1 hw with rfl | hw
      · obtain rfl : i = j := by rw [hv] at hc; exact Option.some.inj hc
        exact marked_markFrom_of_marked (by simpa [marked, hi] using hf)
      · exact ih hw hj
  | case4 h v work i hv hi hf next ih =>
      rcases List.mem_cons.1 hw with rfl | hw
      · obtain rfl : i = j := by rw [hv] at hc; exact Option.some.inj hc
        exact marked_markFrom_of_marked ((marked_enter h hi i).2 (.inr rfl))
      · exact ih (List.mem_append_right _ hw) (by simpa using hj)
  | case5 h v work i hv hi ih =>
      rcases List.mem_cons.1 hw with rfl | hw
      · obtain rfl : i = j := by rw [hv] at hc; exact Option.some.inj hc
        exact absurd hj hi
      · exact ih hw hj

/-- The invariant of the traversal: what a marked cell refers to is marked, or a value on
the list refers to it. -/
def Explored (h : Heap) (work : List Value) : Prop :=
  ∀ i, h.marked i = true → ∀ v ∈ h.references (h.cell i), ∀ j, v.cell? = some j →
    j < h.marks.size → h.marked j = true ∨ ∃ w ∈ work, w.cell? = some j

/-- The first value of the list can go once what it refers to is marked, or nothing. -/
theorem Explored.tail {h : Heap} {v : Value} {work : List Value} (he : h.Explored (v :: work))
    (hv : ∀ j, v.cell? = some j → j < h.marks.size → h.marked j = true) : h.Explored work := by
  intro i hi w hw j hj hlt
  rcases he i hi w hw j hj hlt with hm | ⟨u, hu, huj⟩
  · exact .inl hm
  · rcases List.mem_cons.1 hu with rfl | hu
    · exact .inl (hv j huj hlt)
    · exact .inr ⟨u, hu, huj⟩

/-- Entering the cell of the first value puts that cell's references on the list. -/
theorem Explored.enter {h : Heap} {v : Value} {work : List Value} {i : Nat}
    (he : h.Explored (v :: work)) (hv : v.cell? = some i) (hi : i < h.marks.size) :
    (h.enter i).Explored (h.references (h.cell i) ++ work) := by
  intro k hk w hw j hj hlt
  rw [cell_congr (plain_enter h i), references_congr (plain_enter h i)] at hw
  rw [size_marks_enter] at hlt
  rcases (marked_enter h hi k).1 hk with hk | rfl
  · rcases he k hk w hw j hj hlt with hm | ⟨u, hu, huj⟩
    · exact .inl ((marked_enter h hi j).2 (.inl hm))
    · rcases List.mem_cons.1 hu with rfl | hu
      · obtain rfl : i = j := by rw [hv] at huj; exact Option.some.inj huj
        exact .inl ((marked_enter h hi i).2 (.inr rfl))
      · exact .inr ⟨u, List.mem_append_right _ hu, huj⟩
  · exact .inr ⟨w, List.mem_append_left _ hw, hj⟩

/-- At the end of the traversal the marked cells are closed under references. -/
theorem Explored.markFrom {h : Heap} {work : List Value} (he : h.Explored work) :
    (h.markFrom work).Explored [] := by
  fun_induction Heap.markFrom h work with
  | case1 h => exact he
  | case2 h v work hv ih =>
      exact ih (he.tail fun j hj => by rw [hv] at hj; cases hj)
  | case3 h v work i hv hi hf ih =>
      refine ih (he.tail fun j hj _ => ?_)
      obtain rfl : i = j := by rw [hv] at hj; exact Option.some.inj hj
      simpa [marked, hi] using hf
  | case4 h v work i hv hi hf next ih => exact ih (he.enter hv hi)
  | case5 h v work i hv hi ih =>
      refine ih (he.tail fun j hj hlt => ?_)
      obtain rfl : i = j := by rw [hv] at hj; exact Option.some.inj hj
      exact absurd hlt hi

/-- A closed set of marked cells that holds the roots holds all that they lead to. -/
theorem marked_of_reachable {h : Heap} {rs : List Value} (hsize : h.marks.size = h.cells.size)
    (he : h.Explored []) (hroots : ∀ v ∈ rs, ∀ j, v.cell? = some j → j < h.marks.size →
      h.marked j = true) {i : Nat} (hr : h.Reachable rs i) (hi : i < h.marks.size) :
    h.marked i = true := by
  induction hr with
  | root hv hc => exact hroots _ hv _ hc hi
  | @step i j v _ hv hc ih =>
      have hin : i < h.marks.size := by
        refine Nat.lt_of_not_le fun hout => ?_
        -- outside the pool nothing is referred to
        have hcell : h.cell i = .free 0 := by
          simp only [Heap.cell, Array.getD_eq_getD_getElem?]
          rw [Array.getElem?_eq_none (by omega)]
          rfl
        rw [hcell] at hv
        simp [references, Cell.block?, Cell.values] at hv
      rcases he i (ih hin) v hv j hc hi with hm | ⟨w, hw, -⟩
      · exact hm
      · cases hw

/-! ## Marking ends -/

/-- One step of marking, on a heap and the values still to be followed. -/
inductive MarkStep : Heap × List Value → Heap × List Value → Prop
  /-- A value that refers to no cell, or to one that is marked or outside the pool, is
  left out. -/
  | skip {h : Heap} {v : Value} {work : List Value} :
      (∀ i, v.cell? = some i → i < h.marks.size → h.marked i = true) →
      MarkStep (h, v :: work) (h, work)
  /-- Any other cell is entered. -/
  | enter {h : Heap} {v : Value} {work : List Value} {i : Nat} :
      v.cell? = some i → i < h.marks.size → h.marked i = false →
      MarkStep (h, v :: work) (h.enter i, h.references (h.cell i) ++ work)

/-- The cells without a mark and the length of the list, which a step makes less. -/
def markMeasure (p : Heap × List Value) : Nat × Nat := (p.1.marks.count false, p.2.length)

theorem markMeasure_lt_of_markStep {p q : Heap × List Value} (hs : MarkStep p q) :
    Prod.Lex (· < ·) (· < ·) (markMeasure q) (markMeasure p) := by
  cases hs with
  | skip _ => exact Prod.Lex.right _ (Nat.lt_succ_self _)
  | @enter h v work i _ hi hm =>
      refine Prod.Lex.left _ _ (h.count_false_enter hi fun hmarked => ?_)
      simp [marked, hi, hmarked] at hm

/-- Marking ends on every heap, whatever cycles it has. -/
theorem wellFounded_markStep : WellFounded fun p q : Heap × List Value => MarkStep q p :=
  Subrelation.wf (fun hs => markMeasure_lt_of_markStep hs)
    (InvImage.wf markMeasure (Prod.lex ⟨_, Nat.lt_wfRel.wf⟩ ⟨_, Nat.lt_wfRel.wf⟩).wf)

/-- Marking is a run of its steps until nothing is left to follow. -/
theorem markFrom_run (h : Heap) (work : List Value) :
    Relation.ReflTransGen MarkStep (h, work) (h.markFrom work, []) := by
  fun_induction Heap.markFrom h work with
  | case1 h => exact .refl
  | case2 h v work hv ih =>
      exact .head (.skip fun j hj _ => by rw [hv] at hj; cases hj) ih
  | case3 h v work i hv hi hf ih =>
      refine .head (.skip fun j hj _ => ?_) ih
      obtain rfl : i = j := by rw [hv] at hj; exact Option.some.inj hj
      simpa [marked, hi] using hf
  | case4 h v work i hv hi hf next ih =>
      exact .head (.enter hv hi (by simpa [marked, hi] using hf)) ih
  | case5 h v work i hv hi ih =>
      refine .head (.skip fun j hj hlt => ?_) ih
      obtain rfl : i = j := by rw [hv] at hj; exact Option.some.inj hj
      exact absurd hlt hi

/-! ## Blocks -/

/-- The marked blocks are those at the offsets in `P` and those of marked cells. -/
def BlocksMarked (h : Heap) (P : Nat → Prop) : Prop :=
  ∀ o r, h.arena.record? o = some r →
    (r.marked = true ↔ P o ∨ ∃ i, h.marked i = true ∧ (h.cell i).block? = some ⟨o⟩)

theorem record?_markBlock (h : Heap) (c : Cell) (o : Nat) :
    (h.markBlock c).arena.record? o = (h.arena.record? o).map fun r =>
      if c.block? = some ⟨o⟩ then { r with marked := true } else r := by
  unfold markBlock
  cases hb : c.block? with
  | none => simp
  | some b =>
      obtain ⟨b⟩ := b
      simp only [Arena.record?_mark, Option.some.injEq, Block.mk.injEq]

theorem marked_of_record?_markBlock {h : Heap} {c : Cell} {o : Nat} {r : BlockRecord}
    (hr : (h.markBlock c).arena.record? o = some r) :
    ∃ r₀, h.arena.record? o = some r₀ ∧
      (r.marked = true ↔ c.block? = some ⟨o⟩ ∨ r₀.marked = true) := by
  rw [record?_markBlock, Option.map_eq_some_iff] at hr
  obtain ⟨r₀, hr₀, rfl⟩ := hr
  refine ⟨r₀, hr₀, ?_⟩
  split <;> simp_all

theorem BlocksMarked.enter {h : Heap} {P : Nat → Prop} (hb : h.BlocksMarked P) {i : Nat}
    (hi : i < h.marks.size) : (h.enter i).BlocksMarked P := by
  intro o r hr
  obtain ⟨r₀, hr₀, hiff⟩ := marked_of_record?_markBlock hr
  rw [hiff, hb o r₀ hr₀]
  simp only [marked_enter h hi, cell_congr (plain_enter h i)]
  constructor
  · rintro (hblock | hp | ⟨k, hk, hkb⟩)
    · exact .inr ⟨i, .inr rfl, hblock⟩
    · exact .inl hp
    · exact .inr ⟨k, .inl hk, hkb⟩
  · rintro (hp | ⟨k, hk | rfl, hkb⟩)
    · exact .inr (.inl hp)
    · exact .inr (.inr ⟨k, hk, hkb⟩)
    · exact .inl hkb

/-- Every cell is marked together with its block. -/
theorem BlocksMarked.markFrom {h : Heap} {P : Nat → Prop} {work : List Value}
    (hb : h.BlocksMarked P) : (h.markFrom work).BlocksMarked P := by
  fun_induction Heap.markFrom h work with
  | case1 h => exact hb
  | case2 h v work _ ih => exact ih hb
  | case3 h v work i _ hi hf ih => exact ih hb
  | case4 h v work i _ hi hf next ih => exact ih (hb.enter hi)
  | case5 h v work i _ hi ih => exact ih hb

end Heap
end CellLisp
