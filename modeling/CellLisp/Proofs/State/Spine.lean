import CellLisp.Proofs.State.Reader

/-!
# `CellLisp.Proofs.State.Spine` — the list of all forms of a text

The pairs of the list that `readAll` builds are the system's own: no program gets hold of one, so
they stay as they are whatever lists programs change.

| | |
| :-- | :-- |
| `Spine` | a list of good values in hidden pairs |
| `Spine.stable` | it is so for good, if it is found from a protected value |
| `leads_readAll` | the forms of a text are such a list |
-/

namespace CellLisp

/-- A list whose pairs are hidden. -/
inductive Spine (w : System) : Value → Prop
  | nil : Spine w .nil
  | cons {i : Nat} {head tail : Value} : i ≠ 0 → w.plans i = some .hidden →
      w.heap.cell i = .pair head tail → Spine w tail → Spine w (.ref .pair i)

section Spine

variable {m : Mode} {d : Nat} {w w' : System} {u v head tail : Value}

theorem Spine.holds (h : Spine w v) : w.heap.Holds v := by
  cases h with
  | nil => exact holds_nil _
  | cons hi _ hc _ =>
      rintro _ _ ⟨⟩ -
      rw [hc]
      exact ⟨rfl, rfl⟩

/-- The elements of such a list are good. -/
theorem System.good_of_hidden {i : Nat} (hc : w.heap.cell i = .pair head tail) : w.Good head := by
  refine ⟨?_, ?_⟩
  · have hsound := w.typed.heap.wf.sound i (by rw [hc]; rfl)
    refine hsound.values head ?_
    rw [hc]
    simp [Heap.references, Cell.block?, Cell.values]
  · have ht := w.typed.cells i
    unfold CellTyped ContentsOk at ht
    simp only [show w.state.heap.cell i = _ from hc] at ht
    exact ht.1

/-- The first element, and the list behind it. -/
theorem Spine.uncons (h : Spine w v) (hp : w.heap.pair? v = some (head, tail)) :
    w.Good head ∧ Spine w tail ∧ ∀ u, Along w u v → Along w u tail := by
  cases h with
  | nil => cases hp
  | @cons i a b hi hplan hc htail =>
      obtain ⟨rfl, rfl⟩ : a = head ∧ b = tail := by
        simpa [Heap.pair?, hc] using hp
      exact ⟨System.good_of_hidden hc, htail, fun u hu => .step hu hi hplan hc⟩

/-- Hidden pairs that are kept are still such a list. -/
theorem Spine.kept (h : Spine w v) (hu : Along w u v) (hkept : KeepsAlong w w' u) :
    Spine w' v := by
  induction h with
  | nil => exact .nil
  | cons hi hplan hc _ ih =>
      obtain ⟨hc', hplan'⟩ := hkept _ _ _ hu hi hplan hc
      exact .cons hi hplan' hc' (ih (.step hu hi hplan hc))

theorem Spine.stable (h : Spine w v) (hu : Along w u v) (ha : Anchored m d w.state u)
    (hs : Stable m d w w') : Spine w' v ∧ Along w' u v :=
  ⟨h.kept hu (hs.along u ha), hu.congr (hs.along u ha)⟩

theorem Spine.grown {A : List Value} (h : Spine w v) (hv : v ∈ A) (hg : Grown A w w') :
    Spine w' v := by
  refine h.kept .refl fun i head tail hi hne hplan hc => ?_
  have hr : w.heap.Reachable (w.state.rootValues ++ A) i :=
    hi.reachable (fun _ hj => .root (List.mem_append_right _ hv) hj)
      (Value.cell?_eq_some_iff.2 ⟨_, rfl, hne⟩)
  exact ⟨(hg.kept.cell i hr).trans hc, (hg.plans i hr).trans hplan⟩

/-- Other protected values make no difference. -/
theorem Spine.rooted {roots : Array Value} (h : Spine w v)
    (hr : ∀ u ∈ roots.toList, w.heap.Holds u) : Spine (w.rooted roots hr) v :=
  h.kept (u := v) .refl fun _ _ _ _ _ hplan hc => ⟨hc, hplan⟩

/-! ## Reading -/

/-- A pair of such a list. -/
theorem leads_consHidden (hhead : w.Good head) (htail : Spine w tail) :
    Leads (Grown [head, tail]) (cons head tail) w fun v w' => Spine w' v := by
  have hrefs : w.heap.references (.pair head tail) = [head, tail] := rfl
  have htyped : Proper w.plans tail ∨ some Plan.hidden = some .hidden ∧ Hidden w.plans tail := by
    cases htail with
    | nil => exact .inl proper_nil
    | cons hi hplan _ _ => exact .inr ⟨rfl, _, rfl, hi, hplan⟩
  have hs : w.Storable (some .hidden) (.pair head tail) := by
    refine ⟨Heap.placeable_of_values rfl rfl fun v hv => ?_, hhead.proper, htyped⟩
    obtain rfl | rfl : v = head ∨ v = tail := by simpa [Cell.values] using hv
    · exact hhead.holds
    · exact htail.holds
  have halloc := leads_allocCell hs rfl
  rw [hrefs] at halloc
  refine Leads.mono halloc ?_
  rintro v w' hg hplaced
  obtain ⟨i, hi, rfl, hcell, hplan, -⟩ := hplaced.exists_index
  exact .cons hi hplan hcell (htail.grown (by simp) hg)

/-- Protected values in front of such a list. -/
theorem leads_consRootsHidden {base n : Nat} (hr : w.Rooted d) (hd : d ≤ base)
    (ht : Spine w tail) :
    Leads (Stable m d) (consRoots base n tail) w fun v w' => Spine w' v := by
  induction n generalizing w tail with
  | zero => exact Leads.pure ht
  | succ n ih =>
      refine Leads.bind (Leads.gets (Q := fun v w' => w = w' ∧ v = w.state.roots.getD (base + n) .nil)
        ⟨rfl, rfl⟩) ?_
      rintro _ _ - ⟨rfl, rfl⟩
      refine Leads.bindFrom (leads_consHidden (System.good_getD hr (by omega)) ht)
        (fun _ hg => hg.stable) ?_
      rintro v w₁ hg hv
      exact (ih (hr.grown hg) hv).weaken fun _ hs => Follows.trans hg.stable hs

/-- All forms of a text. -/
theorem leads_readAll (text : String) (hd : d ≤ w.state.roots.size) :
    Leads (Stable m d) (readAll text) w fun v w' => Spine w' v := by
  refine Leads.withRoots (Q := fun v w' => Spine w' v) ?_ hd fun _ w' _ hv => hv.rooted _
  refine Leads.bind (Leads.gets (Q := fun n w' => w = w' ∧ n = w.state.roots.size) ⟨rfl, rfl⟩) ?_
  rintro _ _ - ⟨rfl, rfl⟩
  have h : Leads (Stable m w.state.roots.size) (Reader.all (Token.ofString text) []) w
      fun _ w' => w'.Rooted w.state.roots.size := leads_all w.rooted_size (by simp [Reader.FramesOk])
  refine Leads.bind (h.weaken fun _ hs => hs.of_le hd) ?_
  rintro _ w₁ - hr
  unfold listFromRoots
  refine Leads.bind (Leads.gets (Q := fun _ w' => w₁ = w') rfl) ?_
  rintro n _ - rfl
  exact (leads_consRootsHidden hr (Nat.le_refl _) .nil).weaken fun _ hs => hs.of_le hd

end Spine

end CellLisp
