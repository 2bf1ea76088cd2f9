import CellLisp.Proofs.State.Order
import CellLisp.Proofs.Syntax.Denotes
import CellLisp.Proofs.Syntax.Frames

/-!
# `CellLisp.Proofs.Syntax.Elements` — the trees an open list holds

A value that is kept stays the tree that it is, so in an open list the elements read so far are
protected values that are the trees read so far (`State.Elements`), and the list that is made of
them in the end is the list of these trees (`gives_close`).
-/

namespace CellLisp

/-- A state in order in which the system knows the symbol that quotes. -/
structure State.Ready (s : State) : Prop extends State.InOrder s where
  quote : s.findSymbol? "quote" = some s.known.quote

namespace State

variable {s s' : State} {A : List Value} {v : Value} {d : Datum}

theorem Ready.onward (hs : s.Ready) (h : s.Onward A s') : s'.Ready :=
  ⟨h.order, by rw [h.known]; exact h.interned _ _ hs.quote⟩

theorem Ready.with_roots (hs : s.Ready) {r : Array Value} (hr : ∀ v ∈ r, s.heap.Holds v) :
    Ready { s with roots := r } :=
  ⟨hs.toInOrder.with_roots hr, hs.quote⟩

/-! ## Trees stay what they are -/

/-- A value that is kept stays the tree that it is. -/
theorem Denotes.onward (hd : s.Denotes v d) (hs : s.InOrder) (h : s.Onward A s')
    (hv : s.heap.Reaches (s.rootValues ++ A) v) : s'.Denotes v d := by
  have hz := hs.isFree_zero
  have hz' := h.order.isFree_zero
  induction hd with
  | nil => exact .nil
  | int i => exact .int i
  | float x => exact .float x
  | symbol hf => exact .symbol (h.interned _ _ hf)
  | string ht => exact .string ((h.kept.text? hz hz' hv).trans ht)
  | pair hp _ _ iha ihb =>
      obtain ⟨hhead, htail⟩ := hv.pair hz hp
      exact .pair ((h.kept.pair? hz hz' hv).trans hp) (iha hhead) (ihb htail)

/-- Protected values make no difference to what a value is. -/
theorem Denotes.with_roots (hd : s.Denotes v d) (r : Array Value) :
    Denotes { s with roots := r } v d := by
  induction hd with
  | nil => exact .nil
  | int i => exact .int i
  | float x => exact .float x
  | symbol hf => exact .symbol hf
  | string ht => exact .string ht
  | pair hp _ _ iha ihb => exact .pair hp iha ihb

/-- A value that is a tree refers to what is there. -/
theorem Denotes.holds (hd : s.Denotes v d) : s.heap.Holds v := by
  rintro tag i rfl -
  generalize hv : Value.ref tag i = v at hd
  cases hd with
  | nil | int => cases hv
  | float x => cases hv
  | symbol hf =>
      subst hv
      obtain ⟨k, hf⟩ := findSymbol?_eq_some_iff.1 hf
      obtain ⟨hsym, r, hr, -⟩ := hf.answers
      obtain ⟨j, hj, -, hc⟩ := Heap.symbol_of_symbol? hsym hr
      cases hj
      rw [hc]
      exact ⟨rfl, rfl⟩
  | string ht =>
      subst hv
      obtain ⟨j, b, hj, hc, -⟩ := Heap.string_of_text? ht
      cases hj
      rw [hc]
      exact ⟨rfl, rfl⟩
  | pair hp =>
      subst hv
      obtain ⟨j, hj, hc⟩ := Heap.pair_of_pair? hp
      cases hj
      rw [hc]
      exact ⟨rfl, rfl⟩

/-! ## Elements of an open list -/

/-- The protected values at a place and above are the trees. -/
structure Elements (s : State) (base : Nat) (es : List Datum) : Prop where
  size : s.roots.size = base + es.length
  denotes : ∀ k e, es[k]? = some e → s.Denotes (s.roots.getD (base + k) .nil) e

theorem getD_mem_rootValues {k : Nat} (hk : k < s.roots.size) :
    s.roots.getD k .nil ∈ s.rootValues := by
  rw [Array.getD_eq_getD_getElem?, Array.getElem?_eq_getElem hk]
  exact mem_rootValues_of_roots (Array.getElem_mem hk)

theorem Elements.lt_size {base k : Nat} {es : List Datum} {e : Datum} (he : s.Elements base es)
    (hk : es[k]? = some e) : base + k < s.roots.size := by
  have hlt := (List.getElem?_eq_some_iff.1 hk).1
  have := he.size
  omega

theorem Elements.onward {base : Nat} {es : List Datum} (he : s.Elements base es)
    (hs : s.InOrder) (h : s.Onward A s') : s'.Elements base es := by
  refine ⟨by rw [h.roots]; exact he.size, fun k e hk => ?_⟩
  rw [h.roots]
  refine (he.denotes k e hk).onward hs h (Heap.reaches_of_mem (List.mem_append_left _ ?_))
  exact getD_mem_rootValues (he.lt_size hk)

theorem shrink_size (s : State) : { s with roots := s.roots.shrink s.roots.size } = s := by
  have h : s.roots.shrink s.roots.size = s.roots := Array.ext' (by simp)
  rw [h]

theorem elements_nil (s : State) : s.Elements s.roots.size [] :=
  ⟨rfl, fun k e hk => by simp at hk⟩

/-- One more element. -/
theorem Elements.push {base : Nat} {es : List Datum} (he : s.Elements base es)
    (hd : s.Denotes v d) :
    Elements { s with roots := s.roots.push v } base (es ++ [d]) := by
  refine ⟨by simp [he.size, Nat.add_assoc], fun k e hk => ?_⟩
  show Denotes _ ((s.roots.push v).getD (base + k) .nil) e
  rw [Array.getD_eq_getD_getElem?, Array.getElem?_push, he.size]
  rcases Nat.lt_trichotomy k es.length with hlt | rfl | hgt
  · rw [List.getElem?_append_left hlt] at hk
    have := (he.denotes k e hk).with_roots (s.roots.push v)
    rwa [if_neg (by omega), ← Array.getD_eq_getD_getElem?]
  · simp only [List.getElem?_append_right (Nat.le_refl _), Nat.sub_self, List.getElem?_cons_zero,
      Option.some.injEq] at hk
    subst hk
    simpa using hd.with_roots (s.roots.push v)
  · rw [List.getElem?_eq_none (by simp; omega)] at hk
    cases hk

end State

/-! ## Completing a list -/

section Close

open Reader

variable {E : Error → Prop} {s : State} {base : Nat} {es : List Datum} {tail : Value} {d : Datum}

/-- Protected values in front of a list. -/
theorem gives_consRoots {n : Nat} (hs : s.InOrder) (he : s.Elements base es) (hn : n ≤ es.length)
    (hd : s.Denotes tail d) :
    Gives E (consRoots base n tail) s fun w s' =>
      s.Onward [] s' ∧ s'.Denotes w ((es.take n).foldr .pair d) := by
  induction n generalizing s tail d with
  | zero => exact .pure ⟨.refl hs, hd⟩
  | succ n ih =>
      have hlt : n < es.length := hn
      have hget : es[n]? = some es[n] := List.getElem?_eq_getElem hlt
      have hhead := he.denotes n _ hget
      refine Gives.bind (Q := fun v s' => v = s.roots.getD (base + n) .nil ∧ s = s')
        (.gets ⟨rfl, rfl⟩) ?_
      rintro _ _ ⟨rfl, rfl⟩
      refine Gives.bind (gives_cons hs hhead.holds hd.holds) ?_
      rintro v s₁ ⟨hon, hp⟩
      have hon := hon.toOnward
      have hpair : s₁.Denotes v (.pair es[n] d) :=
        .pair hp (hhead.onward hs hon (Heap.reaches_of_mem (by simp)))
          (hd.onward hs hon (Heap.reaches_of_mem (by simp)))
      have hnil := hon.mono (List.nil_subset _)
      refine (ih hon.order (he.onward hs hon) (Nat.le_of_lt hlt) hpair).mono ?_
      rintro w s₂ ⟨hon₂, hw⟩
      refine ⟨hnil.trans hon₂, ?_⟩
      rw [List.take_succ_eq_append_getElem hlt, List.foldr_append]
      exact hw

/-- A list of the elements. -/
theorem gives_listFromRoots (hs : s.InOrder) (he : s.Elements base es) (hd : s.Denotes tail d) :
    Gives E (listFromRoots base tail) s fun w s' =>
      s.Onward [] s' ∧ s'.Denotes w (es.foldr .pair d) := by
  refine Gives.bind (Q := fun n s' => n = es.length ∧ s = s') (.gets ⟨?_, rfl⟩) ?_
  · rw [he.size]
    omega
  · rintro _ _ ⟨rfl, rfl⟩
    have h := gives_consRoots (E := E) (n := es.length) hs he (Nat.le_refl _) hd
    rwa [List.take_length] at h

/-- A list is completed and goes to the construct it belongs to. -/
theorem gives_close {β : Type} {fs : List Reader.Frame} {next : Outcome → Act β} {Q : β → State → Prop}
    (hs : s.Ready) (he : s.Elements base es) (hd : s.Denotes tail d)
    (hk : ∀ w s', State.Onward [] { s with roots := s.roots.shrink base } s' →
      s'.Denotes w (es.foldr .pair d) → Gives E (deliver w fs >>= next) s' Q) :
    Gives E (close base tail fs >>= next) s Q := by
  rw [close, bind_assoc]
  refine Gives.bind (gives_listFromRoots hs.toInOrder he hd) ?_
  rintro w s₁ ⟨hon, hw⟩
  rw [bind_assoc]
  refine Gives.bind (Q := fun _ s' => { s₁ with roots := s₁.roots.shrink base } = s')
    (.modify rfl) ?_
  rintro _ _ rfl
  exact hk w _ (hon.shrink base) (hw.with_roots _)

end Close

end CellLisp
