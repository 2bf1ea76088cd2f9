import CellLisp.Proofs.Heap.Orderly
import CellLisp.Symbols
import Mathlib.Data.Fintype.Card

/-!
# `CellLisp.Proofs.State.Chain` — views of a heap that is kept, and chains of symbols

What a value is seen to be depends on the cell and the block that it leads to, so it is the same
in a heap in which these are kept.  A chain of symbols that ends in a symbol passes no cell
twice, so the symbol is found within as many steps as the pool has cells: where the search ends
does not matter (`State.findSymbol?_eq_some_iff`).
-/

namespace CellLisp

/-! ## Views -/

namespace Heap

section

variable {h h' : Heap} {A B : List Value}

theorem symbol_of_symbol? {v : Value} {r : Symbol} (hv : v.isSymbol = true) (hr : h.symbol? v = some r) :
    ∃ i, v = .ref .symbol i ∧ i ≠ 0 ∧ h.cell i = .symbol r := by
  cases v with
  | ref tag i =>
      cases tag <;> try cases hv
      simp only [symbol?, Value.cell?] at hr
      by_cases hi : i = 0
      · simp [hi] at hr
      · simp only [hi, if_false] at hr
        refine ⟨i, rfl, hi, ?_⟩
        cases hc : h.cell i with
        | symbol r' => rw [hc] at hr; simpa using hr
        | _ => rw [hc] at hr; cases hr
  | _ => cases hv

theorem pair_of_pair? {v head tail : Value} (hp : h.pair? v = some (head, tail)) :
    ∃ i, v = .ref .pair i ∧ h.cell i = .pair head tail := by
  cases v with
  | ref tag i =>
      cases tag <;> first | cases hp | skip
      simp only [pair?] at hp
      cases hc : h.cell i with
      | pair a b =>
          simp only [hc, Option.some.injEq, Prod.mk.injEq] at hp
          obtain ⟨rfl, rfl⟩ := hp
          exact ⟨i, rfl, hc⟩
      | _ => rw [hc] at hp; cases hp
  | _ => cases hp

theorem string_of_text? {v : Value} {text : String} (ht : h.text? v = some text) :
    ∃ i b, v = .ref .object i ∧ h.cell i = .string b ∧ (h.payload b).string = text := by
  cases v with
  | ref tag i =>
      cases tag <;> first | cases ht | skip
      simp only [text?, Value.object?] at ht
      cases hc : h.cell i with
      | string b =>
          simp only [hc, Option.some.injEq] at ht
          exact ⟨i, b, rfl, hc, ht⟩
      | _ => rw [hc] at ht; cases ht
  | _ => cases ht

theorem pair?_of_isSymbol {v : Value} (hv : v.isSymbol = true) :
    h.pair? v = none := by
  cases v with
  | ref tag i => cases tag <;> first | rfl | cases hv
  | _ => rfl

theorem text?_of_isSymbol {v : Value} (hv : v.isSymbol = true) :
    h.text? v = none := by
  cases v with
  | ref tag i => cases tag <;> first | rfl | cases hv
  | _ => rfl

/-- The cell that a value refers to is led to. -/
def Reaches (h : Heap) (A : List Value) (v : Value) : Prop :=
  ∀ i, v.cell? = some i → h.Reachable A i

variable {v head tail : Value}

theorem reaches_of_mem (hv : v ∈ A) : h.Reaches A v := fun _ hi => .root hv hi

theorem Reaches.mono (hv : h.Reaches A v) (H : A ⊆ B) : h.Reaches B v :=
  fun i hi => (hv i hi).mono H

theorem Kept.reaches (hk : Kept A h h') (hv : h.Reaches A v) : h'.Reaches A v :=
  fun i hi => hk.reachable (hv i hi)

/-- What a cell that is led to refers to is led to. -/
theorem reaches_of_references {u : Value} {i : Nat} (hu : h.Reaches A u) (hi : u.cell? = some i)
    (hv : v ∈ h.references (h.cell i)) : h.Reaches A v :=
  fun _ hj => .step (hu i hi) hv hj

theorem cell?_of_isFree_eq_false (hz : (h.cell 0).isFree = true) {tag : Tag} {i : Nat}
    (hi : (h.cell i).isFree = false) : (Value.ref tag i).cell? = some i := by
  refine Value.cell?_eq_some_iff.2 ⟨tag, rfl, ?_⟩
  rintro rfl
  rw [hz] at hi
  cases hi

theorem Reaches.pair (hz : (h.cell 0).isFree = true) (hv : h.Reaches A v)
    (hp : h.pair? v = some (head, tail)) : h.Reaches A head ∧ h.Reaches A tail := by
  obtain ⟨i, rfl, hc⟩ := pair_of_pair? hp
  have hi := @cell?_of_isFree_eq_false _ hz .pair i (by rw [hc]; rfl)
  constructor <;> refine reaches_of_references hv hi ?_ <;>
    simp [references, hc, Cell.block?, Cell.values]

/-- What a kept value is seen to be is what it was seen to be. -/
theorem Kept.pair? (hz : (h.cell 0).isFree = true) (hz' : (h'.cell 0).isFree = true)
    (hk : Kept A h h') (hv : h.Reaches A v) : h'.pair? v = h.pair? v := by
  cases v with
  | ref tag i =>
      cases tag <;> try rfl
      by_cases hi : i = 0
      · subst hi
        simp only [Heap.pair?]
        cases hc : h.cell 0 <;> cases hc' : h'.cell 0 <;> first | rfl | simp_all [Cell.isFree]
      · simp only [Heap.pair?, hk.cell i (hv i (Value.cell?_eq_some_iff.2 ⟨_, rfl, hi⟩))]
  | _ => rfl

theorem Kept.text? (hz : (h.cell 0).isFree = true) (hz' : (h'.cell 0).isFree = true)
    (hk : Kept A h h') (hv : h.Reaches A v) : h'.text? v = h.text? v := by
  cases v with
  | ref tag i =>
      cases tag <;> try rfl
      by_cases hi : i = 0
      · subst hi
        simp only [Heap.text?, Value.object?]
        cases hc : h.cell 0 <;> cases hc' : h'.cell 0 <;> first | rfl | simp_all [Cell.isFree]
      · have hr := hv i (Value.cell?_eq_some_iff.2 ⟨_, rfl, hi⟩)
        have hrec := hk.record i
        simp only [Heap.text?, Value.object?, hk.cell i hr]
        cases hc : h.cell i with
        | string b =>
            simp only [payload_eq_of_record? (hrec b hr (by rw [hc]; rfl))]
        | _ => rfl
  | _ => rfl

theorem Kept.symbol? (hk : Kept A h h') (hv : h.Reaches A v) : h'.symbol? v = h.symbol? v := by
  unfold Heap.symbol?
  cases hi : v.cell? with
  | none => rfl
  | some i => simp only [hk.cell i (hv i hi)]

theorem bytecode?_of_cell {b : Bytecode} {i : Nat} (hi : i ≠ 0) (hc : h.cell i = .bytecode b) :
    h.bytecode? (.ref .bytecode i) = some b := by
  unfold bytecode? Value.cell?
  simp only [if_neg hi, hc]

theorem Kept.bytecode? (hk : Kept A h h') (hv : h.Reaches A v) :
    h'.bytecode? v = h.bytecode? v := by
  unfold Heap.bytecode?
  cases hi : v.cell? with
  | none => rfl
  | some i => simp only [hk.cell i (hv i hi)]

theorem Kept.holds_of_reaches (hk : Kept A h h') (hv : h.Holds v) (hr : h.Reaches A v) :
    h'.Holds v := by
  rintro tag i rfl hi
  rw [hk.cell i (hr i (Value.cell?_eq_some_iff.2 ⟨tag, rfl, hi⟩))]
  exact hv tag i rfl hi

end

end Heap

/-! ## What the pool has room for -/

/-- Things that stand in different cells in use are fewer than there are cells. -/
theorem Heap.lt_size_of_ranked {h : Heap} {R : Nat → Nat → Prop} {k : Nat}
    (hR : ∀ j, j ≤ k → ∃ i, (h.cell i).isFree = false ∧ R j i)
    (hone : ∀ {i j j'}, R j i → R j' i → j = j') : k < h.cells.size := by
  choose! at_ hat using hR
  have hlt : ∀ j, j ≤ k → at_ j < h.cells.size := fun j hj => lt_of_isFree_eq_false (hat j hj).1
  let place : Fin (k + 1) → Fin h.cells.size :=
    fun j => ⟨at_ j, hlt j (Nat.le_of_lt_succ j.isLt)⟩
  have hinj : Function.Injective place := by
    intro j j' e
    have hj := (hat j (Nat.le_of_lt_succ j.isLt)).2
    have hj' := (hat j' (Nat.le_of_lt_succ j'.isLt)).2
    have e : at_ j = at_ j' := congrArg Fin.val e
    rw [← e] at hj'
    exact Fin.ext (hone hj hj')
  simpa [Nat.succ_le_iff] using Fintype.card_le_of_injective place hinj

/-! ## Chains of symbols -/

namespace Heap

/-- The record is that of a name. -/
def Answers (h : Heap) (hash : UInt32) (name : String) (r : Symbol) : Prop :=
  r.hash = hash ∧ h.text? r.name = some name

/-- The first symbol with a name in the chain from a value stands `k` places on. -/
inductive Finds (h : Heap) (hash : UInt32) (name : String) : Nat → Value → Value → Prop
  | here {v : Value} {r : Symbol} : v.isSymbol = true → h.symbol? v = some r →
      h.Answers hash name r → Finds h hash name 0 v v
  | next {k : Nat} {v u : Value} {r : Symbol} : v.isSymbol = true → h.symbol? v = some r →
      ¬h.Answers hash name r → Finds h hash name k r.next u → Finds h hash name (k + 1) v u

section

variable {h : Heap} {hash : UInt32} {name : String} {k k' : Nat} {v u u' : Value}

theorem Finds.unique (hf : h.Finds hash name k v u) (hf' : h.Finds hash name k' v u') :
    k = k' ∧ u = u' := by
  induction hf generalizing k' with
  | here _ hr ha =>
      cases hf' with
      | here => exact ⟨rfl, rfl⟩
      | next _ hr' hn _ =>
          obtain rfl := Option.some.inj (hr.symm.trans hr')
          exact absurd ha hn
  | next _ hr hn _ ih =>
      cases hf' with
      | here _ hr' ha =>
          obtain rfl := Option.some.inj (hr.symm.trans hr')
          exact absurd ha hn
      | next _ hr' _ hf' =>
          obtain rfl := Option.some.inj (hr.symm.trans hr')
          obtain ⟨rfl, rfl⟩ := ih hf'
          exact ⟨rfl, rfl⟩

/-- What is found is a symbol with the name. -/
theorem Finds.answers (hf : h.Finds hash name k v u) :
    u.isSymbol = true ∧ ∃ r, h.symbol? u = some r ∧ h.Answers hash name r := by
  induction hf with
  | here hv hr ha => exact ⟨hv, _, hr, ha⟩
  | next _ _ _ _ ih => exact ih

/-- The symbols passed on the way stand in cells of their own. -/
theorem Finds.exists_cell (hf : h.Finds hash name k v u) :
    ∀ j, j ≤ k → ∃ i, (h.cell i).isFree = false ∧ h.Finds hash name j (.ref .symbol i) u := by
  induction hf with
  | @here v r hv hr ha =>
      intro j hj
      obtain rfl := Nat.le_zero.1 hj
      obtain ⟨i, rfl, -, hc⟩ := symbol_of_symbol? hv hr
      exact ⟨i, by rw [hc]; rfl, .here hv hr ha⟩
  | @next k v u r hv hr hn hf ih =>
      intro j hj
      rcases Nat.lt_or_eq_of_le hj with hlt | rfl
      · exact ih j (Nat.le_of_lt_succ hlt)
      · obtain ⟨i, rfl, -, hc⟩ := symbol_of_symbol? hv hr
        exact ⟨i, by rw [hc]; rfl, .next hv hr hn hf⟩

theorem Finds.lt_size (hf : h.Finds hash name k v u) : k < h.cells.size :=
  lt_size_of_ranked hf.exists_cell fun hj hj' => (hj.unique hj').1

/-- A chain that is kept is searched as before. -/
theorem Finds.kept {h' : Heap} {A : List Value} (hz : (h.cell 0).isFree = true)
    (hz' : (h'.cell 0).isFree = true) (hk : Kept A h h') (hf : h.Finds hash name k v u)
    (hv : h.Reaches A v) : h'.Finds hash name k v u := by
  have hview : ∀ {v : Value} {r : Symbol}, h.Reaches A v → v.isSymbol = true →
      h.symbol? v = some r → h'.symbol? v = some r ∧ h.Reaches A r.next ∧
        (h'.Answers hash name r ↔ h.Answers hash name r) := by
    intro v r hv hs hr
    obtain ⟨i, rfl, hi, hc⟩ := symbol_of_symbol? hs hr
    have hi : (Value.ref .symbol i).cell? = some i := Value.cell?_eq_some_iff.2 ⟨_, rfl, hi⟩
    have hname : h.Reaches A r.name :=
      reaches_of_references hv hi (by simp [references, hc, Cell.block?, Cell.values])
    refine ⟨(hk.symbol? hv).trans hr, ?_, by rw [Answers, hk.text? hz hz' hname]; rfl⟩
    exact reaches_of_references hv hi (by simp [references, hc, Cell.block?, Cell.values])
  induction hf with
  | here hs hr ha =>
      obtain ⟨hr', -, hiff⟩ := hview hv hs hr
      exact .here hs hr' (hiff.2 ha)
  | next hs hr hn _ ih =>
      obtain ⟨hr', hnext, hiff⟩ := hview hv hs hr
      exact .next hs hr' (fun ha => hn (hiff.1 ha)) (ih hnext)

theorem findInChain_eq_some_iff {n : Nat} :
    h.findInChain hash name n v = some u ↔ ∃ k, k < n ∧ h.Finds hash name k v u := by
  induction n generalizing v with
  | zero => simp [findInChain]
  | succ n ih =>
      simp only [findInChain]
      cases hv : v.isSymbol with
      | false =>
          simp only [Bool.not_false, if_true, false_iff, reduceCtorEq]
          rintro ⟨k, -, hf⟩
          cases hf <;> simp_all
      | true =>
          simp only [Bool.not_true, Bool.false_eq_true, if_false]
          cases hr : h.symbol? v with
          | none =>
              simp only [false_iff, reduceCtorEq]
              rintro ⟨k, -, hf⟩
              cases hf <;> simp_all
          | some r =>
              by_cases ha : h.Answers hash name r
              · have hcond : (r.hash == hash && h.text? r.name == some name) = true := by
                  simpa [Answers] using ha
                simp only [hcond, if_true, Option.some.injEq]
                constructor
                · rintro rfl
                  exact ⟨0, Nat.succ_pos n, .here hv hr ha⟩
                · rintro ⟨k, -, hf⟩
                  exact ((Finds.here hv hr ha).unique hf).2
              · have hcond : ¬(r.hash == hash && h.text? r.name == some name) = true := by
                  simpa [Answers] using ha
                simp only [hcond, if_false, ih, Bool.false_eq_true]
                constructor
                · rintro ⟨k, hk, hf⟩
                  exact ⟨k + 1, Nat.succ_lt_succ hk, .next hv hr ha hf⟩
                · rintro ⟨k, hk, hf⟩
                  cases hf with
                  | here _ hr' ha' =>
                      obtain rfl := Option.some.inj (hr.symm.trans hr')
                      exact absurd ha' ha
                  | next _ hr' _ hf =>
                      obtain rfl := Option.some.inj (hr.symm.trans hr')
                      exact ⟨_, Nat.lt_of_succ_lt_succ hk, hf⟩

end

end Heap

namespace State

variable {s : State} {name : String} {v : Value}

/-- The first symbol of the chain that a name belongs to. -/
def chainOf (s : State) (name : String) : Value :=
  s.symbols.head (s.symbols.slot (hashName (Utf8.encode name)))

/-- A symbol is found wherever it stands in its chain. -/
theorem findSymbol?_eq_some_iff : s.findSymbol? name = some v ↔
    ∃ k, s.heap.Finds (hashName (Utf8.encode name)) name k (s.chainOf name) v := by
  refine Heap.findInChain_eq_some_iff.trans ⟨?_, ?_⟩
  · rintro ⟨k, -, hf⟩
    exact ⟨k, hf⟩
  · rintro ⟨k, hf⟩
    exact ⟨k, hf.lt_size, hf⟩

/-- The symbol found has the name. -/
theorem symbolName_of_findSymbol? (hf : s.findSymbol? name = some v) :
    s.heap.symbolName v = name := by
  obtain ⟨k, hf⟩ := findSymbol?_eq_some_iff.1 hf
  obtain ⟨-, r, hr, -, hname⟩ := hf.answers
  simp [Heap.symbolName, hr, hname]

theorem isSymbol_of_findSymbol? (hf : s.findSymbol? name = some v) : v.isSymbol = true := by
  obtain ⟨k, hf⟩ := findSymbol?_eq_some_iff.1 hf
  exact hf.answers.1

end State
end CellLisp
