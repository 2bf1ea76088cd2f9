import CellLisp.Proofs.State.Chain
import CellLisp.Proofs.Syntax.Written

/-!
# `CellLisp.Proofs.Syntax.Denotes` — the tree that a value stands for

`s.Denotes v d` says that the value `v` of the state `s` is the tree `d`: its pairs are those of
the tree, and each symbol in it is the interned one of its name.  A tree without end is none, so
such a value has no cycle, and it is no deeper than the pool is large (`Denotes.depth_lt`).
That is why the fuel of the walks over values is enough:

| | |
| :-- | :-- |
| `Denotes.print_eq` | the text of a value is that of its tree |
| `Denotes.equal_of_denotes` | values that are the same tree are equal |
-/

namespace CellLisp

namespace State

/-! ## Denotation -/

/-- The value is the tree. -/
inductive Denotes (s : State) : Value → Datum → Prop
  | nil : Denotes s .nil .nil
  | int (i : Int) : Denotes s (.int i) (.int i)
  | float (x : Binary32) : Denotes s (.ofFloat x) (.float x)
  | symbol {v : Value} {name : String} : s.findSymbol? name = some v → Denotes s v (.symbol name)
  | string {v : Value} {text : String} : s.heap.text? v = some text → Denotes s v (.string text)
  | pair {v head tail : Value} {a b : Datum} : s.heap.pair? v = some (head, tail) →
      Denotes s head a → Denotes s tail b → Denotes s v (.pair a b)

/-- The value is a tree whose leaves can be written. -/
def Readable (s : State) (v : Value) : Prop := ∃ d, s.Denotes v d ∧ d.Readable

end State

/-- Pairs between the top of a tree and its deepest leaf. -/
def Datum.depth : Datum → Nat
  | .pair head tail => max head.depth tail.depth + 1
  | _ => 0

namespace State

section

variable {s : State} {v w : Value} {d d' : Datum}

theorem Denotes.unique (hd : s.Denotes v d) (hd' : s.Denotes v d') : d = d' := by
  induction hd generalizing d' with
  | nil => cases hd' with
    | nil => rfl
    | symbol hf => cases isSymbol_of_findSymbol? hf
    | string ht => cases ht
    | pair hp => cases hp
  | int => cases hd' with
    | int => rfl
    | symbol hf => cases isSymbol_of_findSymbol? hf
    | string ht => cases ht
    | pair hp => cases hp
  | float x =>
      generalize hv : Value.ofFloat x = v at hd'
      cases hd' with
      | nil | int => cases hv
      | float => cases hv; rfl
      | symbol hf => subst hv; cases isSymbol_of_findSymbol? hf
      | string ht => subst hv; cases ht
      | pair hp => subst hv; cases hp
  | @symbol v name hf =>
      have hv := isSymbol_of_findSymbol? hf
      cases hd' with
      | nil | int | float => cases hv
      | symbol hf' =>
          rw [← symbolName_of_findSymbol? hf, ← symbolName_of_findSymbol? hf']
      | string ht => rw [Heap.text?_of_isSymbol hv] at ht; cases ht
      | pair hp => rw [Heap.pair?_of_isSymbol hv] at hp; cases hp
  | @string v text ht =>
      obtain ⟨i, b, rfl, hc, -⟩ := Heap.string_of_text? ht
      cases hd' with
      | symbol hf' => cases isSymbol_of_findSymbol? hf'
      | string ht' => rw [Option.some.inj (ht.symm.trans ht')]
      | pair hp => cases hp
  | @pair v head tail a b hp _ _ iha ihb =>
      obtain ⟨i, rfl, hc⟩ := Heap.pair_of_pair? hp
      cases hd' with
      | symbol hf' => cases isSymbol_of_findSymbol? hf'
      | string ht => cases ht
      | pair hp' ha hb =>
          obtain ⟨rfl, rfl⟩ := Prod.mk.inj (Option.some.inj (hp.symm.trans hp'))
          rw [iha ha, ihb hb]

/-- A tree has pairs of every depth up to its own, each in a cell. -/
theorem Denotes.exists_cell (hd : s.Denotes v d) : ∀ j, j < d.depth →
    ∃ i, (s.heap.cell i).isFree = false ∧ ∃ d', s.Denotes (.ref .pair i) d' ∧ d'.depth = j + 1 := by
  induction hd with
  | nil | int | float | symbol | string => exact fun j hj => absurd hj (Nat.not_lt_zero j)
  | @pair v head tail a b hp ha hb iha ihb =>
      intro j hj
      rcases Nat.lt_or_ge j (max a.depth b.depth) with hlt | hge
      · rcases lt_max_iff.1 hlt with hlt | hlt
        · exact iha j hlt
        · exact ihb j hlt
      · obtain ⟨i, rfl, hc⟩ := Heap.pair_of_pair? hp
        refine ⟨i, by rw [hc]; rfl, _, .pair hp ha hb, ?_⟩
        simp only [Datum.depth] at hj ⊢
        omega

/-- A tree is no deeper than the pool is large. -/
theorem Denotes.depth_le (hd : s.Denotes v d) : d.depth ≤ s.heap.cells.size := by
  cases hk : d.depth with
  | zero => exact Nat.zero_le _
  | succ k =>
      refine Nat.succ_le_of_lt (Heap.lt_size_of_ranked
        (R := fun j i => ∃ d', s.Denotes (.ref .pair i) d' ∧ d'.depth = j + 1) (k := k) ?_ ?_)
      · intro j hj
        exact hd.exists_cell j (by omega)
      · rintro i j j' ⟨d₁, h₁, e₁⟩ ⟨d₂, h₂, e₂⟩
        rw [h₁.unique h₂] at e₁
        omega

/-! ### Equality -/

/-- Values that are the same tree are equal, to any depth beyond that of the tree. -/
theorem Denotes.equalTo (hv : s.Denotes v d) (hw : s.Denotes w d) {n : Nat} (hn : d.depth < n) :
    s.heap.equalTo n v w = true := by
  induction hv generalizing w n with
  | nil =>
      cases n with
      | zero => omega
      | succ n => cases hw with | nil => simp [Heap.equalTo]
  | int =>
      cases n with
      | zero => omega
      | succ n => cases hw with | int => simp [Heap.equalTo]
  | float =>
      cases n with
      | zero => omega
      | succ n => cases hw with | float => simp [Heap.equalTo]
  | symbol hf =>
      cases n with
      | zero => omega
      | succ n =>
          cases hw with
          | symbol hf' =>
              obtain rfl := Option.some.inj (hf.symm.trans hf')
              simp [Heap.equalTo]
  | @string v text ht =>
      cases n with
      | zero => omega
      | succ n =>
          cases hw with
          | string ht' =>
              obtain ⟨i, _, rfl, -⟩ := Heap.string_of_text? ht
              simp [Heap.equalTo, Heap.pair?, ht, ht']
  | pair hp _ _ iha ihb =>
      cases n with
      | zero => omega
      | succ n =>
          simp only [Datum.depth] at hn
          cases hw with
          | pair hp' ha hb =>
              have ha := iha ha (n := n) (by omega)
              have hb := ihb hb (n := n) (by omega)
              simp [Heap.equalTo, hp, hp', ha, hb]

/-- Values that are the same tree are equal. -/
theorem Denotes.equal_of_denotes (hv : s.Denotes v d) (hw : s.Denotes w d) :
    s.heap.equal v w = true := by
  refine hv.equalTo hw ?_
  have hd := hv.depth_le
  have hsquare := Nat.le_mul_self s.heap.cells.size
  omega

end

end State

/-! ## Text -/

namespace Heap

/-- Writes one more element of a list, with a blank before it unless it is the first. -/
def addItem (write : String → Value → String) (p : String × Bool) (v : Value) : String × Bool :=
  (write (if p.2 then p.1 else p.1.push ' ') v, false)

/-- Writes the elements of a list, what ends it and the parenthesis. -/
def writeSpine (h : Heap) (n : Nat) (acc : String) (p : Array Value × Value) : String :=
  let acc := writeItems (h.writeTo true n) acc p.1
  (if p.2.isNil then acc else h.writeTo true n (acc ++ " . ") p.2).push ')'

variable {h : Heap}

theorem writeItems_eq (write : String → Value → String) (acc : String) (items : Array Value) :
    writeItems write acc items = (items.foldl (addItem write) (acc, true)).1 := rfl

theorem writeTo_pair (n : Nat) (acc : String) (i : Nat) :
    h.writeTo true (n + 1) acc (.ref .pair i)
      = h.writeSpine n (acc.push '(') (h.spine (.ref .pair i)) := rfl

theorem spineFrom_of_pair? {v head tail : Value} (hp : h.pair? v = some (head, tail))
    (acc : Array Value) (n : Nat) :
    h.spineFrom acc (n + 1) v = h.spineFrom (acc.push head) n tail := by
  simp [spineFrom, hp]

theorem spineFrom_of_pair?_eq_none {v : Value} (hp : h.pair? v = none) (acc : Array Value)
    (n : Nat) : h.spineFrom acc n v = (acc, v) := by
  cases n <;> simp [spineFrom, hp]

end Heap

namespace State

section

variable {s : State} {v : Value} {d : Datum}

/-- A value that is a leaf is no pair. -/
theorem Denotes.pair?_eq_none (hd : s.Denotes v d) (ha : d.IsAtom) : s.heap.pair? v = none := by
  cases hd with
  | nil | int | float => rfl
  | symbol hf => exact Heap.pair?_of_isSymbol (isSymbol_of_findSymbol? hf)
  | string ht =>
      obtain ⟨i, _, rfl, -⟩ := Heap.string_of_text? ht
      rfl
  | pair => exact ha.elim

theorem Denotes.isNil_eq_false (hd : s.Denotes v d) (hn : d ≠ .nil) : v.isNil = false := by
  cases hd with
  | nil => exact absurd rfl hn
  | int | float => rfl
  | @symbol v _ hf =>
      have hv := isSymbol_of_findSymbol? hf
      cases v <;> first | rfl | cases hv
  | string ht =>
      obtain ⟨i, _, rfl, -⟩ := Heap.string_of_text? ht
      rfl
  | pair hp =>
      obtain ⟨i, rfl, -⟩ := Heap.pair_of_pair? hp
      rfl

/-- The text of a leaf. -/
theorem Denotes.writeTo_atom (hz : (s.heap.cell 0).isFree = true) (hd : s.Denotes v d)
    (ha : d.IsAtom) (n : Nat) (acc : String) :
    s.heap.writeTo true (n + 1) acc v = acc ++ d.atomText := by
  cases hd with
  | nil | int | float => rfl
  | @symbol v name hf =>
      have hv := isSymbol_of_findSymbol? hf
      have hname := symbolName_of_findSymbol? hf
      cases v with
      | ref tag i =>
          cases tag <;> try cases hv
          simp [Heap.writeTo, hname, Datum.atomText]
      | _ => cases hv
  | string ht =>
      obtain ⟨i, b, rfl, hc, rfl⟩ := Heap.string_of_text? ht
      cases i with
      | zero => rw [hc] at hz; cases hz
      | succ i =>
          simp [Heap.writeTo, Heap.writeObject, hc, Datum.atomText, ← String.toList_inj]
  | pair => exact ha.elim

/-- The end of a list whose last tail is a leaf. -/
theorem Denotes.writeSpine_atom (hz : (s.heap.cell 0).isFree = true) (hd : s.Denotes v d)
    (ha : d.IsAtom) {n : Nat} {acc t : String} {items : Array Value}
    (ht : items.foldl (Heap.addItem (s.heap.writeTo true (n + 1))) (acc, true) = (t, false)) :
    s.heap.writeSpine (n + 1) acc (items, v) = t ++ d.tailText := by
  have hclose : ∀ u : String, u.push ')' = u ++ ")" := fun u => by simp [← String.toList_inj]
  simp only [Heap.writeSpine, Heap.writeItems_eq, ht, hclose]
  by_cases hn : d = .nil
  · subst hn
    cases hd
    rfl
  · rw [hd.isNil_eq_false hn, Datum.tailText_of_isAtom ha hn]
    simp only [Bool.false_eq_true, if_false, hd.writeTo_atom hz ha, String.append_assoc]

/-- With fuel for its depth, a value is written as a tree: alone, and behind the elements of a
list that were found before it.  The fuel `m` is that of the walk along the tails. -/
structure Writes (s : State) (v : Value) (d : Datum) : Prop where
  text : ∀ n acc, d.depth < n → s.heap.writeTo true n acc v = acc ++ d.text
  tailText : ∀ n m acc t items, d.depth < n → d.depth ≤ m →
    items.foldl (Heap.addItem (s.heap.writeTo true n)) (acc, true) = (t, false) →
    s.heap.writeSpine n acc (s.heap.spineFrom items m v) = t ++ d.tailText

theorem Denotes.writes_atom (hz : (s.heap.cell 0).isFree = true) (hd : s.Denotes v d)
    (ha : d.IsAtom) : s.Writes v d where
  text n acc hn := by
    obtain ⟨n, rfl⟩ := Nat.exists_eq_succ_of_ne_zero (Nat.ne_zero_of_lt hn)
    rw [hd.writeTo_atom hz ha, Datum.text_of_isAtom ha]
  tailText n m acc t items hn _ ht := by
    obtain ⟨n, rfl⟩ := Nat.exists_eq_succ_of_ne_zero (Nat.ne_zero_of_lt hn)
    rw [Heap.spineFrom_of_pair?_eq_none (hd.pair?_eq_none ha)]
    exact hd.writeSpine_atom hz ha ht

/-- One step along the tails. -/
theorem Denotes.writeSpine_pair {head tail : Value} {a b : Datum}
    (hp : s.heap.pair? v = some (head, tail)) (ha : s.Writes head a) (hb : s.Writes tail b)
    {n m : Nat} {acc t : String} {first : Bool} {items : Array Value}
    (hn : max a.depth b.depth < n) (hm : b.depth ≤ m)
    (ht : items.foldl (Heap.addItem (s.heap.writeTo true n)) (acc, true) = (t, first)) :
    s.heap.writeSpine n acc (s.heap.spineFrom items (m + 1) v)
      = (if first then t else t.push ' ') ++ a.text ++ b.tailText := by
  rw [Heap.spineFrom_of_pair? hp]
  refine hb.tailText n m acc _ _ (by omega) hm ?_
  rw [Array.foldl_push, ht, Heap.addItem, ha.text n _ (by omega)]

theorem Denotes.writes (hz : (s.heap.cell 0).isFree = true) (hd : s.Denotes v d) :
    s.Writes v d := by
  induction hd with
  | nil => exact Denotes.nil.writes_atom hz trivial
  | int i => exact (Denotes.int i).writes_atom hz trivial
  | float x => exact (Denotes.float x).writes_atom hz trivial
  | symbol hf => exact (Denotes.symbol hf).writes_atom hz trivial
  | string ht => exact (Denotes.string ht).writes_atom hz trivial
  | @pair v head tail a b hp hda hdb iha ihb =>
      have hdepth : (Datum.pair a b).depth = max a.depth b.depth + 1 := rfl
      have hsize := (Denotes.pair hp hda hdb).depth_le
      rw [hdepth] at hsize
      obtain ⟨i, rfl, -⟩ := Heap.pair_of_pair? hp
      constructor
      · intro n acc hn
        obtain ⟨n, rfl⟩ := Nat.exists_eq_succ_of_ne_zero (Nat.ne_zero_of_lt hn)
        obtain ⟨m, hm⟩ := Nat.exists_eq_succ_of_ne_zero (Nat.ne_zero_of_lt hsize)
        rw [Heap.writeTo_pair, Heap.spine, hm,
          writeSpine_pair hp iha ihb (by omega) (by omega) (show _ = (_, true) from rfl)]
        simp [Datum.text, ← String.toList_inj]
      · intro n m acc t items hn hm ht
        obtain ⟨m, rfl⟩ := Nat.exists_eq_succ_of_ne_zero (n := m) (by omega)
        rw [writeSpine_pair hp iha ihb (by omega) (by omega) ht]
        simp [Datum.tailText, ← String.toList_inj]

/-- The text of a value is that of its tree. -/
theorem Denotes.print_eq (hz : (s.heap.cell 0).isFree = true) (hd : s.Denotes v d) :
    s.heap.print v = d.text := by
  have h := (hd.writes hz).text (s.heap.cells.size + 1) "" (Nat.lt_succ_of_le hd.depth_le)
  simpa [Heap.print] using h

end

end State
end CellLisp
