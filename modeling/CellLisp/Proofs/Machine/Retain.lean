import CellLisp.Proofs.Machine.Collecting
import CellLisp.Proofs.Machine.Undo

/-!
# `CellLisp.Proofs.Machine.Retain` — what is kept while continuations are left

Code that allocates, and establishes and leaves continuations of its own, keeps everything that
some values lead to, but for the marks on continuations (`Heap.Retains`).  What a value is seen to
be does not depend on these marks: lists, symbols, texts, procedures and what is equal to what are
the same.

`State.Aside A s s'` says that nothing else has happened between two states, the registers and the
stacks apart.
-/

namespace CellLisp

/-! ## Marks on continuations -/

namespace Cell

@[simp] theorem isFree_left (c : Cell) : c.left.isFree = c.isFree := by cases c <;> rfl

@[simp] theorem tag_left (c : Cell) : c.left.tag = c.tag := by cases c <;> rfl

@[simp] theorem block?_left (c : Cell) : c.left.block? = c.block? := by cases c <;> rfl

@[simp] theorem values_left (c : Cell) : c.left.values = c.values := by cases c <;> rfl

/-- Two cells that are the same but for marks are the same, or continuations. -/
theorem eq_or_cont_of_left {c c' : Cell} (h : c'.left = c.left) :
    c' = c ∨ ∃ k k', c = .cont k ∧ c' = .cont k' := by
  cases c with
  | cont k => cases c' <;> first | exact .inr ⟨_, _, rfl, rfl⟩ | cases h
  | _ => cases c' <;> first | exact .inl h | cases h

/-- The values of a pair. -/
def pair? : Cell → Option (Value × Value)
  | .pair head tail => some (head, tail)
  | _ => none

/-- The text of a string. -/
def text? (h : Heap) : Cell → Option String
  | .string data => some (h.payload data).string
  | _ => none

end Cell

namespace Heap

/-- What the values lead to is the same, but that continuations may have been left since. -/
structure Retains (A : List Value) (h h' : Heap) : Prop where
  cell : ∀ i, h.Reachable A i → (h'.cell i).left = (h.cell i).left
  record : ∀ i b, h.Reachable A i → (h.cell i).block? = some b →
    h'.arena.record? b.offset = h.arena.record? b.offset
  size : h'.cells.size = h.cells.size

theorem size_markExited (h : Heap) (v : Value) : (h.markExited v).cells.size = h.cells.size := by
  unfold markExited
  split
  · simp [set]
  · rfl

theorem arena_markExited (h : Heap) (v : Value) : (h.markExited v).arena = h.arena := by
  unfold markExited
  split <;> rfl

section Retaining

variable {h h' h'' : Heap} {A B : List Value} {v : Value}

theorem Retains.refl (A : List Value) (h : Heap) : Retains A h h :=
  ⟨fun _ _ => rfl, fun _ _ _ _ => rfl, rfl⟩

theorem Retains.mono (hr : Retains B h h') (H : A ⊆ B) : Retains A h h' :=
  ⟨fun i hi => hr.cell i (hi.mono H), fun i b hi => hr.record i b (hi.mono H), hr.size⟩

theorem Retains.of_reaches (hr : Retains B h h') (H : ∀ v ∈ A, h.Reaches B v) : Retains A h h' := by
  have hreach : ∀ i, h.Reachable A i → h.Reachable B i := fun i hi => by
    induction hi with
    | root hv hc => exact H _ hv _ hc
    | step _ hv hc ih => exact .step ih hv hc
  exact ⟨fun i hi => hr.cell i (hreach i hi), fun i b hi => hr.record i b (hreach i hi), hr.size⟩

theorem Kept.retains (hk : Kept A h h') (hsize : h'.cells.size = h.cells.size) : Retains A h h' :=
  ⟨fun i hi => congrArg Cell.left (hk.cell i hi), hk.record, hsize⟩

/-- Leaving a continuation changes nothing else. -/
theorem retains_markExited (A : List Value) (h : Heap) (v : Value) : Retains A h (h.markExited v) where
  cell i _ := by
    rw [cell_markExited]
    split
    · exact (h.cell i).left_left
    · rfl
  record i b _ _ := by rw [arena_markExited]
  size := size_markExited h v

theorem Retains.references (hr : Retains A h h') {i : Nat} (hi : h.Reachable A i) :
    h'.references (h'.cell i) = h.references (h.cell i) := by
  have hleft := hr.cell i hi
  have hblock : (h'.cell i).block? = (h.cell i).block? := by
    rw [← Cell.block?_left, hleft, Cell.block?_left]
  have hvalues : (h'.cell i).values = (h.cell i).values := by
    rw [← Cell.values_left, hleft, Cell.values_left]
  unfold Heap.references
  rw [hblock, hvalues]
  cases hb : (h.cell i).block? with
  | none => rfl
  | some b => simp only [payload_eq_of_record? (hr.record i b hi hb)]

/-- The same cells are led to. -/
theorem Retains.reachable (hr : Retains A h h') {i : Nat} (hi : h.Reachable A i) :
    h'.Reachable A i := by
  induction hi with
  | root hv hc => exact .root hv hc
  | step hi hv hc ih => exact .step ih (by rw [hr.references hi]; exact hv) hc

theorem Retains.trans (h₁ : Retains A h h') (h₂ : Retains A h' h'') : Retains A h h'' where
  cell i hi := (h₂.cell i (h₁.reachable hi)).trans (h₁.cell i hi)
  record i b hi hb := by
    refine (h₂.record i b (h₁.reachable hi) ?_).trans (h₁.record i b hi hb)
    rw [← Cell.block?_left, h₁.cell i hi, Cell.block?_left]
    exact hb
  size := h₂.size.trans h₁.size

/-- Leaving several changes nothing else. -/
theorem retains_markAll (A : List Value) (h : Heap) (vs : List Value) :
    Retains A h (vs.foldl markExited h) := by
  induction vs generalizing h with
  | nil => exact .refl A h
  | cons v vs ih => exact (retains_markExited A h v).trans (ih _)

theorem Retains.reaches (hr : Retains A h h') (hv : h.Reaches A v) : h'.Reaches A v :=
  fun i hi => hr.reachable (hv i hi)

theorem Retains.holds (hr : Retains A h h') (hv : h.Reaches A v) (hh : h.Holds v) : h'.Holds v := by
  rintro tag i rfl hi
  have hleft := hr.cell i (hv i (Value.cell?_eq_some_iff.2 ⟨tag, rfl, hi⟩))
  rw [← Cell.isFree_left, ← Cell.tag_left, hleft, Cell.isFree_left, Cell.tag_left]
  exact hh tag i rfl hi

/-- What leads to a value is kept, so the cell it refers to is the same, or a continuation. -/
theorem Retains.cell_cases (hr : Retains A h h') (hv : h.Reaches A v) {i : Nat} (hi : v.cell? = some i) :
    h'.cell i = h.cell i ∨ ∃ k k', h.cell i = .cont k ∧ h'.cell i = .cont k' :=
  Cell.eq_or_cont_of_left (hr.cell i (hv i hi))

/-! ## Views -/

/-- What is seen at a cell that has been kept, or at cell zero, which is free. -/
theorem Retains.view {α : Type} {tag : Tag} {i : Nat} (g : Heap → Cell → Option α)
    (hz : (h.cell 0).isFree = true) (hz' : (h'.cell 0).isFree = true)
    (hr : Retains A h h') (hv : h.Reaches A (.ref tag i))
    (hfree : ∀ h c, Cell.isFree c = true → g h c = none) (hcont : ∀ h k, g h (.cont k) = none)
    (hg : h.Reachable A i → g h' (h.cell i) = g h (h.cell i)) : g h' (h'.cell i) = g h (h.cell i) := by
  by_cases hi : i = 0
  · subst hi
    rw [hfree _ _ hz, hfree _ _ hz']
  · have hcell : (Value.ref tag i).cell? = some i := Value.cell?_eq_some_iff.2 ⟨tag, rfl, hi⟩
    rcases hr.cell_cases hv hcell with heq | ⟨k, k', hk, hk'⟩
    · rw [heq, hg (hv i hcell)]
    · rw [hk, hk', hcont, hcont]

variable (hz : (h.cell 0).isFree = true) (hz' : (h'.cell 0).isFree = true) (hr : Retains A h h')
  (hv : h.Reaches A v)

include hz hz' hr hv

theorem Retains.pair? : h'.pair? v = h.pair? v := by
  cases v with
  | ref tag i =>
      cases tag <;> try rfl
      refine hr.view (fun _ c => c.pair?) hz hz' hv ?_ (fun _ _ => rfl) fun _ => rfl
      rintro - (_ | _) hc <;> first | rfl | cases hc
  | _ => rfl

theorem Retains.text? : h'.text? v = h.text? v := by
  cases v with
  | ref tag i =>
      cases tag <;> try rfl
      refine hr.view (fun h c => c.text? h) hz hz' hv ?_ (fun _ _ => rfl) fun hi => ?_
      · rintro - (_ | _) hc <;> first | rfl | cases hc
      · cases hc : h.cell i with
        | string b =>
            have hrec := hr.record i b hi (by rw [hc]; rfl)
            simp only [Cell.text?, payload_eq_of_record? hrec]
        | _ => rfl
  | _ => rfl

omit hz hz'

theorem Retains.symbol? : h'.symbol? v = h.symbol? v := by
  unfold Heap.symbol?
  cases hi : v.cell? with
  | none => rfl
  | some i =>
      rcases hr.cell_cases hv hi with heq | ⟨k, k', hk, hk'⟩
      · simp only [heq]
      · simp only [hk, hk']

theorem Retains.global? : h'.global? v = h.global? v := by
  rw [Heap.global?, Heap.global?, hr.symbol? hv]

theorem Retains.bytecode? : h'.bytecode? v = h.bytecode? v := by
  unfold Heap.bytecode?
  cases hi : v.cell? with
  | none => rfl
  | some i =>
      rcases hr.cell_cases hv hi with heq | ⟨k, k', hk, hk'⟩
      · simp only [heq]
      · simp only [hk, hk']

theorem Retains.instrs {b : Bytecode} (hb : h.bytecode? v = some b) : h'.instrs b = h.instrs b := by
  unfold Heap.bytecode? at hb
  cases hi : v.cell? with
  | none => rw [hi] at hb; cases hb
  | some i =>
      simp only [hi] at hb
      cases hc : h.cell i with
      | bytecode b' =>
          simp only [hc, Option.some.injEq] at hb
          subst hb
          rw [Heap.instrs, Heap.instrs, payload_eq_of_record?]
          exact hr.record i b'.code (hv i hi) (by rw [hc]; rfl)
      | _ => simp only [hc] at hb; cases hb

/-- A built-in procedure is what it was. -/
theorem Retains.native {i : Nat} {n : Native} (hi : v.cell? = some i) (hn : h.cell i = .native n) :
    h'.cell i = .native n := by
  rcases hr.cell_cases hv hi with heq | ⟨k, k', hk, -⟩
  · rw [heq, hn]
  · rw [hk] at hn
    cases hn

end Retaining

section Structures

variable {h h' : Heap} {A : List Value} {v : Value} {vs : List Value}

/-- A proper list is the same. -/
theorem Lists.retained (hz : (h.cell 0).isFree = true) (hz' : (h'.cell 0).isFree = true)
    (hr : Retains A h h') (hl : h.Lists v vs) (hv : h.Reaches A v) : h'.Lists v vs := by
  induction hl with
  | nil => exact .nil
  | cons hp _ ih => exact .cons ((hr.pair? hz hz' hv).trans hp) (ih (hv.pair hz hp).2)

/-- What leads from a proper list to its elements. -/
theorem Lists.reaches (hz : (h.cell 0).isFree = true) (hl : h.Lists v vs) (hv : h.Reaches A v) :
    ∀ u ∈ vs, h.Reaches A u := by
  induction hl with
  | nil => nofun
  | cons hp _ ih =>
      intro u hu
      rcases List.mem_cons.1 hu with rfl | hu
      · exact (hv.pair hz hp).1
      · exact ih (hv.pair hz hp).2 u hu

/-- What was equal is equal, and nothing else is. -/
theorem Retains.equalTo (hz : (h.cell 0).isFree = true) (hz' : (h'.cell 0).isFree = true)
    (hr : Retains A h h') (n : Nat) {a b : Value} (ha : h.Reaches A a) (hb : h.Reaches A b) :
    h'.equalTo n a b = h.equalTo n a b := by
  induction n generalizing a b with
  | zero => rfl
  | succ n ih =>
      simp only [Heap.equalTo, hr.pair? hz hz' ha, hr.pair? hz hz' hb, hr.text? hz hz' ha,
        hr.text? hz hz' hb]
      cases hpa : h.pair? a with
      | none => rfl
      | some p =>
          cases hpb : h.pair? b with
          | none => rfl
          | some q =>
              have hpa' := ha.pair hz (show h.pair? a = some (p.1, p.2) from hpa)
              have hpb' := hb.pair hz (show h.pair? b = some (q.1, q.2) from hpb)
              simp only [ih hpa'.1 hpb'.1, ih hpa'.2 hpb'.2]

theorem Retains.equal (hz : (h.cell 0).isFree = true) (hz' : (h'.cell 0).isFree = true)
    (hr : Retains A h h') {a b : Value} (ha : h.Reaches A a) (hb : h.Reaches A b) :
    h'.equal a b = h.equal a b := by
  rw [Heap.equal, Heap.equal, hr.size, hr.equalTo hz hz' _ ha hb]

/-- A chain of symbols is searched as before. -/
theorem Finds.retained {hash : UInt32} {name : String} {k : Nat} {u : Value}
    (hz : (h.cell 0).isFree = true) (hz' : (h'.cell 0).isFree = true) (hr : Retains A h h')
    (hf : h.Finds hash name k v u) (hv : h.Reaches A v) :
    h'.Finds hash name k v u ∧ h.Reaches A u := by
  have hview : ∀ {v : Value} {r : Symbol}, h.Reaches A v → v.isSymbol = true →
      h.symbol? v = some r → h.Reaches A r.next ∧
        (h'.Answers hash name r ↔ h.Answers hash name r) := by
    intro v r hv hs hsym
    obtain ⟨i, rfl, hi, hc⟩ := symbol_of_symbol? hs hsym
    have hi : (Value.ref .symbol i).cell? = some i := Value.cell?_eq_some_iff.2 ⟨_, rfl, hi⟩
    have hname : h.Reaches A r.name :=
      reaches_of_references hv hi (by simp [references, hc, Cell.block?, Cell.values])
    refine ⟨?_, by rw [Answers, hr.text? hz hz' hname]; rfl⟩
    exact reaches_of_references hv hi (by simp [references, hc, Cell.block?, Cell.values])
  induction hf with
  | here hs hsym ha =>
      obtain ⟨-, hiff⟩ := hview hv hs hsym
      exact ⟨.here hs ((hr.symbol? hv).trans hsym) (hiff.2 ha), hv⟩
  | next hs hsym hn _ ih =>
      obtain ⟨hnext, hiff⟩ := hview hv hs hsym
      obtain ⟨hf', hu⟩ := ih hnext
      exact ⟨.next hs ((hr.symbol? hv).trans hsym) (fun ha => hn (hiff.1 ha)) hf', hu⟩

end Structures

end Heap

/-! ## Between two states -/

/-- A machine without its registers, its operands and its continuations. -/
def Machine.bare (m : Machine) : Machine := { limit := m.limit, dyns := m.dyns }

@[simp] theorem Machine.bare_bare (m : Machine) : m.bare.bare = m.bare := rfl

namespace State

/-- A state but for the registers, the operands and the continuations. -/
def store (s : State) : State := { s with machine := s.machine.bare }

@[simp] theorem store_store (s : State) : s.store.store = s.store := rfl

@[simp] theorem heap_store (s : State) : s.store.heap = s.heap := rfl

@[simp] theorem limit_store (s : State) : s.store.machine.limit = s.machine.limit := rfl

@[simp] theorem dyns_store (s : State) : s.store.machine.dyns = s.machine.dyns := rfl

@[simp] theorem findSymbol?_store (s : State) (name : String) :
    s.store.findSymbol? name = s.findSymbol? name := rfl

/-- The values that a state keeps whatever its registers, operands and continuations are. -/
def anchors (s : State) : List Value :=
  s.symbols.buckets.toList ++ s.roots.toList ++ [s.known.halt, s.known.makeClosure]
    ++ s.machine.dyns.toList.flatMap (fun b => b.symbol :: b.old.toList)

@[simp] theorem anchors_store (s : State) : s.store.anchors = s.anchors := rfl

theorem anchors_subset_rootValues (s : State) : s.anchors ⊆ s.rootValues := by
  intro v hv
  simp only [anchors, rootValues, List.mem_append, List.mem_cons, List.not_mem_nil, or_false] at hv ⊢
  grind

theorem retains_dropped (A : List Value) (s : State) (depth : Nat) :
    Heap.Retains A s.heap (s.dropped depth).heap := by
  rw [dropped, ← Array.foldl_toList]
  exact Heap.retains_markAll _ _ _

/-- What the anchors and the values `A` lead to is kept, and but for the registers, the stacks of
operands and of continuations and the log nothing has changed. -/
structure Aside (A : List Value) (s s' : State) : Prop where
  retains : Heap.Retains (s.anchors ++ A) s.heap s'.heap
  rest : ∃ heap log, s'.store = { s.store with heap, world := { s.world with log } }
  zero : (s.heap.cell 0).isFree = true
  zero' : (s'.heap.cell 0).isFree = true

section Between

variable {s s' s'' : State} {A B : List Value} {v : Value} {vs : List Value}

theorem Aside.anchors (h : s.Aside A s') : s'.anchors = s.anchors := by
  obtain ⟨heap, log, hrest⟩ := h.rest
  rw [← anchors_store, hrest]
  rfl

theorem Aside.limit (h : s.Aside A s') : s'.machine.limit = s.machine.limit := by
  obtain ⟨heap, log, hrest⟩ := h.rest
  rw [← limit_store, hrest]
  rfl

theorem Aside.dyns (h : s.Aside A s') : s'.machine.dyns = s.machine.dyns := by
  obtain ⟨heap, log, hrest⟩ := h.rest
  rw [← dyns_store, hrest]
  rfl

theorem Aside.refl (A : List Value) (hz : (s.heap.cell 0).isFree = true) : s.Aside A s :=
  ⟨.refl _ _, ⟨s.heap, s.world.log, rfl⟩, hz, hz⟩

theorem Aside.trans (h : s.Aside A s') (h' : s'.Aside A s'') : s.Aside A s'' where
  retains := h.retains.trans (h.anchors ▸ h'.retains)
  rest := by
    obtain ⟨heap₁, log₁, h₁⟩ := h.rest
    obtain ⟨heap₂, log₂, h₂⟩ := h'.rest
    have hworld : s'.store.world = { s.world with log := log₁ } := by rw [h₁]
    change s'.world = _ at hworld
    refine ⟨heap₂, log₂, ?_⟩
    rw [h₂, h₁, hworld]
  zero := h.zero
  zero' := h'.zero'

/-- What is kept of some values is kept of what they lead to. -/
theorem Aside.of_reaches (h : s.Aside B s') (H : ∀ v ∈ A, s.heap.Reaches (s.anchors ++ B) v) :
    s.Aside A s' := by
  refine { h with retains := h.retains.of_reaches fun v hv => ?_ }
  rcases List.mem_append.1 hv with hv | hv
  · exact Heap.reaches_of_mem (List.mem_append_left _ hv)
  · exact H v hv

theorem Aside.mono (h : s.Aside B s') (H : A ⊆ B) : s.Aside A s' :=
  h.of_reaches fun _ hv => Heap.reaches_of_mem (List.mem_append_right _ (H hv))

/-- Only the store matters. -/
theorem aside_store_iff : s.store.Aside A s'.store ↔ s.Aside A s' :=
  ⟨fun h => ⟨h.retains, h.rest, h.zero, h.zero'⟩, fun h => ⟨h.retains, h.rest, h.zero, h.zero'⟩⟩

theorem reaches_anchor (hv : v ∈ s.anchors) : s.heap.Reaches (s.anchors ++ A) v :=
  Heap.reaches_of_mem (List.mem_append_left _ hv)

theorem reaches_word (hv : v ∈ A) : s.heap.Reaches (s.anchors ++ A) v :=
  Heap.reaches_of_mem (List.mem_append_right _ hv)

/-- A symbol that is found is found again, and is kept. -/
theorem Aside.findSymbol? (h : s.Aside A s') {name : String} (hv : s.findSymbol? name = some v) :
    s'.findSymbol? name = some v ∧ s.heap.Reaches (s.anchors ++ A) v := by
  obtain ⟨k, hf⟩ := findSymbol?_eq_some_iff.1 hv
  have hsymbol : (s.chainOf name).isSymbol = true := by cases hf <;> assumption
  have hhead : s.chainOf name ∈ s.anchors := by
    refine List.mem_append_left _ (List.mem_append_left _ (List.mem_append_left _ ?_))
    rw [chainOf, SymbolTable.head, Array.getD_eq_getD_getElem?] at hsymbol ⊢
    cases hget : s.symbols.buckets[s.symbols.slot (hashName (Utf8.encode name))]? with
    | none => rw [hget] at hsymbol; cases hsymbol
    | some u => exact Array.mem_toList_iff.2 (Array.mem_of_getElem? hget)
  obtain ⟨hf', hreach⟩ := hf.retained h.zero h.zero' h.retains (reaches_anchor hhead)
  refine ⟨?_, hreach⟩
  obtain ⟨heap, log, hrest⟩ := h.rest
  have hsymbols : s'.store.symbols = s.store.symbols := by rw [hrest]
  change s'.symbols = s.symbols at hsymbols
  exact findSymbol?_eq_some_iff.2 ⟨k, by rwa [chainOf, hsymbols]⟩

theorem Aside.pair? (h : s.Aside A s') {p : Value × Value} (hp : s.heap.pair? v = some p)
    (hv : v ∈ A) : s'.heap.pair? v = some p :=
  (h.retains.pair? h.zero h.zero' (reaches_word hv)).trans hp

theorem Aside.lists (h : s.Aside A s') (hl : s.heap.Lists v vs) (hv : v ∈ A) : s'.heap.Lists v vs :=
  hl.retained h.zero h.zero' h.retains (reaches_word hv)

/-- What leads from a kept list to its elements. -/
theorem Aside.reaches_lists (h : s.Aside A s') (hl : s.heap.Lists v vs) (hv : v ∈ A) :
    ∀ u ∈ vs, s.heap.Reaches (s.anchors ++ A) u :=
  hl.reaches h.zero (reaches_word hv)

end Between

end State
end CellLisp
