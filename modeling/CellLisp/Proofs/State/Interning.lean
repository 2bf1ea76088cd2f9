import CellLisp.Proofs.State.Exhaustion
import CellLisp.Proofs.State.Order

/-!
# `CellLisp.Proofs.State.Interning` — names and their symbols

A table of symbols starts empty.  Names are interned and looked for, symbols made outside the
table, declared and assigned, the heap is collected, and beside that other cells and blocks are
allocated and the roots change, in any order.  A `Transcript` is what was done, the newest event
first, each with the state before it.

    table      names interned and their symbols, the newest first
    bucket k   the part of the table whose hashes select k, linked in this order

The second line is `Tabled`, which every event keeps.  It makes looking a name up in its chain
the same as looking it up in the table (`Tabled.findSymbol?_iff`), whatever the hashes.
-/

namespace CellLisp

/-! ## What is done -/

/-- Something done with symbols, and the answer to it. -/
inductive Event where
  | interned (name : String) (v : Value)
  | found (name : String) (v? : Option Value)
  | made (name : String) (v : Value)
  | declared (v : Value) (role : Role) (arity : Option Arity)
  | assigned (v value : Value)
  | collected
  /-- A cell was placed. -/
  | placed (c : Cell) (v : Value)
  /-- A block was claimed and filled. -/
  | filled (bytes : Nat) (p : Payload) (b : Block)
  /-- The machine, the protected values or anything else but the heap and the table became
  other. -/
  | rearranged

namespace Event

/-- An event takes one state to another. -/
inductive Takes (s : State) : Event → State → Prop
  | interned {name : String} {v : Value} {s' : State} : intern name s = .ok v s' →
      Takes s (interned name v) s'
  | found (name : String) : Takes s (found name (s.findSymbol? name)) s
  | made {name : String} {v : Value} {s' : State} : makeSymbol name s = .ok v s' →
      Takes s (made name v) s'
  | declared {v : Value} {role : Role} {arity : Option Arity} {s' : State} :
      declare v role arity s = .ok () s' → Takes s (declared v role arity) s'
  | assigned {v value : Value} {s' : State} : v.isSymbol = true → s.heap.Holds value →
      setGlobal v value s = .ok () s' → Takes s (assigned v value) s'
  | collected : Takes s collected (s.collect none)
  | placed {c : Cell} {v : Value} {s' : State} : s.heap.Placeable c → allocCell c s = .ok v s' →
      Takes s (placed c v) s'
  | filled {bytes : Nat} {p : Payload} {b : Block} {s' : State} : p.size ≤ bytes →
      (∀ v ∈ p.references, v ∈ s.rootValues) → allocPayload bytes p s = .ok b s' →
      Takes s (filled bytes p b) s'
  | rearranged {s' : State} : s'.heap = s.heap → s'.symbols = s.symbols →
      (∀ v ∈ s'.rootValues, s.heap.Holds v) → Takes s rearranged s'

/-- The name that was interned. -/
def name? : Event → Option String
  | interned name _ => some name
  | _ => none

/-- The symbol whose record is written to. -/
def writes? : Event → Option Value
  | declared v _ _ | assigned v _ => some v
  | _ => none

end Event

/-- What was done with a system that starts with nothing allocated. -/
inductive Transcript (config : Config) (world : World) : List (State × Event) → State → Prop
  | start : Transcript config world [] (.initial config world)
  | next {past : List (State × Event)} {s s' : State} {e : Event} :
      Transcript config world past s → e.Takes s s' →
      Transcript config world ((s, e) :: past) s'

/-- The names interned, each as often as it was. -/
def internedNames (past : List (State × Event)) : List String := past.filterMap (·.2.name?)

/-! ## Chains -/

namespace Heap

/-- The chain from a value runs through symbols with the hashes of their names, and ends in
nil. -/
inductive Chain (h : Heap) : Value → List (String × Value) → Prop
  | nil : Chain h .nil []
  | cons {v : Value} {r : Symbol} {name : String} {rest : List (String × Value)} :
      v.isSymbol = true → h.symbol? v = some r → r.hash = hashName (Utf8.encode name) →
      h.text? r.name = some name → Chain h r.next rest → Chain h v ((name, v) :: rest)

section

variable {h h' : Heap} {A : List Value} {v u : Value} {l : List (String × Value)} {name : String}

/-- What links and names a symbol is the same. -/
structure SameLink (h h' : Heap) (v : Value) : Prop where
  link : ∀ r, h.symbol? v = some r → ∃ r', h'.symbol? v = some r' ∧ r'.hash = r.hash ∧
    r'.next = r.next ∧ h'.text? r'.name = h.text? r.name

theorem Chain.congr (hl : h.Chain v l) (hsame : ∀ e ∈ l, h.SameLink h' e.2) : h'.Chain v l := by
  induction hl with
  | nil => exact .nil
  | @cons v r name rest hv hr hhash htext _ ih =>
      obtain ⟨r', hr', hhash', hnext', htext'⟩ := (hsame _ List.mem_cons_self).link r hr
      refine .cons hv hr' (hhash'.trans hhash) (htext'.trans htext) ?_
      rw [hnext']
      exact ih fun e he => hsame e (List.mem_cons_of_mem _ he)

/-- The symbols of a chain that is led to are led to, and so are their names. -/
theorem Chain.reaches (hl : h.Chain v l) (hv : h.Reaches A v) {e : String × Value} (he : e ∈ l) :
    h.Reaches A e.2 ∧ ∀ r, h.symbol? e.2 = some r → h.Reaches A r.name := by
  induction hl with
  | nil => cases he
  | @cons v r name rest hs hr _ _ _ ih =>
      obtain ⟨i, rfl, hi, hc⟩ := symbol_of_symbol? hs hr
      have hi : (Value.ref .symbol i).cell? = some i := Value.cell?_eq_some_iff.2 ⟨_, rfl, hi⟩
      have hmem : ∀ u, u ∈ [r.name, r.next] → h.Reaches A u := by
        intro u hu
        refine reaches_of_references hv hi ?_
        have hu : u = r.name ∨ u = r.next := by simpa using hu
        rcases hu with rfl | rfl <;> simp [references, hc, Cell.block?, Cell.values]
      rcases List.mem_cons.1 he with rfl | he
      · refine ⟨hv, fun r' hr' => ?_⟩
        obtain rfl := Option.some.inj (hr.symm.trans hr')
        exact hmem _ (by simp)
      · exact ih (hmem _ (by simp)) he

theorem Kept.sameLink (hz : (h.cell 0).isFree = true) (hz' : (h'.cell 0).isFree = true)
    (hk : Kept A h h') (hv : h.Reaches A v)
    (hname : ∀ r, h.symbol? v = some r → h.Reaches A r.name) : h.SameLink h' v where
  link r hr := ⟨r, (hk.symbol? hv).trans hr, rfl, rfl, hk.text? hz hz' (hname r hr)⟩

theorem Chain.kept (hz : (h.cell 0).isFree = true) (hz' : (h'.cell 0).isFree = true)
    (hk : Kept A h h') (hl : h.Chain v l) (hv : h.Reaches A v) : h'.Chain v l :=
  hl.congr fun _ he =>
    hk.sameLink hz hz' (hl.reaches hv he).1 (hl.reaches hv he).2

theorem Chain.unique {l' : List (String × Value)} (hl : h.Chain v l) (hl' : h.Chain v l') :
    l = l' := by
  induction hl generalizing l' with
  | nil =>
      cases hl' with
      | nil => rfl
      | cons hv => cases hv
  | cons hv hr _ htext _ ih =>
      cases hl' with
      | nil => cases hv
      | cons _ hr' _ htext' hl' =>
          obtain rfl := Option.some.inj (hr.symm.trans hr')
          obtain rfl := Option.some.inj (htext.symm.trans htext')
          rw [ih hl']

/-- The symbol that stands in a chain under a name is the one that is found. -/
theorem Chain.finds_iff (hl : h.Chain v l) (hn : (l.map Prod.fst).Nodup) :
    (∃ k, h.Finds (hashName (Utf8.encode name)) name k v u) ↔ (name, u) ∈ l := by
  induction hl with
  | nil =>
      constructor
      · rintro ⟨k, hf⟩
        cases hf with
        | here hv => cases hv
        | next hv => cases hv
      · intro hmem
        cases hmem
  | @cons v r name' rest hv hr hhash htext _ ih =>
      obtain ⟨hnot, hn⟩ := List.nodup_cons.1 hn
      have hanswers : h.Answers (hashName (Utf8.encode name)) name r ↔ name' = name := by
        constructor
        · intro ha
          exact Option.some.inj (htext.symm.trans ha.2)
        · rintro rfl
          exact ⟨hhash, htext⟩
      by_cases e : name' = name
      · subst e
        have hhere := Finds.here hv hr (hanswers.2 rfl)
        constructor
        · rintro ⟨k, hf⟩
          obtain rfl := (hhere.unique hf).2
          exact List.mem_cons_self
        · intro hmem
          rcases List.mem_cons.1 hmem with he | hmem
          · cases he
            exact ⟨0, hhere⟩
          · exact absurd (List.mem_map_of_mem hmem) hnot
      · have hmem : (name, u) ∈ (name', v) :: rest ↔ (name, u) ∈ rest := by
          simp [Ne.symm e]
        rw [hmem, ← ih hn]
        constructor
        · rintro ⟨k, hf⟩
          cases hf with
          | here _ hr' ha =>
              obtain rfl := Option.some.inj (hr.symm.trans hr')
              exact absurd (hanswers.1 ha) e
          | next _ hr' _ hf =>
              obtain rfl := Option.some.inj (hr.symm.trans hr')
              exact ⟨_, hf⟩
        · rintro ⟨k, hf⟩
          exact ⟨k + 1, .next hv hr (fun ha => e (hanswers.1 ha)) hf⟩

/-! ## Writing to a symbol -/

variable {f : Symbol → Symbol}

/-- The record is written where there is one. -/
theorem modifySymbol_cases (h : Heap) (v : Value) (f : Symbol → Symbol) :
    (h.symbol? v = none ∧ h.modifySymbol v f = h) ∨
      ∃ i r, v.cell? = some i ∧ h.cell i = .symbol r ∧
        h.modifySymbol v f = h.set i (.symbol (f r)) := by
  unfold symbol? modifySymbol
  cases hi : v.cell? with
  | none => exact .inl ⟨rfl, rfl⟩
  | some i =>
      cases hc : h.cell i with
      | symbol r => exact .inr ⟨i, r, rfl, hc, by simp only [hc]⟩
      | _ => exact .inl ⟨by simp only [hc], by simp only [hc]⟩

theorem symbol?_modifySymbol (h : Heap) (v u : Value) (f : Symbol → Symbol) :
    (h.modifySymbol v f).symbol? u
      = if u.cell? = v.cell? then (h.symbol? u).map f else h.symbol? u := by
  rcases h.modifySymbol_cases v f with ⟨hnone, hsame⟩ | ⟨i, r, hi, hc, hset⟩
  · rw [hsame]
    split
    · have hu : h.symbol? u = h.symbol? v := by simp only [symbol?, ‹u.cell? = v.cell?›]
      rw [hu, hnone]
      rfl
    · rfl
  · have huse : (h.cell i).isFree = false := by rw [hc]; rfl
    rw [hset, hi]
    unfold symbol?
    cases hu : u.cell? with
    | none => rfl
    | some j =>
        simp only [cell_set_of_inUse huse, Option.some.injEq]
        by_cases e : j = i
        · subst e
          simp [hc]
        · simp [e]

theorem text?_modifySymbol (h : Heap) (v u : Value) (f : Symbol → Symbol) :
    (h.modifySymbol v f).text? u = h.text? u := by
  rcases h.modifySymbol_cases v f with ⟨-, hsame⟩ | ⟨i, r, -, hc, hset⟩
  · rw [hsame]
  · have huse : (h.cell i).isFree = false := by rw [hc]; rfl
    rw [hset]
    unfold text?
    cases u.object? with
    | none => rfl
    | some j =>
        simp only [cell_set_of_inUse huse]
        by_cases e : j = i
        · subst e
          simp [hc]
        · simp only [if_neg e]
          rfl

theorem sameLink_modifySymbol (hhash : ∀ r, (f r).hash = r.hash) (hnext : ∀ r, (f r).next = r.next)
    (hname : ∀ r, (f r).name = r.name) : h.SameLink (h.modifySymbol v f) u where
  link r hr := by
    rw [symbol?_modifySymbol, hr]
    split
    · exact ⟨f r, rfl, hhash r, hnext r, by rw [text?_modifySymbol, hname]⟩
    · exact ⟨r, rfl, rfl, rfl, text?_modifySymbol h v r.name f⟩

end

end Heap

/-! ## The table -/

namespace State

/-- The buckets link the table, each the part that belongs to it. -/
structure Tabled (s : State) (table : List (String × Value)) : Prop where
  order : s.InOrder
  chains : ∀ k, k < s.symbols.buckets.size → s.heap.Chain (s.symbols.head k)
    (table.filter fun e => s.symbols.slot (hashName (Utf8.encode e.1)) = k)
  names : (table.map Prod.fst).Nodup
  count : s.symbols.count = table.length

section

variable {s s' : State} {table : List (String × Value)} {name : String} {u v : Value}

theorem mem_buckets_head {k : Nat} (hk : k < s.symbols.buckets.size) :
    s.symbols.head k ∈ s.rootValues := by
  refine s.bucket_subset_rootValues (Array.mem_toList_iff.2 ?_)
  rw [SymbolTable.head, Array.getD_eq_getD_getElem?, Array.getElem?_eq_getElem hk]
  exact Array.getElem_mem hk

theorem InOrder.slot_lt (hs : s.InOrder) (hash : UInt32) :
    s.symbols.slot hash < s.symbols.buckets.size :=
  Nat.mod_lt _ hs.slots

/-- The chain that a name belongs to. -/
theorem Tabled.chainOf (ht : s.Tabled table) (name : String) : s.heap.Chain (s.chainOf name)
    (table.filter fun e => s.symbols.slot (hashName (Utf8.encode e.1))
      = s.symbols.slot (hashName (Utf8.encode name))) :=
  ht.chains _ (ht.order.slot_lt _)

theorem nodup_names_filter (hn : (table.map Prod.fst).Nodup) (p : String × Value → Bool) :
    ((table.filter p).map Prod.fst).Nodup :=
  hn.sublist (List.filter_sublist.map _)

/-- To look a name up in its chain is to look it up in the table. -/
theorem Tabled.findSymbol?_iff (ht : s.Tabled table) :
    s.findSymbol? name = some v ↔ (name, v) ∈ table := by
  rw [findSymbol?_eq_some_iff, (ht.chainOf name).finds_iff (nodup_names_filter ht.names _)]
  simp

theorem Tabled.exists_ref (ht : s.Tabled table) (hv : (name, v) ∈ table) :
    ∃ i, v = .ref .symbol i ∧ i ≠ 0 := by
  obtain ⟨k, hf⟩ := findSymbol?_eq_some_iff.1 (ht.findSymbol?_iff.2 hv)
  obtain ⟨hs, r, hr, -⟩ := hf.answers
  obtain ⟨i, hi, hne, -⟩ := Heap.symbol_of_symbol? hs hr
  exact ⟨i, hi, hne⟩

/-- The symbols of the table are led to. -/
theorem Tabled.reaches (ht : s.Tabled table) (hv : (name, v) ∈ table) :
    s.heap.Reaches s.rootValues v := by
  have hhead := Heap.reaches_of_mem (h := s.heap) (mem_buckets_head (ht.order.slot_lt
    (hashName (Utf8.encode name))))
  have hmem : (name, v) ∈ table.filter fun e => s.symbols.slot (hashName (Utf8.encode e.1))
      = s.symbols.slot (hashName (Utf8.encode name)) := by simp [hv]
  exact ((ht.chainOf name).reaches hhead hmem).1

/-- The links and the buckets are the same. -/
theorem Tabled.congr (ht : s.Tabled table) (hs' : s'.InOrder) (hsymbols : s'.symbols = s.symbols)
    (hsame : ∀ k, k < s.symbols.buckets.size →
      ∀ l, s.heap.Chain (s.symbols.head k) l → s'.heap.Chain (s.symbols.head k) l) :
    s'.Tabled table where
  order := hs'
  chains k hk := by
    rw [hsymbols] at hk ⊢
    exact hsame k hk _ (ht.chains k hk)
  names := ht.names
  count := by rw [hsymbols, ht.count]

/-- Nothing but allocation. -/
theorem Tabled.grows (ht : s.Tabled table) (h : s.Grows [] s') : s'.Tabled table := by
  refine ht.congr h.order h.symbols fun k hk l hl => ?_
  refine hl.kept ht.order.isFree_zero h.order.isFree_zero h.kept (Heap.reaches_of_mem ?_)
  exact List.mem_append_left _ (mem_buckets_head hk)

/-- A new symbol under a new name. -/
theorem Tabled.linked {nameValue : Value} (ht : s.Tabled table)
    (hnone : s.findSymbol? name = none) (hv : v.isSymbol = true)
    (hrec : s.heap.symbol? v = some (.fresh nameValue (hashName (Utf8.encode name))
      (s.chainOf name)))
    (hname : s.heap.text? nameValue = some name) : (s.linked name v).Tabled ((name, v) :: table) where
  order := ht.order.linked <| by
    obtain ⟨i, rfl, -, hc⟩ := Heap.symbol_of_symbol? hv hrec
    rintro _ _ ⟨⟩ -
    rw [hc]
    exact ⟨rfl, rfl⟩
  chains k hk := by
    have hsize : (s.linked name v).symbols.buckets.size = s.symbols.buckets.size :=
      Array.size_setIfInBounds
    rw [hsize] at hk
    simp only [slot_linked, List.filter_cons]
    rw [SymbolTable.head, Array.getD_eq_getD_getElem?, getElem?_linked ht.order]
    by_cases e : k = s.symbols.slot (hashName (Utf8.encode name))
    · subst e
      simp only [if_true, decide_true, Option.getD_some]
      exact .cons hv hrec rfl hname (ht.chainOf name)
    · have hbucket : (s.linked name v).heap.Chain _ _ := ht.chains k hk
      rw [SymbolTable.head, Array.getD_eq_getD_getElem?] at hbucket
      simpa [e, Ne.symm e] using hbucket
  names := by
    refine List.nodup_cons.2 ⟨fun hmem => ?_, ht.names⟩
    obtain ⟨⟨name', u⟩, hu, rfl⟩ := List.mem_map.1 hmem
    rw [ht.findSymbol?_iff.2 hu] at hnone
    cases hnone
  count := congrArg (· + 1) ht.count

/-- Writing to a symbol anything but its name, hash and link. -/
theorem InOrder.modifySymbol {f : Symbol → Symbol} (hs : s.InOrder)
    (hname : ∀ r, (f r).name = r.name) (hnext : ∀ r, (f r).next = r.next)
    (hvalue : ∀ r w, (f r).value = some w → r.value = some w ∨ s.heap.Holds w) :
    State.InOrder { s with heap := s.heap.modifySymbol v f } := by
  rcases s.heap.modifySymbol_cases v f with ⟨-, hsame⟩ | ⟨i, r, -, hc, hset⟩
  · rw [hsame]
    exact hs
  · have huse : (s.heap.cell i).isFree = false := by rw [hc]; rfl
    have htag : (Cell.symbol (f r)).tag = (s.heap.cell i).tag := by rw [hc]; rfl
    have hsound := hs.heap.wf.sound i huse
    have hold : ∀ u ∈ r.name :: (r.value.toList ++ [r.next]), s.heap.Holds u := by
      intro u hu
      refine hsound.values u ?_
      rw [hc]
      exact hu
    have hnew : s.heap.Sound (.symbol (f r)) := by
      refine ⟨fun u hu => ?_, fun b hb => by cases hb⟩
      have hu : u = (f r).name ∨ u ∈ (f r).value.toList ∨ u = (f r).next := by
        simpa [Heap.references, Cell.block?, Cell.values] using hu
      rw [hname, hnext] at hu
      rcases hu with rfl | hu | rfl
      · exact hold _ (by simp)
      · rcases hvalue r u (by simpa using hu) with hval | hval
        · exact hold _ (by simp [hval])
        · exact hval
      · exact hold _ (by simp)
    rw [hset]
    refine ⟨hs.heap.set huse rfl htag hnew (fun b hb => by cases hb) (fun b hb => by cases hb),
      fun u hu => ?_, hs.slots⟩
    exact (hs.roots u hu).set huse rfl htag

theorem Tabled.modifySymbol {f : Symbol → Symbol} (ht : s.Tabled table)
    (hhash : ∀ r, (f r).hash = r.hash) (hname : ∀ r, (f r).name = r.name)
    (hnext : ∀ r, (f r).next = r.next)
    (hvalue : ∀ r w, (f r).value = some w → r.value = some w ∨ s.heap.Holds w) :
    State.Tabled { s with heap := s.heap.modifySymbol v f } table :=
  ht.congr (ht.order.modifySymbol hname hnext hvalue) rfl fun _ _ _ hl =>
    hl.congr fun _ _ => Heap.sameLink_modifySymbol hhash hnext hname

/-- The record of a symbol of the table is kept by allocation. -/
theorem Tabled.symbol?_onward {A : List Value} (ht : s.Tabled table) (hv : (name, v) ∈ table)
    (h : s.Onward A s') : s'.heap.symbol? v = s.heap.symbol? v :=
  h.kept.symbol? ((ht.reaches hv).mono (List.subset_append_left _ _))

end

end State

/-! ## Events -/

namespace Event

variable {s s' : State} {e : Event} {table : List (String × Value)} {name : String} {v : Value}

/-- What an event does to the table: it leaves it, or it interns a name in a cell that nothing
led to. -/
inductive Extends (s : State) (table : List (String × Value)) :
    Event → List (String × Value) → Prop
  | same {e : Event} : (∀ name v, e = .interned name v → (name, v) ∈ table) →
      Extends s table e table
  | new {name : String} {v : Value} : (∀ i, v.cell? = some i → ¬s.heap.Reachable s.rootValues i) →
      Extends s table (.interned name v) ((name, v) :: table)

theorem gives_makeSymbol {E : Error → Prop} (hs : s.InOrder) (name : String) :
    Gives E (makeSymbol name) s fun v s' => s.Grows [] s' ∧
      ∀ i, v.cell? = some i → ¬s.heap.Reachable s.rootValues i :=
  (gives_newSymbol hs name _ (.inl rfl)).mono fun _ _ h => ⟨h.1, h.2.2.2⟩

theorem declare_eq_ok {role : Role} {arity : Option Arity} (h : declare v role arity s = .ok () s') :
    v.isSymbol = true ∧ s' = { s with
      heap := s.heap.modifySymbol v fun r => { r with role, arity, declared := true } } := by
  unfold declare at h
  split at h
  · cases h
    exact ⟨‹_›, rfl⟩
  · cases h

/-- All that an event can do to a state. -/
inductive Effect (s s' : State) : Event → Prop
  | interned {name : String} {v : Value} : s.Interned name v s' → Effect s s' (.interned name v)
  /-- Nothing but allocation. -/
  | allocated {e : Event} : e.writes? = none → e.name? = none → s.Grows [] s' → Effect s s' e
  /-- The record of a symbol, but for its name, hash and link. -/
  | written {e : Event} {v : Value} {f : Symbol → Symbol} : e.writes? = some v → e.name? = none →
      v.isSymbol = true → s' = { s with heap := s.heap.modifySymbol v f } →
      (∀ r, (f r).hash = r.hash) → (∀ r, (f r).name = r.name) → (∀ r, (f r).next = r.next) →
      (∀ r w, (f r).value = some w → r.value = some w ∨ s.heap.Holds w) → Effect s s' e
  /-- Neither the heap nor the table. -/
  | rearranged {e : Event} : e.writes? = none → e.name? = none → s'.InOrder → s'.heap = s.heap →
      s'.symbols = s.symbols → Effect s s' e

theorem Takes.effect (h : e.Takes s s') (hs : s.InOrder) : e.Effect s s' := by
  cases h with
  | interned h => exact .interned ((gives_interned (E := fun _ => False) hs _).of_ok h)
  | found => exact .rearranged rfl rfl hs rfl rfl
  | made h =>
      have hmade := (gives_makeSymbol (E := fun _ => False) hs _).of_ok h
      exact .allocated rfl rfl hmade.1
  | declared h =>
      obtain ⟨hv, hs'⟩ := declare_eq_ok h
      exact .written rfl rfl hv hs' (fun _ => rfl) (fun _ => rfl) (fun _ => rfl)
        (fun _ _ hw => .inl hw)
  | assigned hv hvalue h =>
      have hs' := (EStateM.Result.ok.inj h).2.symm
      refine .written rfl rfl hv hs' (fun _ => rfl) (fun _ => rfl) (fun _ => rfl) ?_
      rintro _ _ ⟨⟩
      exact .inr hvalue
  | collected =>
      exact .allocated rfl rfl (State.grows_collect hs (fun _ hc => by cases hc) fun _ hv => by
        cases hv)
  | placed hc h =>
      have hplaced := (gives_allocCell (E := fun _ => False) hs hc).of_ok h
      exact .allocated rfl rfl (hplaced.1.mono (List.nil_subset _))
  | filled hsize hrefs h =>
      have hfilled := (gives_allocPayload (E := fun _ => False) hs hsize hrefs).of_ok h
      exact .allocated rfl rfl hfilled.1
  | rearranged hheap hsymbols hroots =>
      refine .rearranged rfl rfl ⟨?_, ?_, ?_⟩ hheap hsymbols
      · rw [hheap]
        exact hs.heap
      · rw [hheap]
        exact hroots
      · rw [hsymbols]
        exact hs.slots

theorem Extends.of_name?_eq_none (he : e.name? = none) : e.Extends s table table := by
  refine .same ?_
  rintro _ _ rfl
  cases he

/-- One event. -/
theorem Takes.tabled (h : e.Takes s s') (ht : s.Tabled table) :
    ∃ table', s'.Tabled table' ∧ e.Extends s table table' := by
  cases h.effect ht.order with
  | @interned name _ hi =>
      cases hi with
      | found hfind =>
          refine ⟨table, ht, .same ?_⟩
          rintro _ _ ⟨⟩
          exact ht.findSymbol?_iff.1 hfind
      | @linked s₁ _ hnone hon hv hrec hname hfresh =>
          have ht₁ := ht.grows hon
          have hnone₁ : s₁.findSymbol? name = none := by
            refine Option.eq_none_iff_forall_ne_some.2 fun u hfind => ?_
            rw [ht.findSymbol?_iff.2 (ht₁.findSymbol?_iff.1 hfind)] at hnone
            cases hnone
          exact ⟨_, ht₁.linked hnone₁ hv hrec hname, .new hfresh⟩
  | allocated _ hname hgrows => exact ⟨table, ht.grows hgrows, .of_name?_eq_none hname⟩
  | written _ hnone _ hs' hhash hname hnext hvalue =>
      subst hs'
      exact ⟨table, ht.modifySymbol hhash hname hnext hvalue, .of_name?_eq_none hnone⟩
  | rearranged _ hname hs' hheap hsymbols =>
      refine ⟨table, ht.congr hs' hsymbols fun _ _ _ hl => ?_, .of_name?_eq_none hname⟩
      rw [hheap]
      exact hl

/-- Symbols that are not those written to are as they were. -/
theorem Takes.symbol? (h : e.Takes s s') (ht : s.Tabled table) (hv : (name, v) ∈ table)
    (hw : e.writes? ≠ some v) : s'.heap.symbol? v = s.heap.symbol? v := by
  cases h.effect ht.order with
  | interned hi => exact ht.symbol?_onward hv (hi.onward ht.order).1
  | allocated _ _ hgrows => exact ht.symbol?_onward hv hgrows.toOnward
  | written hwrites _ hu hs' =>
      subst hs'
      rw [Heap.symbol?_modifySymbol, if_neg]
      intro hcell
      obtain ⟨i, rfl, hi⟩ := ht.exists_ref hv
      rw [Value.cell?_eq_some_iff.2 ⟨.symbol, rfl, hi⟩] at hcell
      obtain ⟨tag, rfl, -⟩ := Value.cell?_eq_some_iff.1 hcell.symm
      cases tag <;> first | exact hw hwrites | cases hu
  | rearranged _ _ _ hheap _ => rw [hheap]

end Event

/-! ## Transcripts -/

section

variable {config : Config} {world : World} {past newer older : List (State × Event)}
  {s s₀ : State} {e : Event} {name : String} {u v : Value}

theorem State.tabled_initial (config : Config) (world : World) :
    (initial config world).Tabled [] := by
  have hfree : ∀ i, ((initial config world).heap.cell i).isFree = true := Heap.isFree_new _ _ _
  have hblock : ∀ i b, ((initial config world).heap.cell i).block? ≠ some b := by
    intro i b hb
    have huse := Cell.isFree_eq_false_of_block? hb
    rw [hfree i] at huse
    cases huse
  have hs := wellFormed_initial config world
  have hsize : (initial config world).symbols.buckets.size = max config.symbolBuckets 1 :=
    Array.size_replicate
  refine
    { order := ⟨⟨hs.heap, fun i _ b hb => absurd hb (hblock i b), fun i b hb =>
        absurd hb (hblock i b)⟩, hs.roots, by rw [hsize]; omega⟩
      chains := fun k hk => ?_
      names := List.nodup_nil
      count := rfl }
  have hhead : (initial config world).symbols.head k = .nil := by
    rw [SymbolTable.head, Array.getD_eq_getD_getElem?]
    show ((Array.replicate _ Value.nil)[k]?).getD .nil = .nil
    rw [Array.getElem?_replicate]
    split <;> rfl
  rw [hhead]
  exact .nil

/-- What was interned makes up a table. -/
theorem Transcript.exists_table (h : Transcript config world past s) :
    ∃ table, s.Tabled table ∧ ∀ name v, (name, v) ∈ table ↔ .interned name v ∈ past.map Prod.snd := by
  induction h with
  | start => exact ⟨[], State.tabled_initial config world, by simp⟩
  | @next past s s' e _ he ih =>
      obtain ⟨table, ht, hmem⟩ := ih
      obtain ⟨table', ht', hext⟩ := he.tabled ht
      refine ⟨table', ht', fun name v => ?_⟩
      cases hext with
      | same hin =>
          rw [List.map_cons, List.mem_cons, ← hmem]
          constructor
          · exact fun h => .inr h
          · rintro (h | h)
            · exact hin name v h.symm
            · exact h
      | new _ => simp [hmem]

theorem Transcript.findSymbol?_iff (h : Transcript config world past s) :
    s.findSymbol? name = some v ↔ .interned name v ∈ past.map Prod.snd := by
  obtain ⟨table, ht, hmem⟩ := h.exists_table
  rw [ht.findSymbol?_iff, hmem]

/-- What was done up to an event. -/
theorem Transcript.before (h : Transcript config world (newer ++ (s₀, e) :: older) s) :
    Transcript config world older s₀ ∧ ∃ s₁, e.Takes s₀ s₁ := by
  induction newer generalizing s with
  | nil =>
      cases h with
      | next h he => exact ⟨h, _, he⟩
  | cons p newer ih =>
      cases h with
      | next h _ => exact ih h

/-- As long as a symbol made outside the table is led to, it stays outside. -/
theorem Transcript.findSymbol?_ne_of_made
    (h : Transcript config world (newer ++ (s₀, .made name u) :: older) s)
    (hkept : ∀ p ∈ newer, p.1.heap.Reaches p.1.rootValues u) (name' : String) :
    s.findSymbol? name' ≠ some u := by
  induction newer generalizing s with
  | nil =>
      cases h with
      | next h he =>
          obtain ⟨table, ht, -⟩ := h.exists_table
          cases he with
          | made hmade =>
              obtain ⟨hgrows, hfresh⟩ :=
                (Event.gives_makeSymbol (E := fun _ => False) ht.order name).of_ok hmade
              intro hfind
              have hmem := (ht.grows hgrows).findSymbol?_iff.1 hfind
              obtain ⟨i, rfl, hi⟩ := ht.exists_ref hmem
              have hcell : (Value.ref .symbol i).cell? = some i :=
                Value.cell?_eq_some_iff.2 ⟨_, rfl, hi⟩
              exact hfresh i hcell (ht.reaches hmem i hcell)
  | cons p newer ih =>
      obtain ⟨s₁, e⟩ := p
      cases h with
      | next h he =>
          have hold := ih h fun p hp => hkept p (List.mem_cons_of_mem _ hp)
          obtain ⟨table, ht, -⟩ := h.exists_table
          obtain ⟨table', ht', hext⟩ := he.tabled ht
          intro hfind
          have hmem := ht'.findSymbol?_iff.1 hfind
          cases hext with
          | same _ => exact hold (ht.findSymbol?_iff.2 hmem)
          | new hfresh =>
              rcases List.mem_cons.1 hmem with heq | hmem
              · cases heq
                obtain ⟨i, hu, hi⟩ := ht'.exists_ref List.mem_cons_self
                have hcell : u.cell? = some i := Value.cell?_eq_some_iff.2 ⟨_, hu, hi⟩
                exact hfresh i hcell (hkept _ List.mem_cons_self i hcell)
              · exact hold (ht.findSymbol?_iff.2 hmem)

theorem mem_internedNames : name ∈ internedNames past ↔ ∃ v, .interned name v ∈ past.map Prod.snd := by
  simp only [internedNames, List.mem_filterMap, List.mem_map]
  constructor
  · rintro ⟨⟨s, e⟩, hp, he⟩
    cases e <;> cases he
    exact ⟨_, _, hp, rfl⟩
  · rintro ⟨v, ⟨s, e⟩, hp, rfl⟩
    exact ⟨_, hp, rfl⟩

theorem Transcript.count (h : Transcript config world past s) :
    s.symbols.count = (internedNames past).dedup.length := by
  obtain ⟨table, ht, hmem⟩ := h.exists_table
  have hperm : (table.map Prod.fst).Perm (internedNames past).dedup := by
    refine (List.perm_ext_iff_of_nodup ht.names (List.nodup_dedup _)).2 fun name => ?_
    rw [List.mem_dedup, mem_internedNames]
    simp [hmem]
  rw [ht.count, ← hperm.length_eq, List.length_map]

/-- What the table of symbols is to a system after all that was done with it. -/
structure State.Interns (s : State) (past : List (State × Event)) : Prop where
  /-- A chain ends in nil.  Its symbols have the hashes of their names, which select the bucket,
  and are found under their names. -/
  chains : ∀ k, k < s.symbols.buckets.size → ∃ l, s.heap.Chain (s.symbols.head k) l ∧
    ∀ name v, (name, v) ∈ l →
      s.symbols.slot (hashName (Utf8.encode name)) = k ∧ s.findSymbol? name = some v
  /-- No two symbols of the table have the same name. -/
  unique : ∀ j k l l' name v v', j < s.symbols.buckets.size → k < s.symbols.buckets.size →
    s.heap.Chain (s.symbols.head j) l → s.heap.Chain (s.symbols.head k) l' →
    (name, v) ∈ l → (name, v') ∈ l' → v = v'
  /-- Exactly the names interned are found, each with its symbol. -/
  found : ∀ name v, s.findSymbol? name = some v ↔ .interned name v ∈ past.map Prod.snd
  /-- So it was whenever a name was looked for. -/
  answered : ∀ newer older s₀ name v?, past = newer ++ (s₀, .found name v?) :: older →
    ∀ v, v? = some v ↔ .interned name v ∈ older.map Prod.snd
  /-- Equal symbols, equal names. -/
  injective : ∀ a b v w, .interned a v ∈ past.map Prod.snd → .interned b w ∈ past.map Prod.snd →
    (v = w ↔ a = b)
  /-- A symbol made outside the table, as long as something leads to it, is none that is found or
  interned.  After that its cell can be given out again. -/
  made : ∀ newer older s₀ name u, past = newer ++ (s₀, .made name u) :: older →
    (∀ p ∈ newer, p.1.heap.Reaches p.1.rootValues u) → ∀ name',
      s.findSymbol? name' ≠ some u ∧ .interned name' u ∉ past.map Prod.snd ∧
        .found name' (some u) ∉ past.map Prod.snd
  /-- Each name is counted once. -/
  count : s.symbols.count = (internedNames past).dedup.length
  /-- A collection, whatever cell is about to be placed, keeps each symbol under its name, and its
  record as it is. -/
  collected : ∀ pending, (∀ c, pending = some c → s.heap.Sound c) → ∀ name v,
    s.findSymbol? name = some v → (s.collect pending).findSymbol? name = some v ∧
      (s.collect pending).heap.symbolName v = name ∧
      (s.collect pending).heap.symbol? v = s.heap.symbol? v
  /-- And so does any event that does not write to the symbol, collections on the way included. -/
  kept : ∀ e s', Event.Takes s e s' → ∀ name v, s.findSymbol? name = some v →
    s'.findSymbol? name = some v ∧ s'.heap.symbolName v = name ∧
      (e.writes? ≠ some v → s'.heap.symbol? v = s.heap.symbol? v)
  /-- A name can be interned unless a store is full; one that was interned can be always, and
  nothing changes. -/
  interns : ∀ name, Gives (fun _ => False) (intern name) s (fun v s' => s'.findSymbol? name = some v) ∧
    ∀ v, s.findSymbol? name = some v → intern name s = .ok v s

/-- Interning is a bijection between the names interned and the symbols of the table, whatever is
done and wherever the collections fall. -/
theorem Transcript.interns (h : Transcript config world past s) : s.Interns past := by
  obtain ⟨table, ht, hmem⟩ := h.exists_table
  have hbucket : ∀ {k l name v}, k < s.symbols.buckets.size → s.heap.Chain (s.symbols.head k) l →
      (name, v) ∈ l → s.symbols.slot (hashName (Utf8.encode name)) = k ∧
        s.findSymbol? name = some v := by
    intro k l name v hk hl hv
    obtain rfl := hl.unique (ht.chains k hk)
    obtain ⟨hv, hslot⟩ := List.mem_filter.1 hv
    exact ⟨of_decide_eq_true hslot, ht.findSymbol?_iff.2 hv⟩
  have hanswered : ∀ newer older s₀ name v?, past = newer ++ (s₀, .found name v?) :: older →
      ∀ v, v? = some v ↔ .interned name v ∈ older.map Prod.snd := by
    rintro newer older s₀ name v? rfl v
    obtain ⟨hbefore, s₁, he⟩ := h.before
    cases he
    exact hbefore.findSymbol?_iff
  refine
    { chains := fun k hk => ⟨_, ht.chains k hk, fun name v hv => hbucket hk (ht.chains k hk) hv⟩
      unique := fun j k l l' name v v' hj hk hl hl' hv hv' => ?_
      found := fun name v => h.findSymbol?_iff
      answered := hanswered
      injective := fun a b v w hv hw => ?_
      made := fun newer older s₀ name u hpast hkept name' => ?_
      count := h.count
      collected := fun pending hp name v hv => ?_
      kept := fun e s' he name v hv => ?_
      interns := fun name => ⟨?_, fun v hv => ?_⟩ }
  · exact Option.some.inj ((hbucket hj hl hv).2.symm.trans (hbucket hk hl' hv').2)
  · rw [← h.findSymbol?_iff] at hv hw
    constructor
    · rintro rfl
      exact (State.symbolName_of_findSymbol? hv).symm.trans (State.symbolName_of_findSymbol? hw)
    · rintro rfl
      exact Option.some.inj (hv.symm.trans hw)
  · subst hpast
    have hne := h.findSymbol?_ne_of_made hkept name'
    have hnot : .interned name' u ∉ (newer ++ (s₀, .made name u) :: older).map Prod.snd :=
      fun hin => hne (h.findSymbol?_iff.2 hin)
    refine ⟨hne, hnot, fun hfound => ?_⟩
    obtain ⟨⟨s₁, e⟩, hp, he⟩ := List.mem_map.1 hfound
    obtain ⟨newer', older', hsplit⟩ := List.append_of_mem hp
    obtain rfl : e = .found name' (some u) := he
    have hold := (hanswered newer' older' s₁ name' (some u) hsplit u).1 rfl
    rw [hsplit] at hnot
    refine hnot ?_
    simp [hold]
  · have hgrows : s.Grows [] (s.collect pending) :=
      State.grows_collect ht.order hp fun _ hv => by cases hv
    have hfind := hgrows.interned name v hv
    exact ⟨hfind, State.symbolName_of_findSymbol? hfind,
      ht.symbol?_onward (ht.findSymbol?_iff.1 hv) hgrows.toOnward⟩
  · obtain ⟨table', ht', hext⟩ := he.tabled ht
    have hin := ht.findSymbol?_iff.1 hv
    have hfind : s'.findSymbol? name = some v := by
      refine ht'.findSymbol?_iff.2 ?_
      cases hext with
      | same _ => exact hin
      | new _ => exact List.mem_cons_of_mem _ hin
    exact ⟨hfind, State.symbolName_of_findSymbol? hfind, he.symbol? ht hin⟩
  · exact (gives_intern ht.order name).mono fun _ _ h => h.2
  · unfold intern
    rw [act_bind, act_gets, hv]
    rfl

end

/-! ### Three symbols in one bucket -/

/-- Room for a few symbols, in a table with a single bucket. -/
def Config.sparse : Config := { cells := 16, payloadBytes := 512, lowWater := 0, symbolBuckets := 1 }

/-- Interns two names, and makes a symbol with the first of them. -/
def threeSymbols : Act (Value × Value × Value) := do
  let a ← intern "a"
  let b ← intern "b"
  let g ← makeSymbol "a"
  return (a, b, g)

theorem exists_threeSymbols : ∃ r s, threeSymbols (.initial .sparse .empty) = .ok r s := by
  have hok : (match threeSymbols (.initial .sparse .empty) with
      | .ok _ _ => true
      | .error _ _ => false) = true := by decide +kernel
  cases h : threeSymbols (.initial .sparse .empty) with
  | ok r s => exact ⟨r, s, rfl⟩
  | error c s =>
      rw [h] at hok
      cases hok

/-- The names are in the table, also behind a collection, and the symbol that was made is not. -/
theorem Transcript.interns_sparse : ∃ a b g s₂ s₃ past s,
    Transcript .sparse .empty ([(s₃, .collected), (s₂, .made "a" g)] ++ past) s ∧
    s.Interns ([(s₃, .collected), (s₂, .made "a" g)] ++ past) ∧
    s.findSymbol? "a" = some a ∧ s.findSymbol? "b" = some b ∧ a ≠ b ∧ s.symbols.count = 2 := by
  obtain ⟨⟨a, b, g⟩, s₃, h⟩ := exists_threeSymbols
  obtain ⟨a, s₁, ha, h⟩ := exists_of_bind_eq_ok h
  obtain ⟨b, s₂, hb, h⟩ := exists_of_bind_eq_ok h
  obtain ⟨g, s₃, hg, h⟩ := exists_of_bind_eq_ok h
  have hstart : Transcript .sparse .empty [] (.initial .sparse .empty) := .start
  have hrun := (((hstart.next (.interned ha)).next (.interned hb)).next (.made hg)).next .collected
  have hinterns := hrun.interns
  refine ⟨a, b, g, s₂, s₃, _, _, hrun, hinterns, ?_, ?_, ?_, ?_⟩
  · exact (hinterns.found "a" a).2 (by simp)
  · exact (hinterns.found "b" b).2 (by simp)
  · intro hab
    have hnames := (hinterns.injective "a" "b" a b (by simp) (by simp)).1 hab
    exact absurd hnames (by decide)
  · exact hinterns.count.trans (show (["b", "a"] : List String).dedup.length = 2 by decide)

end CellLisp
