import CellLisp.Proofs.State.Change
import CellLisp.Symbols
import CellLisp.Stream

/-!
# `CellLisp.Proofs.State.Held` — values held on to

A value is *held* when it is good and found for good, so that it stays so whatever happens.
Actions that are given held values yield good ones:

| | |
| :-- | :-- |
| `Yields m d act w` | the action leads to a good value |
| `Quiet` | an action of which heap, symbols, machine and protected values see nothing |

A symbol, a pair, an array or a stream that is held may be changed.
-/

namespace CellLisp

/-- A good value that lasts. -/
structure System.Held (m : Mode) (d : Nat) (w : System) (v : Value) : Prop where
  good : w.Good v
  anchored : ∀ i, v.cell? = some i → Anchored m d w.state v

/-- An action leads to a good value. -/
def Yields (m : Mode) (d : Nat) (act : Act Value) (w : System) : Prop :=
  Leads (Stable m d) act w fun v w' => w'.Good v

section Held

variable {m : Mode} {d : Nat} {w w' : System} {v : Value}

theorem System.good_of_cell?_eq_none (w : System) (hv : v.cell? = none) : w.Good v :=
  ⟨Heap.holds_of_cell?_eq_none hv, proper_of_cell?_eq_none hv⟩

theorem System.Held.stable (hv : w.Held m d v) (hs : Stable m d w w') : w'.Held m d v := by
  refine ⟨?_, fun i hi => hs.anchors (hv.anchored i hi)⟩
  cases hi : v.cell? with
  | none => exact w'.good_of_cell?_eq_none hi
  | some i => exact hs.good (hv.anchored i hi) hv.good

theorem System.held_of_cell?_eq_none (hv : v.cell? = none) : w.Held m d v :=
  ⟨w.good_of_cell?_eq_none hv, fun i hi => by rw [hv] at hi; cases hi⟩

theorem System.held_nil : w.Held m d .nil := System.held_of_cell?_eq_none rfl

theorem System.held_of_mem (hv : w.Good v) (hm : v ∈ w.state.base m d) : w.Held m d v :=
  ⟨hv, fun _ _ => anchored_of_mem hm⟩

/-- What a cell that lasts holds on to for good is held, if the cell's values are good. -/
theorem System.Held.step {u : Value} {i : Nat} (hu : w.Held m d u) (hi : u.cell? = some i)
    (hv : v ∈ (w.heap.cell i).lasting m.pairs) (hgood : w.Good v) : w.Held m d v :=
  ⟨hgood, fun _ _ => (hu.anchored i hi).step hi hv⟩

/-- What plain cells refer to is good, hidden pairs apart. -/
theorem System.good_of_reference {i : Nat} (w : System) (hplain : (w.heap.cell i).isPlain = true)
    (hshown : ∀ head tail, w.heap.cell i = .pair head tail → w.plans i ≠ some .hidden)
    (hv : v ∈ w.heap.references (w.heap.cell i)) :
    w.Good v := by
  refine ⟨(w.typed.heap.wf.sound i (Cell.isFree_of_isPlain hplain)).values v hv, ?_⟩
  have ht := w.typed.cells i
  unfold CellTyped ContentsOk at ht
  cases hc : w.state.heap.cell i with
  | free | closure | bytecode | cont =>
      rw [System.heap, hc] at hplain
      cases hplain
  | pair head tail =>
      rw [hc] at ht
      have htail := ht.2.resolve_right fun h => hshown head tail hc h.1
      rw [System.heap, hc] at hv
      simp only [Heap.references, Cell.block?, Cell.values, List.mem_cons, List.not_mem_nil,
        or_false] at hv
      rcases hv with rfl | rfl
      · exact ht.1
      · exact htail
  | symbol | native | array | string | stringStream | fileStream =>
      rw [hc] at ht
      rw [System.heap, hc] at hv
      exact ht v hv

theorem Yields.of_good {a : Value} (ha : w.Good a) : Yields m d (pure a) w := Leads.pure ha

/-- A fold keeps what each of its steps keeps. -/
theorem Leads.foldlM {α β : Type} {R : System → System → Prop} [Follows R] {f : β → α → Act β}
    {P : β → System → Prop} {l : List α} {b : β} (hb : P b w)
    (hf : ∀ a ∈ l, ∀ b w', R w w' → P b w' → Leads R (f b a) w' P) :
    Leads R (l.foldlM f b) w P := by
  induction l generalizing b w with
  | nil => exact Leads.pure hb
  | cons a l ih =>
      rw [List.foldlM_cons]
      refine Leads.bind (hf a (List.mem_cons_self) b w (Follows.refl w) hb) ?_
      intro b' w' hr hb'
      exact ih hb' fun a' ha' b'' w'' hr' => hf a' (List.mem_cons_of_mem _ ha') b'' w'' (Follows.trans hr hr')

end Held

/-! ## Unseen changes -/

section Quiet

variable {w : System}

/-- Two states that differ in nothing but the world and the books kept of it. -/
structure State.Quiet (s s' : State) : Prop where
  heap : s'.heap = s.heap
  symbols : s'.symbols = s.symbols
  machine : s'.machine = s.machine
  roots : s'.roots = s.roots
  known : s'.known = s.known
  config : s'.config = s.config

theorem System.typed_quiet {s' : State} (hq : w.state.Quiet s') : State.Typed w.plans s' := by
  refine w.typed.of_cells (w.typed.toTypedCells.of_kept ?_ ?_ ?_ (fun _ _ h => h) (fun _ _ => rfl)
    hq.symbols hq.machine hq.roots hq.known) hq.machine fun i k hi _ => by rw [← hq.heap]; exact hi
  · rw [hq.heap]
    exact .refl
  · rw [hq.heap]
    exact w.typed.heap
  · rw [hq.heap]
    exact w.typed.cells

/-- The system in such a state. -/
def System.quieted {s' : State} (hq : w.state.Quiet s') : System := ⟨w.plans, s', w.typed_quiet hq⟩

theorem System.grown_quieted {s' : State} (hq : w.state.Quiet s') (A : List Value) :
    Grown A w (w.quieted hq) := by
  refine ⟨fun _ _ => rfl, hq.symbols, hq.machine, hq.roots, hq.known, hq.config, ?_, ?_, ?_⟩
  · rw [show (w.quieted hq).heap = w.heap from hq.heap]
    exact .refl
  · rw [show (w.quieted hq).heap = w.heap from hq.heap]
  · rw [show (w.quieted hq).heap = w.heap from hq.heap]

theorem leads_quiet {α : Type} {act : Act α} {a : α} {s' : State} (w : System)
    (e : act w.state = .ok a s') (hq : w.state.Quiet s') :
    Leads (Grown []) act w fun x w' => x = a ∧ w'.plans = w.plans ∧ w'.state = s' :=
  .ok (u := w.quieted hq) e (w.grown_quieted hq []) ⟨rfl, rfl, rfl⟩

theorem leads_onWorld {α : Type} (w : System) (f : World → α × World) :
    Leads (Grown []) (onWorld f) w fun _ w' => w'.plans = w.plans ∧ w'.heap = w.heap := by
  have e : onWorld f w.state = .ok (f w.state.world).1
      { w.state with world := (f w.state.world).2 } := rfl
  refine (leads_quiet w e ⟨rfl, rfl, rfl, rfl, rfl, rfl⟩).mono ?_
  rintro _ w' - ⟨-, hplans, hstate⟩
  exact ⟨hplans, by rw [System.heap, hstate]⟩

theorem leads_logLine (w : System) (level : LogLevel) (text : String) :
    Leads (Grown []) (logLine level text) w fun _ w' => w'.plans = w.plans ∧ w'.heap = w.heap := by
  have e : logLine level text w.state = .ok ()
      { w.state with world := w.state.world.addLog level text } := rfl
  refine (leads_quiet w e ⟨rfl, rfl, rfl, rfl, rfl, rfl⟩).mono ?_
  rintro _ w' - ⟨-, hplans, hstate⟩
  exact ⟨hplans, by rw [System.heap, hstate]⟩

end Quiet

/-! ## Symbols -/

section Symbols

variable {m : Mode} {d : Nat} {w : System} {v : Value}

/-- What good values hold on to for good is good. -/
theorem System.good_of_lasting {u : Value} {pairs : Bool} (hl : Lasting w.heap pairs u v)
    (hu : w.Good u) : w.Good v := by
  induction hl with
  | refl => exact hu
  | @step u' v i _ hc hv ih =>
      have hvalues := Cell.lasting_subset _ _ hv
      have hmem := w.heap.mem_references_of_mem_values hvalues
      refine w.good_of_reference ?_ ?_ hmem
      · cases hcell : w.heap.cell i <;> simp_all [Cell.lasting, Cell.isPlain]
      · intro head tail hk
        obtain ⟨tag, rfl, hne⟩ := Value.cell?_eq_some_iff.1 hc
        obtain ⟨-, htag⟩ := ih.holds tag i rfl hne
        obtain rfl : tag = .pair := by rw [← htag, hk]; rfl
        exact ih.proper.shown i rfl hne

theorem System.good_of_bucket (hv : v ∈ w.state.symbols.buckets.toList) : w.Good v :=
  ⟨w.typed.roots v (State.mem_rootValues_of_bucket hv), w.typed.buckets v hv⟩

theorem System.held_of_bucket {u : Value} (hu : u ∈ w.state.symbols.buckets.toList)
    (hl : Lasting w.heap false u v) : w.Held m d v := by
  refine ⟨System.good_of_lasting hl (System.good_of_bucket hu), fun _ _ => ⟨u, ?_, hl.mono⟩⟩
  simp only [State.base, List.mem_append]
  exact .inl (.inl (.inl hu))

/-- A symbol that the system refers to is held. -/
theorem System.held_of_known (hv : v ∈ w.state.known.symbols) : w.Held m d v := by
  rcases w.typed.known.symbols v hv with rfl | ⟨-, u, hu, hl⟩
  · exact System.held_nil
  · exact System.held_of_bucket hu hl

theorem System.good_of_known (hv : v ∈ w.state.known.symbols) : w.Good v :=
  (w.held_of_known (m := { machine := false, pairs := false }) (d := 0) hv).good

theorem SymbolTable.head_mem (t : SymbolTable) (slot : Nat) :
    t.head slot = .nil ∨ t.head slot ∈ t.buckets.toList := by
  rw [SymbolTable.head, Array.getD_eq_getD_getElem?]
  cases h : t.buckets[slot]? with
  | none => exact .inl rfl
  | some u => exact .inr (List.mem_of_getElem? (i := slot) (by rw [Array.getElem?_toList, h]; rfl))

/-- A symbol found in a chain is led to from its head. -/
theorem Heap.lasting_of_findInChain {h : Heap} {hash : UInt32} {name : String} {n : Nat}
    {u : Value} (hf : h.findInChain hash name n u = some v) : Lasting h false u v := by
  induction n generalizing u with
  | zero => cases hf
  | succ n ih =>
      rw [Heap.findInChain] at hf
      split at hf
      · cases hf
      · split at hf
        · cases hf
        · rename_i s hs
          split at hf
          · obtain rfl := Option.some.inj hf
            exact .refl
          · have hnext := ih hf
            unfold Heap.symbol? at hs
            split at hs
            · rename_i i hi
              split at hs
              · rename_i s' hcell
                obtain rfl := Option.some.inj hs
                refine Lasting.trans (.step .refl hi ?_) hnext
                rw [hcell]
                simp [Cell.lasting]
              · cases hs
            · cases hs

theorem Heap.findInChain_nil (h : Heap) (hash : UInt32) (name : String) (n : Nat) :
    h.findInChain hash name n .nil = none := by
  cases n <;> rfl

/-- A symbol found by its name is held. -/
theorem System.held_of_findSymbol? {name : String} (hf : w.state.findSymbol? name = some v) :
    w.Held m d v := by
  unfold State.findSymbol? at hf
  simp only at hf
  rcases w.state.symbols.head_mem (w.state.symbols.slot (hashName (Utf8.encode name)))
    with hnil | hmem
  · rw [hnil, Heap.findInChain_nil] at hf
    cases hf
  · exact System.held_of_bucket hmem (Heap.lasting_of_findInChain hf)

/-- A new symbol. -/
theorem leads_newSymbol {next : Value} (name : String) (hash : UInt32) (hnext : w.Good next)
    (hroot : next ∈ w.state.rootValues ∨ next = .nil) :
    Leads (Grown []) (newSymbol name hash next) w fun v w' =>
      w'.Good v ∧ Lasting w'.heap false v next := by
  unfold newSymbol
  refine Leads.bind (leads_makeString w name) ?_
  intro nameValue w₁ hg hname
  have hnext₁ : w₁.Good next := by
    rcases hroot with hroot | rfl
    · exact hg.good hnext (List.mem_append_left _ hroot)
    · exact w₁.good_nil
  refine ((leads_allocPlain (System.storable_of_values rfl rfl ?_) rfl).weaken
    fun w' hg => hg.mono (List.nil_subset _)).mono ?_
  · intro u hu
    simp only [Cell.values, Option.toList_none, List.nil_append, List.mem_cons, List.not_mem_nil,
      or_false] at hu
    rcases hu with rfl | rfl
    · exact hname
    · exact hnext₁
  · rintro v w' - ⟨hgood, hplaced⟩
    obtain ⟨i, hi, rfl, hcell, -⟩ := hplaced.exists_index
    refine ⟨hgood, .step .refl (Value.cell?_eq_some_iff.2 ⟨_, rfl, hi⟩) ?_⟩
    rw [hcell]
    simp [Cell.lasting]

/-- The symbol of a name; values that are referred to stay good. -/
theorem leads_intern (w : System) (name : String) :
    Leads (Stable m d) (intern name) w fun v w' =>
      w'.Good v ∧ w'.state.roots = w.state.roots ∧
        ∀ u ∈ w.state.rootValues, w.Good u → w'.Good u := by
  unfold intern
  refine Leads.bind (Leads.gets (Q := fun f w' => w = w' ∧ f = w.state.findSymbol? name) ⟨rfl, rfl⟩) ?_
  rintro _ _ - ⟨rfl, rfl⟩
  cases hf : w.state.findSymbol? name with
  | some v =>
      exact Leads.pure ⟨(System.held_of_findSymbol? (m := m) (d := d) hf).good, rfl, fun _ _ h => h⟩
  | none =>
      refine Leads.bind (Leads.gets (Q := fun slot w' => w = w') rfl) ?_
      rintro slot _ - rfl
      refine Leads.bind (Leads.gets (Q := fun u w' => w = w' ∧ u = w.state.symbols.head slot) ⟨rfl, rfl⟩) ?_
      rintro _ _ - ⟨rfl, rfl⟩
      have hhead := w.state.symbols.head_mem slot
      have hgood : w.Good (w.state.symbols.head slot) := by
        rcases hhead with hnil | hmem
        · rw [hnil]
          exact w.good_nil
        · exact System.good_of_bucket hmem
      refine Leads.bind (leads_newSymbol name _ hgood ?_).stable ?_
      · rcases hhead with hnil | hmem
        · exact .inr hnil
        · exact .inl (State.mem_rootValues_of_bucket hmem)
      · rintro v w₁ - ⟨hg, hv, hl⟩
        refine Leads.bind (leads_link hv ?_) ?_
        · intro u hu
          have : w.state.symbols.head slot = u := by
            rw [hg.symbols] at hu
            rw [SymbolTable.head, Array.getD_eq_getD_getElem?, hu]
            rfl
          rw [← this]
          exact hl
        · rintro _ w₂ - ⟨hplans, hstate⟩
          have hgood₂ : ∀ u, w₁.Good u → w₂.Good u := by
            intro u hu
            refine ⟨?_, by rw [hplans]; exact hu.proper⟩
            rw [System.heap, hstate]
            exact hu.holds
          refine Leads.pure ⟨hgood₂ v hv, ?_, fun u hu h => ?_⟩
          · rw [hstate]
            exact hg.roots
          · exact hgood₂ u (hg.good h (List.mem_append_left _ hu))

theorem yields_intern (w : System) (name : String) : Yields m d (intern name) w :=
  (leads_intern w name).mono fun _ _ _ h => h.1

/-- A symbol outside the table. -/
theorem yields_makeSymbol (w : System) (name : String) : Yields m d (makeSymbol name) w :=
  (leads_newSymbol name _ w.good_nil (.inr rfl)).stable.mono fun _ _ _ h => h.2.1

/-- The record of a symbol changes, but for its name and the next symbol. -/
theorem leads_updateSymbol {f : Symbol → Symbol} (hname : ∀ s, (f s).name = s.name)
    (hnext : ∀ s, (f s).next = s.next)
    (hvalue : ∀ s x, (f s).value = some x → s.value = some x ∨ w.Good x)
    (hfixed : ∀ i s, v.cell? = some i → m.fixed i → (f s).value = s.value) :
    Leads (Stable m d) (updateSymbol v f) w fun _ w' =>
      w'.plans = w.plans ∧ w'.state = { w.state with heap := w.heap.modifySymbol v f } := by
  have hsame : w.heap.modifySymbol v f = w.heap → Leads (Stable m d) (updateSymbol v f) w fun _ w' =>
      w'.plans = w.plans ∧ w'.state = { w.state with heap := w.heap.modifySymbol v f } := by
    intro e
    refine .change (u := w) ?_ (Follows.refl w) ⟨rfl, ?_⟩
    · show _ = { w.state with heap := w.heap.modifySymbol v f }
      rw [e]
    · rw [e]
  cases hi : v.cell? with
  | none => exact hsame (by simp [Heap.modifySymbol, hi])
  | some i =>
      cases hc : w.heap.cell i with
      | symbol s =>
          have hrefs : ∀ u ∈ w.heap.references (.symbol (f s)), w.Good u := by
            have hold : ∀ u ∈ w.heap.references (.symbol s), w.Good u := by
              intro u hu
              rw [← hc] at hu
              exact w.good_of_reference (by rw [hc]; rfl) (by rw [hc]; simp) hu
            intro u hu
            simp only [Heap.references, Cell.block?, Cell.values, List.mem_cons, List.mem_append,
              Option.mem_toList, List.not_mem_nil, or_false] at hu hold
            rcases hu with rfl | hu | rfl
            · exact hold _ (.inl (hname s))
            · rcases hvalue s u hu with hu | hu
              · exact hold u (.inr (.inl hu))
              · exact hu
            · exact hold _ (.inr (.inr (hnext s)))
          have hr : w.Replaces i (.symbol (f s)) := by
            refine ⟨by rw [hc]; rfl, rfl, by rw [hc]; rfl,
              ⟨fun u hu => (hrefs u hu).holds, by rintro b ⟨⟩⟩,
              fun u hu => (hrefs u hu).proper, by rintro b ⟨⟩, by rintro b ⟨⟩, ?_, .inl rfl⟩
            rw [hc]
            simp [Cell.lasting, hnext s]
          have hset : w.heap.modifySymbol v f = w.heap.set i (.symbol (f s)) := by
            simp only [Heap.modifySymbol, hi, hc]
          have hcell : (w.replaced hr).heap.cell i = .symbol (f s) := (hr.cell i).trans (if_pos rfl)
          have h : Leads (Stable m d) (modifyHeap (·.set i (.symbol (f s)))) w
              fun _ w' => w' = w.replaced hr := by
            refine leads_set hr ?_ ?_
            · unfold SameCell
              rw [hc]
              exact ⟨f s, hcell, hnext s, hfixed i s hi⟩
            · rw [hc]
              simp [Cell.lasting, hnext s]
          refine (h.mono ?_).congr ?_
          · rintro _ _ - rfl
            exact ⟨rfl, by rw [hset]; rfl⟩
          · rw [updateSymbol, act_modifyHeap, act_modifyHeap, ← hset]
      | free | pair | native | closure | bytecode | cont | array | string | stringStream
      | fileStream => exact hsame (by simp [Heap.modifySymbol, hi, hc])

/-- The global value of a symbol is good. -/
theorem System.good_of_symbol? {s : Symbol} {x : Value} (hs : w.heap.symbol? v = some s)
    (hx : s.value = some x) : w.Good x := by
  unfold Heap.symbol? at hs
  split at hs
  · rename_i i _
    split at hs
    · rename_i s' hc
      cases hs
      refine w.good_of_reference (i := i) (by rw [hc]; rfl) (by rw [hc]; simp) ?_
      rw [hc]
      simp [Heap.references, Cell.block?, Cell.values, hx]
    · cases hs
  · cases hs

end Symbols

end CellLisp
