import CellLisp.Proofs.State.Alloc

/-!
# `CellLisp.Proofs.State.Change` — changes of typed states

Protected values come and go, symbols are linked into their chains, and cells and blocks in
use get other contents.  Each such change leads to a typed state in which what lasts is the
same.

| | what lasts is kept because |
| :-- | :-- |
| `leads_protect`, `leads_unprotect`, `Leads.withRoots` | the older protected values stay |
| `leads_setRoot` | the new value leads to the old one |
| `leads_link` | the new head of the chain leads to the old one |
| `leads_set` | the cell keeps its kind, and what it holds on to for good |
| `leads_modifyPayload` | an array keeps its length |
-/

namespace CellLisp

/-! ## The heap stays -/

section Roots

variable {m : Mode} {d : Nat} {w w' : System}

/-- What lasts is the same in the same heap if the new base leads to the old one. -/
theorem Stable.of_heap_eq (hheap : w'.state.heap = w.state.heap) (hplans : w'.plans = w.plans)
    (hmachine : w'.state.machine = w.state.machine) (hknown : w'.state.known = w.state.known)
    (hconfig : w'.state.config = w.state.config)
    (hsize : ∀ e ≤ d, e ≤ w.state.roots.size → e ≤ w'.state.roots.size)
    (hbase : ∀ q k, ∀ e ≤ d, m.Keeps q e → ∀ u ∈ w.state.base (m.through q k) e,
      Anchored (m.through q k) e w'.state u)
    (hsound : ∀ k < d, w.Good (w.state.roots.getD k .nil) → w'.Good (w'.state.roots.getD k .nil))
    (hbelow : ∀ k < d, k < m.floor → w'.state.roots[k]? = w.state.roots[k]?) :
    Stable m d w w' where
  known := hknown
  config := hconfig
  bound := by rw [hmachine]
  size := by rw [System.heap, System.heap, hheap]
  limit := by rw [System.heap, System.heap, hheap]
  machine _ := hmachine
  rests _ := by rw [hmachine]; exact .refl _
  depth := hsize
  sound := hsound
  below := hbelow
  along _ _ _ _ _ _ _ hp hc :=
    ⟨by rw [System.heap, hheap]; exact hc, by rw [hplans]; exact hp⟩
  anchored := by
    rintro q k - e he hq v ⟨u, hu, hl⟩
    obtain ⟨u', hu', hl'⟩ := hbase q k e he hq u hu
    exact ⟨u', hu', hl'.trans (by rw [hheap]; exact hl)⟩
  same v i _ _ := .of_eq (by rw [System.heap, System.heap, hheap])
    (fun _ _ => by rw [System.heap, System.heap, hheap])
    (fun _ h _ => by rw [hplans]; exact h) (fun _ h => by rw [hplans]; exact h)
    fun _ _ _ => by rw [hplans]

/-- A state is typed with other protected values that hold. -/
theorem System.typed_rooted (w : System) {roots : Array Value}
    (h : ∀ v ∈ roots.toList, w.heap.Holds v) :
    State.Typed w.plans { w.state with roots } := by
  have ht := w.typed
  refine ⟨⟨ht.heap, fun v hv => ?_, ht.cells, ht.buckets, ht.dyns,
    ⟨ht.known.halt, ht.known.maker, ht.known.symbols⟩⟩, ht.conts⟩
  by_cases hr : v ∈ roots.toList
  · exact h v hr
  · refine ht.roots v ?_
    simp only [State.rootValues, List.mem_append] at hv ⊢
    rcases hv with (((((hv | hv) | hv) | hv) | hv) | hv) | hv
    · simp [hv]
    · exact absurd hv hr
    all_goals simp [hv]

/-- The system with other protected values. -/
def System.rooted (w : System) (roots : Array Value) (h : ∀ v ∈ roots.toList, w.heap.Holds v) :
    System :=
  ⟨w.plans, { w.state with roots }, w.typed_rooted h⟩

theorem System.stable_rooted {roots : Array Value} (h : ∀ v ∈ roots.toList, w.heap.Holds v)
    (hsize : ∀ e ≤ d, e ≤ w.state.roots.size → e ≤ roots.size)
    (htake : ∀ q k, ∀ e ≤ d, m.Keeps q e → ∀ u ∈ w.state.roots.toList.take e,
      Anchored (m.through q k) e { w.state with roots } u)
    (hsound : ∀ k < d, w.Good (w.state.roots.getD k .nil) → w.Good (roots.getD k .nil))
    (hbelow : ∀ k < d, k < m.floor → roots[k]? = w.state.roots[k]?) :
    Stable m d w (w.rooted roots h) := by
  refine .of_heap_eq rfl rfl rfl rfl rfl hsize ?_
    (fun k hk hv => ⟨(hsound k hk hv).holds, (hsound k hk hv).proper⟩) hbelow
  intro q k e he hq u hu
  by_cases ht : u ∈ w.state.roots.toList.take e
  · exact htake q k e he hq u ht
  · refine ⟨u, ?_, .refl⟩
    simp only [State.base, List.mem_append] at hu ⊢
    rcases hu with ((hu | hu) | hu) | hu
    · exact .inl (.inl (.inl hu))
    · exact absurd hu ht
    · exact .inl (.inr hu)
    · exact .inr hu

/-- The older protected values stay. -/
theorem System.stable_rooted_of_take {roots : Array Value}
    (h : ∀ v ∈ roots.toList, w.heap.Holds v)
    (hsize : ∀ e ≤ d, e ≤ w.state.roots.size → e ≤ roots.size)
    (htake : ∀ e ≤ d, w.state.roots.toList.take e = roots.toList.take e) :
    Stable m d w (w.rooted roots h) := by
  have hget : ∀ k < d, roots[k]? = w.state.roots[k]? := by
    intro k hk
    have hget := congrArg (·[k]?) (htake (k + 1) hk)
    simp only [List.getElem?_take, Nat.lt_succ_self, if_true, Array.getElem?_toList] at hget
    exact hget.symm
  refine w.stable_rooted h hsize ?_ ?_ fun k hk _ => hget k hk
  · intro q k e he _ u hu
    rw [htake e he] at hu
    refine ⟨u, ?_, .refl⟩
    simp only [State.base, List.mem_append]
    exact .inl (.inl (.inr hu))
  · intro k hk hgood
    rw [Array.getD_eq_getD_getElem?] at hgood ⊢
    rw [hget k hk]
    exact hgood

/-- The system with one more protected value. -/
def System.guarding (w : System) {v : Value} (hv : w.heap.Holds v) : System :=
  w.rooted (w.state.roots.push v) (by
    intro u hu
    rw [Array.toList_push, List.mem_append, List.mem_singleton] at hu
    rcases hu with hu | rfl
    · refine w.typed.roots u ?_
      simp only [State.rootValues, List.mem_append]
      simp [hu]
    · exact hv)

theorem System.stable_guarding {v : Value} (hv : w.heap.Holds v) (hd : d ≤ w.state.roots.size) :
    Stable m d w (w.guarding hv) := by
  refine w.stable_rooted_of_take _ ?_ ?_
  · intro e _ he
    rw [Array.size_push]
    omega
  · intro e he
    have hle : e ≤ w.state.roots.toList.length := by
      rw [Array.length_toList]
      omega
    rw [Array.toList_push, List.take_append_of_le_length hle]

/-- Protecting a value. -/
theorem leads_protect {v : Value} (hv : w.heap.Holds v) (hd : d ≤ w.state.roots.size) :
    Leads (Stable m d) (protect v) w fun place w' =>
      place = w.state.roots.size ∧ w' = w.guarding hv := by
  unfold protect
  refine Leads.bind (Leads.get (Q := fun s w' => s = w.state ∧ w = w') ⟨rfl, rfl⟩) ?_
  rintro _ _ - ⟨rfl, rfl⟩
  split
  · trivial
  · exact .ok rfl (System.stable_guarding hv hd) ⟨rfl, rfl⟩

theorem System.holds_of_root (w : System) {v : Value} (hv : v ∈ w.state.roots.toList) :
    w.heap.Holds v := by
  refine w.typed.roots v ?_
  simp only [State.rootValues, List.mem_append]
  simp [hv]

/-- The system with only the oldest protected values. -/
def System.cut (w : System) (depth : Nat) : System :=
  w.rooted (w.state.roots.shrink depth) (by
    intro v hv
    rw [Array.toList_shrink] at hv
    exact w.holds_of_root (List.mem_of_mem_take hv))

theorem System.stable_cut (w : System) {depth : Nat} (hd : d ≤ depth) :
    Stable m d w (w.cut depth) := by
  refine w.stable_rooted_of_take _ ?_ ?_
  · intro e _ he
    rw [Array.size_shrink]
    omega
  · intro e he
    rw [Array.toList_shrink, List.take_take]
    congr 1
    omega

/-- Giving up the newest protected values. -/
theorem leads_unprotect (w : System) {count : Nat} (hd : d ≤ w.state.roots.size - count) :
    Leads (Stable m d) (unprotect count) w fun _ w' =>
      w' = w.cut (w.state.roots.size - count) :=
  .change rfl (w.stable_cut hd) rfl

/-- What an action left protected is dropped, however it ends. -/
theorem Leads.withRoots {α : Type} {act : Act α} {Q Q' : α → System → Prop}
    (h : Leads (Stable m d) act w Q) (hd : d ≤ w.state.roots.size)
    (hq : ∀ a w', Stable m d w w' → Q a w' → Q' a (w'.cut w.state.roots.size)) :
    Leads (Stable m d) (CellLisp.withRoots act) w Q' := by
  unfold Leads at h
  unfold Leads CellLisp.withRoots
  split at h
  · rename_i a s hs
    obtain ⟨w', rfl, hr, hq'⟩ := h
    simp only [hs]
    exact ⟨w'.cut w.state.roots.size, rfl, Follows.trans hr (w'.stable_cut hd), hq a w' hr hq'⟩
  · rename_i c s hs
    obtain ⟨w', rfl, hr⟩ := h
    simp only [hs]
    exact ⟨w'.cut w.state.roots.size, rfl, Follows.trans hr (w'.stable_cut hd)⟩
  · rename_i c s hs
    simp only [hs]

/-- What lasts with more protected values to start from lasts with fewer. -/
theorem Stable.of_le {e : Nat} (hs : Stable m e w w') (he : d ≤ e) : Stable m d w w' :=
  ⟨hs.known, hs.config, hs.bound, hs.size, hs.limit, hs.machine, hs.rests,
    fun k hk => hs.depth k (Nat.le_trans hk he),
    fun q k hk j hj => hs.anchored q k hk j (Nat.le_trans hj he),
    fun v i hv => hs.same v i (hv.of_le he), fun u hu => hs.along u (hu.of_le he),
    fun k hk => hs.sound k (Nat.lt_of_lt_of_le hk he),
    fun k hk => hs.below k (Nat.lt_of_lt_of_le hk he)⟩

end Roots

/-! ## Chains that grow at the head -/

section Links

variable {m : Mode} {d : Nat} {w w' : System} {v : Value}

theorem System.holds_of_mem_set {roots : Array Value} {place : Nat} {u : Value}
    (hv : w.heap.Holds v) (hr : roots = w.state.roots.setIfInBounds place v) (hu : u ∈ roots.toList) :
    w.heap.Holds u := by
  rw [hr, Array.toList_setIfInBounds] at hu
  rcases List.mem_or_eq_of_mem_set hu with hu | rfl
  · exact w.holds_of_root hu
  · exact hv

/-- A protected value is replaced by one that leads to it. -/
theorem leads_setRoot {place : Nat} (hv : w.Good v) (hplace : m.floor ≤ place)
    (hold : ∀ u, w.state.roots[place]? = some u → Lasting w.heap m.pairs v u) : Leads (Stable m d) (setRoot place v) w fun _ w' =>
      w'.plans = w.plans ∧
        w'.state = { w.state with roots := w.state.roots.setIfInBounds place v } := by
  refine .change (u := w.rooted _ fun u hu => w.holds_of_mem_set hv.holds rfl hu) rfl ?_ ⟨rfl, rfl⟩
  refine w.stable_rooted _ ?_ ?_ ?_ ?_
  · intro e _ he
    rw [Array.size_setIfInBounds]
    exact he
  · intro q _ e _ hq u hu
    obtain ⟨k, hk, rfl⟩ := List.mem_take_iff_getElem.1 hu
    rw [Array.length_toList] at hk
    have hnew : ∀ x, (w.state.roots.setIfInBounds place v)[k]? = some x →
        x ∈ (w.state.roots.setIfInBounds place v).toList.take e := by
      intro x hx
      refine List.mem_of_getElem? (i := k) ?_
      rw [List.getElem?_take, if_pos (by omega), Array.getElem?_toList]
      exact hx
    have hget : w.state.roots[k]? = some w.state.roots.toList[k] := by
      rw [Array.getElem?_eq_getElem (by omega), Array.getElem_toList]
    by_cases hkp : place = k
    · subst hkp
      rcases hq with rfl | ⟨-, hle⟩
      · refine ⟨v, ?_, hold _ hget⟩
        simp only [State.base, List.mem_append]
        refine .inl (.inl (.inr (hnew v ?_)))
        rw [Array.getElem?_setIfInBounds_self_of_lt (by omega)]
      · omega
    · refine ⟨_, ?_, .refl⟩
      simp only [State.base, List.mem_append]
      refine .inl (.inl (.inr (hnew _ ?_)))
      rw [Array.getElem?_setIfInBounds_ne hkp]
      exact hget
  · intro k _ hk
    rw [Array.getD_eq_getD_getElem?] at hk ⊢
    rw [Array.getElem?_setIfInBounds]
    split
    · split
      · exact hv
      · exact w.good_nil
    · exact hk
  · intro k _ hk
    exact Array.getElem?_setIfInBounds_ne (by omega)

/-- A symbol becomes the head of a chain, leading to the old one. -/
theorem leads_link {slot : Nat} (hv : w.Good v)
    (hold : ∀ u, w.state.symbols.buckets[slot]? = some u → Lasting w.heap false v u) :
    Leads (Stable m d) (modify fun s => { s with symbols := s.symbols.link slot v }) w fun _ w' =>
      w'.plans = w.plans ∧ w'.state = { w.state with symbols := w.state.symbols.link slot v } := by
  have ht := w.typed
  have hmem : ∀ u ∈ (w.state.symbols.link slot v).buckets.toList,
      u ∈ w.state.symbols.buckets.toList ∨ u = v := by
    intro u hu
    simp only [SymbolTable.link, Array.toList_setIfInBounds] at hu
    exact List.mem_or_eq_of_mem_set hu
  have hbase : ∀ u ∈ w.state.symbols.buckets.toList,
      ∃ u' ∈ (w.state.symbols.link slot v).buckets.toList, Lasting w.heap false u' u := by
    intro u hu
    obtain ⟨k, hk, rfl⟩ := List.mem_iff_getElem.1 hu
    rw [Array.length_toList] at hk
    simp only [SymbolTable.link]
    by_cases hks : slot = k
    · subst hks
      refine ⟨v, ?_, hold _ (by rw [Array.getElem?_eq_getElem hk, Array.getElem_toList])⟩
      refine List.mem_of_getElem? (i := slot) ?_
      rw [Array.getElem?_toList, Array.getElem?_setIfInBounds_self_of_lt hk]
    · refine ⟨_, List.mem_of_getElem? (i := k) ?_, .refl⟩
      rw [Array.getElem?_toList, Array.getElem?_setIfInBounds_ne hks, Array.getElem?_eq_getElem hk,
        Array.getElem_toList]
  have htyped : State.Typed w.plans { w.state with symbols := w.state.symbols.link slot v } := by
    refine ⟨⟨ht.heap, fun u hu => ?_, ht.cells, fun u hu => ?_, ht.dyns,
      ⟨ht.known.halt, ht.known.maker, fun u hu => ?_⟩⟩, ht.conts⟩
    · by_cases hb : u ∈ (w.state.symbols.link slot v).buckets.toList
      · rcases hmem u hb with hb | rfl
        · exact ht.roots u (State.mem_rootValues_of_bucket hb)
        · exact hv.holds
      · refine ht.roots u ?_
        simp only [State.rootValues, List.mem_append] at hu ⊢
        rcases hu with (((((hu | hu) | hu) | hu) | hu) | hu) | hu
        · exact absurd hu hb
        all_goals simp [hu]
    · rcases hmem u hu with hb | rfl
      · exact ht.buckets u hb
      · exact hv.proper
    · rcases ht.known.symbols u hu with hnil | ⟨hshape, r, hr, hl⟩
      · exact .inl hnil
      · obtain ⟨r', hr', hl'⟩ := hbase r hr
        exact .inr ⟨hshape, r', hr', hl'.trans hl⟩
  refine .change (u := ⟨w.plans, _, htyped⟩) rfl ?_ ⟨rfl, rfl⟩
  refine .of_heap_eq rfl rfl rfl rfl rfl (fun _ _ h => h) ?_ (fun _ _ h => ⟨h.holds, h.proper⟩)
    fun _ _ _ => rfl
  intro q _ e _ _ u hu
  by_cases hb : u ∈ w.state.symbols.buckets.toList
  · obtain ⟨u', hu', hl⟩ := hbase u hb
    refine ⟨u', ?_, hl.mono⟩
    simp only [State.base, List.mem_append]
    exact .inl (.inl (.inl hu'))
  · refine ⟨u, ?_, .refl⟩
    simp only [State.base, List.mem_append] at hu ⊢
    rcases hu with ((hu | hu) | hu) | hu
    · exact absurd hu hb
    · exact .inl (.inl (.inr hu))
    · exact .inl (.inr hu)
    · exact .inr hu

end Links

/-! ## Other contents -/

/-- A cell whose contents may change. -/
def Cell.isMutable : Cell → Bool
  | .pair _ _ | .symbol _ | .bytecode _ | .cont _ | .stringStream _ | .fileStream _ => true
  | _ => false

section Cells

variable {m : Mode} {d : Nat} {w w' : System} {i : Nat} {c : Cell}

/-- What lasts is found again if every cell holds on to what it held on to for good. -/
theorem Lasting.of_cells {h h' : Heap} {pairs : Bool} {u v : Value}
    (hl : Lasting h pairs u v)
    (hlast : ∀ i, (h.cell i).lasting pairs ⊆ (h'.cell i).lasting pairs) :
    Lasting h' pairs u v := by
  induction hl with
  | refl => exact .refl
  | step _ hc hw ih => exact .step ih hc (hlast _ hw)

/-- What lasts is the same if every cell keeps its kind and what it holds on to for good. -/
theorem Stable.of_cells (hstate : ∃ heap, w'.state = { w.state with heap })
    (hsize : w'.heap.cells.size = w.heap.cells.size)
    (hlimit : w'.heap.arena.limit = w.heap.arena.limit)
    (hsame : ∀ i, (w.heap.cell i).isFree = false → SameCell m w w' i)
    (hlast : ∀ q, (q = true → m.pairs = true) → ∀ i,
      (w.heap.cell i).lasting q ⊆ (w'.heap.cell i).lasting q) : Stable m d w w' := by
  obtain ⟨heap, hstate⟩ := hstate
  have hbase : ∀ q k e, w'.state.base (m.through q k) e = w.state.base (m.through q k) e := by
    intro q k e
    rw [hstate]
    rfl
  refine ⟨by rw [hstate], by rw [hstate], by rw [hstate], hsize, hlimit, fun _ => by rw [hstate],
    fun _ => by rw [hstate]; exact .refl _, fun e _ he => by rw [hstate]; exact he, ?_,
    fun v j hv hj => hsame j (hv.inUse hj), fun _ _ i head tail _ _ hp hc => ?_,
    fun k _ h => ?_,
    fun _ _ _ => by rw [hstate]⟩
  · rintro q k - e - hq v ⟨u, hu, hl⟩
    refine ⟨u, by rw [hbase]; exact hu, hl.of_cells (hlast q ?_)⟩
    rintro rfl
    rcases hq with hq | ⟨hq, -⟩
    · exact hq.symm
    · cases hq
  · have hsame := hsame i (by rw [hc]; rfl)
    unfold SameCell at hsame
    simp only [hc] at hsame
    obtain ⟨_, _, hc', hp', hsame⟩ := hsame
    obtain ⟨rfl, rfl⟩ := hsame (.inr hp)
    exact ⟨hc', hp'.2 hp⟩
  · rw [hstate]
    exact SameCell.good (fun i hi => hsame i (h.holds.inUse hi)) h

theorem Heap.IsArray.set {h : Heap} {v : Value} {n : Nat} (ha : h.IsArray v n)
    (hi : (h.cell i).isMutable = true) : (h.set i c).IsArray v n := by
  obtain ⟨j, b, rfl, hj, hcell, hn⟩ := ha
  refine ⟨j, b, rfl, hj, ?_, hn⟩
  have hne : j ≠ i := by
    rintro rfl
    rw [hcell] at hi
    cases hi
  have hin : (h.cell i).isFree = false := by
    cases hc : h.cell i <;> simp_all [Cell.isMutable, Cell.isFree]
  rw [cell_set_of_inUse hin, if_neg hne]
  exact hcell

theorem Cell.isFree_of_isMutable (hc : c.isMutable = true) : c.isFree = false := by
  cases c <;> simp_all [Cell.isMutable, Cell.isFree]

/-- Other contents for a cell, of the same kind. -/
structure System.Replaces (w : System) (i : Nat) (c : Cell) : Prop where
  old : (w.heap.cell i).isMutable = true
  new : c.isMutable = true
  tag : c.tag = (w.heap.cell i).tag
  sound : w.heap.Sound c
  typed : ContentsOk w.plans w.state.known.makeClosure w.heap (w.plans i) c
  owned : ∀ b, c.block? = some b → (w.heap.cell i).block? = some b ∨ w.heap.Unowned b
  fits : ∀ b, c.block? = some b → (w.heap.payload b).size ≤ w.heap.arena.capacity b
  next : (w.heap.cell i).lasting false ⊆ c.lasting false
  left : c.isLeft = true ∨ .ref .object i ∈ w.state.machine.conts.toList

theorem System.Replaces.orderly (hr : w.Replaces i c) : (w.heap.set i c).Orderly :=
  w.typed.heap.set (Cell.isFree_of_isMutable hr.old) (Cell.isFree_of_isMutable hr.new) hr.tag
    hr.sound hr.owned hr.fits

theorem System.Replaces.holds (hr : w.Replaces i c) {v : Value} (hv : w.heap.Holds v) :
    (w.heap.set i c).Holds v :=
  hv.set (Cell.isFree_of_isMutable hr.old) (Cell.isFree_of_isMutable hr.new) hr.tag

theorem System.Replaces.cell (hr : w.Replaces i c) (j : Nat) :
    (w.heap.set i c).cell j = if j = i then c else w.heap.cell j :=
  Heap.cell_set_of_inUse (Cell.isFree_of_isMutable hr.old) c j

theorem System.Replaces.lasting (hr : w.Replaces i c) (j : Nat) :
    (w.heap.cell j).lasting false ⊆ ((w.heap.set i c).cell j).lasting false := by
  rw [hr.cell j]
  split
  · subst_vars
    exact hr.next
  · exact fun v hv => hv

theorem System.typed_set (hr : w.Replaces i c) :
    State.Typed w.plans { w.state with heap := w.heap.set i c } := by
  have ht := w.typed
  refine ⟨⟨hr.orderly, fun v hv => hr.holds (ht.roots v hv), fun j => ?_, ht.buckets, ht.dyns,
    ⟨ht.known.halt, ?_, fun v hv => ?_⟩⟩, fun j k hj hk => ?_⟩
  · have htj := ht.cells j
    unfold CellTyped at htj ⊢
    rw [show State.heap { w.state with heap := w.heap.set i c } = w.heap.set i c from rfl, hr.cell j]
    split
    · subst_vars
      exact hr.typed.congr (fun _ _ => rfl) fun v _ n ha => ha.set hr.old
    · exact htj.congr (fun _ _ => rfl) fun v _ n ha => ha.set hr.old
  · refine ht.known.maker.imp_right ?_
    rintro ⟨j, n, hmaker, hj, hcell, hn⟩
    refine ⟨j, n, hmaker, hj, ?_, hn⟩
    have hne : j ≠ i := by
      rintro rfl
      have hold := hr.old
      rw [show w.heap.cell j = _ from hcell] at hold
      cases hold
    exact (hr.cell j).trans ((if_neg hne).trans hcell)
  · rcases ht.known.symbols v hv with hnil | ⟨hshape, u, hu, hl⟩
    · exact .inl hnil
    · exact .inr ⟨hshape, u, hu, hl.of_cells hr.lasting⟩
  · rw [show State.heap { w.state with heap := w.heap.set i c } = w.heap.set i c from rfl,
      hr.cell j] at hj
    split at hj
    · subst_vars
      rcases hr.left with hleft | hleft
      · rw [Cell.isLeft, hk] at hleft
        cases hleft
      · exact hleft
    · exact ht.conts j k hj hk

/-- The system with other contents for a cell. -/
def System.replaced (hr : w.Replaces i c) : System :=
  ⟨w.plans, { w.state with heap := w.heap.set i c }, w.typed_set hr⟩

/-- Other contents are put into a cell. -/
theorem leads_set (hr : w.Replaces i c) (hsame : SameCell m w (w.replaced hr) i)
    (hlast : (w.heap.cell i).lasting m.pairs ⊆ c.lasting m.pairs) :
    Leads (Stable m d) (modifyHeap (·.set i c)) w fun _ w' => w' = w.replaced hr := by
  refine .change (u := w.replaced hr) rfl ?_ rfl
  refine .of_cells ⟨_, rfl⟩ (by simp [System.replaced, Heap.set]) rfl (fun j _ => ?_)
    fun q hq j => ?_
  · by_cases hj : j = i
    · subst hj
      exact hsame
    · exact .of_eq ((hr.cell j).trans (if_neg hj)) (fun _ _ => rfl) (fun _ h _ => h)
        (fun _ h => h) fun _ _ _ => .rfl
  · rw [show (w.replaced hr).heap.cell j = _ from hr.cell j]
    split
    · subst_vars
      cases q with
      | false => exact hr.next
      | true =>
          rw [hq rfl] at hlast
          exact hlast
    · exact fun v hv => hv

end Cells

/-! ## Other contents of a block -/

section Payloads

variable {m : Mode} {d : Nat} {w : System} {b : Block} {f : Payload → Payload} {plans' : Plans}

/-- A block that a cell holds is claimed. -/
theorem System.claims_of_block? {i : Nat} (w : System)
    (hi : (w.heap.cell i).block? = some b) : w.heap.Claims b :=
  (w.typed.heap.wf.sound i (Cell.isFree_eq_false_of_block? hi)).block b hi

/-- Other contents for a block, under plans that may differ where that block is held. -/
structure System.Rewrites (w : System) (b : Block) (f : Payload → Payload) (plans' : Plans) :
    Prop where
  orderly : (w.heap.modifyPayload b f).Orderly
  claims : w.heap.Claims b
  owner : ∀ i, (w.heap.cell i).block? = some b →
    ContentsOk plans' w.state.known.makeClosure (w.heap.modifyPayload b f) (plans' i)
      (w.heap.cell i)
  arrays : ∀ i, w.heap.cell i = .array b →
    (f (w.heap.payload b)).items.size = (w.heap.payload b).items.size
  plans : ∀ i, (w.heap.cell i).block? ≠ some b → plans' i = w.plans i
  done : ∀ i p, w.plans i = some (.done p) → plans' i = some (.done p)
  hidden : ∀ i, plans' i = some .hidden ↔ w.plans i = some .hidden
  halt : ∀ i, w.state.known.halt.cell? = some i → plans' i = w.plans i

theorem Heap.IsArray.modifyPayload {h : Heap} {v : Value} {n : Nat} (ha : h.IsArray v n)
    (hb : h.Claims b)
    (hsize : ∀ i, h.cell i = .array b → (f (h.payload b)).items.size = (h.payload b).items.size) :
    (h.modifyPayload b f).IsArray v n := by
  obtain ⟨i, b', rfl, hi, hcell, hn⟩ := ha
  refine ⟨i, b', rfl, hi, hcell, ?_⟩
  rw [payload_modifyPayload hb]
  split
  · subst_vars
    exact hsize i hcell
  · exact hn

theorem record?_modifyPayload_of_ne {h : Heap} {b' : Block} (hne : b' ≠ b) :
    (h.modifyPayload b f).arena.record? b'.offset = h.arena.record? b'.offset := by
  have hoffset : b'.offset ≠ b.offset := by
    intro e
    exact hne (by cases b; cases b'; simp_all)
  rw [Heap.modifyPayload, Arena.record?_modify]
  cases h.arena.record? b'.offset <;> simp [hoffset]

theorem System.typed_modifyPayload (hr : w.Rewrites b f plans') :
    State.Typed plans' { w.state with heap := w.heap.modifyPayload b f } := by
  have ht := w.typed
  have hfinished : ∀ vs, Finished w.plans plans' vs :=
    fun vs v _ => ⟨fun i p _ _ hp => hr.done i p hp, fun i _ _ => hr.hidden i⟩
  have hproper : ∀ v, Proper w.plans v → Proper plans' v :=
    fun v hv => hv.congr (hfinished [v] v (List.mem_singleton_self v))
  refine ⟨⟨hr.orderly, ht.roots, fun i => ?_, fun v hv => hproper v (ht.buckets v hv),
    fun e he v hv => hproper v (ht.dyns e he v hv), ⟨?_, ht.known.maker, fun v hv => ?_⟩⟩,
    ht.conts⟩
  · by_cases hb : (w.heap.cell i).block? = some b
    · exact hr.owner i hb
    · have hti := ht.cells i
      unfold CellTyped at hti ⊢
      rw [hr.plans i hb]
      refine (hti.congr_plans (hfinished _)).congr ?_ ?_
      · intro b' hb'
        refine record?_modifyPayload_of_ne ?_
        rintro rfl
        exact hb hb'
      · exact fun v _ n ha => ha.modifyPayload hr.claims hr.arrays
  · refine ht.known.halt.imp_right ?_
    rintro ⟨i, sites, hhalt, hi, hplans, hop⟩
    have hcell : w.state.known.halt.cell? = some i := by
      rw [hhalt]
      exact Value.cell?_eq_some_iff.2 ⟨_, rfl, hi⟩
    exact ⟨i, sites, hhalt, hi, (hr.halt i hcell).trans hplans, hop⟩
  · rcases ht.known.symbols v hv with hnil | ⟨hshape, u, hu, hl⟩
    · exact .inl hnil
    · exact .inr ⟨hshape, u, hu, hl.of_cells fun i v hv => hv⟩

/-- The system with other contents for a block. -/
def System.rewritten (hr : w.Rewrites b f plans') : System :=
  ⟨plans', { w.state with heap := w.heap.modifyPayload b f }, w.typed_modifyPayload hr⟩

/-- A block gets other contents. -/
theorem leads_modifyPayload (hr : w.Rewrites b f plans')
    (htarget : ∀ i, (w.heap.cell i).block? = some b → plans' i ≠ w.plans i → m.target = some i) :
    Leads (Stable m d) (modifyHeap (·.modifyPayload b f)) w fun _ w' => w' = w.rewritten hr := by
  refine .change (u := w.rewritten hr) rfl ?_ rfl
  refine .of_cells ⟨_, rfl⟩ rfl rfl (fun i _ => ?_) fun _ _ i v hv => hv
  have hplan : ∀ plan, w.plans i = some plan → m.target ≠ some i → plans' i = some plan := by
    intro plan hp hne
    by_cases hb : (w.heap.cell i).block? = some b
    · by_cases he : plans' i = w.plans i
      · exact he.trans hp
      · exact absurd (htarget i hb he) hne
    · exact (hr.plans i hb).trans hp
  by_cases hb : (w.heap.cell i).block? = some b
  · unfold SameCell
    rw [show (w.rewritten hr).heap.cell i = w.heap.cell i from rfl]
    cases hc : w.heap.cell i with
    | array b' =>
        obtain rfl : b' = b := by simpa [hc, Cell.block?] using hb
        refine ⟨rfl, ?_⟩
        show ((w.heap.modifyPayload b' f).payload b').items.size = _
        rw [Heap.payload_modifyPayload hr.claims, if_pos rfl]
        exact hr.arrays i hc
    | bytecode r => exact ⟨⟨r, rfl, rfl⟩, hr.done i, fun sites hp hne => hplan _ hp hne⟩
    | string | stringStream => exact ⟨rfl, rfl⟩
    | free | pair | symbol | native | closure | cont | fileStream =>
        exact absurd hb (by simp [hc, Cell.block?])
  · refine .of_eq rfl ?_ hplan (hr.done i) fun _ _ _ => hr.hidden i
    intro b' hb'
    refine record?_modifyPayload_of_ne ?_
    rintro rfl
    exact hb hb'

end Payloads

end CellLisp
