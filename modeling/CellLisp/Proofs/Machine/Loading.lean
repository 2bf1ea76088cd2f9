import CellLisp.Proofs.State.Exhaustion
import CellLisp.Proofs.Machine.History

/-!
# `CellLisp.Proofs.Machine.Loading` — systems with code made to order

A new system is typed, and so it stays when code is loaded into it of which the instructions are
known in advance:

| | |
| :-- | :-- |
| `System.initial` | a system in which nothing has been allocated |
| `leads_loadCode` | the code is that of its plan, and protected |
| `leads_loadProc` | the same for a finished procedure, which then is a good value (`Loaded.good`) |
| `leads_loadHalt` | runs have code to return into, so they may be launched (`Prepared`) |
| `exists_run_loadPair` | a run of two procedures of which one calls the other, for what is to be evaluated |
-/

namespace CellLisp

/-! ## Before anything is loaded -/

section Initial

variable (config : Config) (world : World)

/-- Nothing is in use in a new heap, so no cell has a block. -/
theorem Heap.orderly_new (cells bytes lowWater : Nat) : (Heap.new cells bytes lowWater).Orderly := by
  have hnone : ∀ i b, ((Heap.new cells bytes lowWater).cell i).block? ≠ some b := by
    intro i b hb
    have hused := Cell.isFree_eq_false_of_block? hb
    rw [isFree_new] at hused
    cases hused
  exact ⟨wellFormed_new cells bytes lowWater, fun i j b hi => absurd hi (hnone i b),
    fun i b hi => absurd hi (hnone i b)⟩

theorem State.typed_initial : (State.initial config world).Typed fun _ => none where
  heap := Heap.orderly_new _ _ _
  roots := (State.wellFormed_initial config world).roots
  cells i := contentsOk_of_isFree (Heap.isFree_new _ _ _ i)
  buckets v hv := by
    have hmem := State.mem_rootValues_of_bucket hv
    exact proper_of_cell?_eq_none (State.cell?_of_mem_rootValues_initial hmem)
  dyns b hb := by cases hb
  known := by
    refine ⟨.inl rfl, .inl rfl, fun v hv => .inl ?_⟩
    have hnil : ∀ v ∈ ({} : WellKnown).symbols, v = .nil := by decide
    exact hnil v hv
  conts i k hc := by
    have hfree := Heap.isFree_new config.cells config.payloadBytes config.lowWater i
    rw [show (Heap.new config.cells config.payloadBytes config.lowWater).cell i = _ from hc] at hfree
    cases hfree

/-- A system in which nothing has been allocated. -/
def System.initial : System := ⟨fun _ => none, .initial config world, State.typed_initial config world⟩

end Initial

/-! ## Code -/

/-- Loads code under a name and protects it. -/
def loadCode (name : String) (arity : Arity) (instrs : List Instr) : Act Value := do
  let symbol ← intern name
  let _ ← protect symbol
  let code ← allocPayload (instrs.length * Instr.bytes) (.code instrs.toArray)
  let v ← allocCell (.bytecode { name := symbol, doc := .nil, arity, code })
  let _ ← protect v
  return v

/-- A protected value is code of a plan. -/
structure System.Loaded (w : System) (plan : Plan) (v : Value) : Prop where
  exists_index : ∃ i, v = .ref .bytecode i ∧ i ≠ 0 ∧ w.plans i = some plan
  holds : w.heap.Holds v
  rooted : v ∈ w.state.roots.toList

/-- Instructions refer to no cell, and constants are of any kind. -/
abbrev Immediate (sites : List Site) : Prop :=
  ∀ s ∈ sites, s.instr.operand.cell? = none ∧ (s.instr.op = .const → s.gives = .any)

section Code

variable {m : Mode} {d : Nat} {w w' : System} {plan : Plan} {p : Proc} {a : Arity} {v : Value}

/-- Code of a procedure that copies nothing is a value that programs may hold. -/
theorem System.Loaded.good (h : w.Loaded (.done p) v) (hp : p.copies = 0) : w.Good v := by
  obtain ⟨i, rfl, hi, hplan⟩ := h.exists_index
  refine ⟨h.holds, fun j hj _ => ?_, nofun⟩
  obtain ⟨-, rfl⟩ := Value.ref.inj hj
  exact ⟨p, hplan, hp⟩

/-- It stays so when protected values stay as they are. -/
theorem System.Loaded.good_stable (h : w.Loaded (.done p) v) (hp : p.copies = 0)
    (hs : Stable m w.state.roots.size w w') : w'.Good v := by
  refine hs.good (anchored_of_mem ?_) (h.good hp)
  have hroot : v ∈ w.state.roots.toList.take w.state.roots.size := by
    rw [← Array.length_toList, List.take_length]
    exact h.rooted
  simp only [State.base, List.mem_append]
  exact .inl (.inl (.inr hroot))

/-- It is no built-in procedure. -/
theorem System.Loaded.isTame (h : w.Loaded plan v) (pairs : Bool) :
    w.heap.isTame pairs v = true := by
  obtain ⟨i, rfl, hi, -⟩ := h.exists_index
  obtain ⟨b, hb⟩ := Cell.exists_of_tag_bytecode (h.holds _ _ rfl hi).2
  simp [Heap.isTame, Value.cell?, hi, hb]

theorem Payload.references_code_of_immediate {sites : List Site} (h : Immediate sites) :
    ∀ v ∈ (Payload.code (sites.map (·.instr)).toArray).references, v.cell? = none := by
  intro v hv
  obtain ⟨s, hs, rfl⟩ : ∃ s ∈ sites, s.instr.operand = v := by
    simpa [Payload.references] using hv
  exact (h s hs).1

/-- A spare block with such instructions makes code of the plan. -/
theorem System.storable_of_plan {name : Value} {b : Block}
    (hspare : w.heap.Spare b (plan.sites.length * Instr.bytes) (.code (plan.sites.map (·.instr)).toArray))
    (hne : plan.sites ≠ []) (himmediate : Immediate plan.sites)
    (hfits : ∀ p, plan = .done p → p.Fits a) (hname : w.Good name) :
    w.Storable (some plan) (.bytecode { name, doc := .nil, arity := a, code := b }) := by
  have hpos : 0 < plan.sites.length := List.length_pos_iff.2 hne
  have hroom : Instr.bytes ≤ w.heap.arena.capacity b :=
    Nat.le_trans (Nat.le_mul_of_pos_left _ hpos) hspare.room
  have hconsts : ConstsOk w.plans w.state.known.makeClosure plan.sites := by
    intro s hs hop
    obtain ⟨hnone, hany⟩ := himmediate s hs
    rw [hany hop]
    exact proper_of_cell?_eq_none hnone
  refine ⟨hspare.placeable rfl ?_ fun v hv => ?_, plan, rfl, hspare.payload, hroom, hconsts,
    hname.proper, proper_nil, hfits⟩
  · simp [Payload.size, Nat.mul_comm]
  · rcases List.mem_append.1 hv with hv | hv
    · exact Heap.holds_of_cell?_eq_none (Payload.references_code_of_immediate himmediate v hv)
    · obtain rfl | rfl : v = name ∨ v = .nil := by simpa [Cell.values] using hv
      · exact hname.holds
      · exact holds_nil _

/-- Instructions that refer to no cell may be loaded. -/
theorem leads_loadCode (hd : d ≤ w.state.roots.size) (hne : plan.sites ≠ [])
    (himmediate : Immediate plan.sites) (hfits : ∀ p, plan = .done p → p.Fits a) (name : String) :
    Leads (Stable m d) (loadCode name a (plan.sites.map (·.instr))) w fun v w' =>
      w'.Loaded plan v := by
  unfold loadCode
  refine Leads.bind (leads_intern w name) ?_
  rintro symbol w₁ - ⟨hsymbol, hroots, -⟩
  have hd₁ : d ≤ w₁.state.roots.size := by
    rw [hroots]
    exact hd
  refine Leads.bind (leads_protect hsymbol.holds hd₁) ?_
  rintro place w₂ hs₂ ⟨-, rfl⟩
  have hd₂ := hs₂.depth d (Nat.le_refl d) hd₁
  have hsymbol₂ : (w₁.guarding hsymbol.holds).Good symbol := ⟨hsymbol.holds, hsymbol.proper⟩
  have hroot₂ : symbol ∈ (w₁.guarding hsymbol.holds).state.rootValues :=
    State.mem_rootValues_of_root (by simp [System.guarding, System.rooted])
  have hsize : (Payload.code (plan.sites.map (·.instr)).toArray).size
      ≤ (plan.sites.map (·.instr)).length * Instr.bytes := by
    simp [Payload.size, Nat.mul_comm]
  have hpayload := leads_allocPayload (w := w₁.guarding hsymbol.holds) hsize fun v hv =>
    .inl (Payload.references_code_of_immediate himmediate v hv)
  refine Leads.bind hpayload.stable ?_
  rintro block w₃ hs₃ ⟨hg₃, hspare⟩
  have hd₃ := hs₃.depth d (Nat.le_refl d) hd₂
  have hsymbol₃ : w₃.Good symbol := hg₃.good hsymbol₂ (List.mem_append_left _ hroot₂)
  rw [List.length_map] at hspare
  have hstorable := System.storable_of_plan hspare hne himmediate hfits hsymbol₃
  refine Leads.bind (leads_allocCell hstorable rfl).stable ?_
  rintro v w₄ hs₄ ⟨-, hplaced⟩
  have hd₄ := hs₄.depth d (Nat.le_refl d) hd₃
  obtain ⟨i, hi, hv, hcell, hplan, -⟩ := hplaced.exists_index
  obtain rfl : v = .ref .bytecode i := hv
  have hholds : w₄.heap.Holds (.ref .bytecode i) := by
    rintro _ _ ⟨⟩ -
    rw [hcell]
    exact ⟨rfl, rfl⟩
  refine Leads.bind (leads_protect hholds hd₄) ?_
  rintro _ _ - ⟨-, rfl⟩
  refine Leads.pure ⟨⟨i, rfl, hi, hplan⟩, hholds, ?_⟩
  simp [System.guarding, System.rooted]

/-- A procedure may be loaded. -/
theorem leads_loadProc (hd : d ≤ w.state.roots.size) (himmediate : Immediate p.sites)
    (hfits : p.Fits a) (name : String) :
    Leads (Stable m d) (loadCode name a p.instrs) w fun v w' => w'.Loaded (.done p) v := by
  have hne : (Plan.done p).sites ≠ [] := by
    simp [Plan.sites, Proc.sites]
  have hfit : ∀ q, Plan.done p = .done q → q.Fits a := by
    rintro _ ⟨⟩
    exact hfits
  exact leads_loadCode hd hne himmediate hfit name

end Code

/-! ## Code to return into -/

/-- Loads the code that every run returns into. -/
def loadHalt : Act Unit := do
  let code ← loadCode "%halt" (.exactly 0) [⟨.halt, 0, .nil⟩]
  modify fun s => { s with known := { s.known with halt := code } }

/-- A run may be launched. -/
structure System.Prepared (w : System) : Prop where
  idle : w.state.machine.Idle
  halts : w.Halts
  addressable : Addressable w

section Halt

variable {m : Mode} {d : Nat} {o w w' : System} {v : Value} {sites : List Site}

/-- Runs may return into other code from now on. -/
theorem System.typed_returning (h : w.Loaded (.draft sites) v)
    (hsites : ∀ s ∈ sites, s.instr.op = .halt) :
    State.Typed w.plans { w.state with known := { w.state.known with halt := v } } := by
  have ht := w.typed
  refine { ht with roots := fun u hu => ?_, known := { ht.known with halt := ?_ } }
  · rw [State.mem_rootValues_iff] at hu
    rcases hu with hu | hu | rfl | hu
    · exact ht.roots u (State.mem_rootValues_iff.2 (.inl hu))
    · exact ht.roots u (State.mem_rootValues_iff.2 (.inr (.inl hu)))
    · exact h.holds
    · exact ht.roots u (State.mem_rootValues_iff.2 (.inr (.inr (.inr hu))))
  · obtain ⟨i, hv, hi, hplan⟩ := h.exists_index
    exact .inr ⟨i, sites, hv, hi, hplan, hsites⟩

/-- The system with other code to return into. -/
def System.returning (h : w.Loaded (.draft sites) v) (hsites : ∀ s ∈ sites, s.instr.op = .halt) :
    System := ⟨w.plans, _, System.typed_returning h hsites⟩

theorem System.Prepared.stable (h : w.Prepared) (hs : Stable m.rigid d w w') (ht : m.target = none) :
    w'.Prepared := by
  have hloose := hs.loosen
  refine ⟨?_, h.halts.stable hloose ht, h.addressable.stable hloose⟩
  rw [hs.machine rfl]
  exact h.idle

/-- With code to return into, runs may be launched. -/
theorem leads_loadHalt (hidle : w.state.machine.Idle) (ha : Addressable w) :
    Leads (fun _ _ => True) loadHalt w fun _ w' => w'.Prepared := by
  let m : Mode := { machine := false, pairs := false }
  have hcode : Leads (Stable m.rigid 0)
      (loadCode "%halt" (.exactly 0) ((Plan.draft [Site.halting]).sites.map (·.instr))) w
      fun v w' => w'.Loaded (.draft [Site.halting]) v :=
    leads_loadCode (Nat.zero_le _) (by decide) (by decide) (fun _ h => by cases h) _
  unfold loadHalt
  refine Leads.bindFrom hcode (fun _ _ => trivial) ?_
  intro v w₁ hs hloaded
  have hsites : ∀ s ∈ [Site.halting], s.instr.op = .halt := by decide
  refine Leads.change (u := System.returning hloaded hsites) rfl trivial ⟨?_, ?_, ?_⟩
  · change w₁.state.machine.Idle
    rw [hs.machine rfl]
    exact hidle
  · obtain ⟨i, rfl, hi, hplan⟩ := hloaded.exists_index
    exact ⟨i, Site.halting, [], rfl, hi, hplan⟩
  · have ha₁ := ha.stable hs.loosen
    exact ⟨ha₁.cells, ha₁.words, ha₁.slots, ha₁.bindings⟩

end Halt

/-! ## Two procedures -/

/-- A procedure that may be loaded by itself: it copies nothing, and refers to no cell. -/
structure Proc.Loadable (p : Proc) (a : Arity) : Prop where
  fits : p.Fits a
  immediate : Immediate p.sites
  copies : p.copies = 0

/-- Loads two procedures; the first is to be the argument of the second. -/
def loadPair (inner outer : Proc) (a b : Arity) : Act (Value × Value) := do
  loadHalt
  let inner ← loadCode "inner" a inner.instrs
  let outer ← loadCode "outer" b outer.instrs
  return (outer, inner)

/-- A system with room for them. -/
def System.small : System :=
  .initial { cells := 16, payloadBytes := 512, stackSize := 16, lowWater := 0, symbolBuckets := 2 }
    { input := [], output := .empty, log := #[], files := [] }

/-- A run may be launched on the second. -/
theorem leads_loadPair {w : System} {p q : Proc} {a b : Arity} (hidle : w.state.machine.Idle)
    (ha : Addressable w) (hp : p.Loadable a) (hq : q.Loadable b) :
    Leads (fun _ _ => True) (loadPair p q a b) w fun v w' => Launch false w' v.1 #[v.2] := by
  let m : Mode := { machine := false, pairs := false }
  unfold loadPair
  refine Leads.bindFrom (leads_loadHalt hidle ha) (fun _ _ => trivial) ?_
  rintro _ w₁ - hprepared
  have hcode := leads_loadProc (m := m.rigid) (w := w₁) (Nat.le_refl _) hp.immediate hp.fits "inner"
  refine Leads.bindFrom hcode (fun _ _ => trivial) ?_
  rintro inner w₂ hs₂ hinner
  have hcode := leads_loadProc (m := m.rigid) (w := w₂) (Nat.le_refl _) hq.immediate hq.fits "outer"
  refine Leads.bindFrom hcode (fun _ _ => trivial) ?_
  rintro outer w₃ hs₃ houter
  have hgood : w₃.Good inner := hinner.good_stable hp.copies hs₃
  have hready := (hprepared.stable hs₂ rfl).stable hs₃ rfl
  refine Leads.ok (u := w₃) rfl trivial ⟨hready.idle, hready.halts, hready.addressable,
    houter.good hq.copies, houter.isTame false, ?_⟩
  simpa using hgood

/-- What holds of the states of such a run, as far as it is evaluated. -/
theorem exists_run_loadPair {p q : Proc} {a b : Arity} (hp : p.Loadable a) (hq : q.Loadable b)
    (n : Nat) (P : State → List State → Bool)
    (hfacts : (match loadPair p q a b System.small.state with
      | .error _ _ => false
      | .ok (outer, inner) start =>
        match history outer #[inner] start n with
        | [] => false
        | s :: ss => (s :: ss).all (·.permits false) && P s ss) = true) :
    ∃ (o : System) (procedure : Value) (args : Array Value) (s : State) (ss : List State),
      Launch false o procedure args ∧ Run procedure args o.state (s :: ss) ∧
        (∀ u ∈ s :: ss, u.permits false = true) ∧ P s ss = true := by
  have hleads := leads_loadPair (w := System.small) ⟨rfl, rfl, rfl, rfl, by decide, by decide⟩
    ⟨by decide, by decide, by decide, by decide⟩ hp hq
  split at hfacts
  · cases hfacts
  · rename_i outer inner start hload
    obtain ⟨o, rfl, -, hlaunch⟩ := hleads.of_ok hload
    have hrun : history outer #[inner] o.state n ≠ [] → _ := run_history
    generalize history outer #[inner] o.state n = all at hfacts hrun
    split at hfacts
    · cases hfacts
    · rename_i s ss
      obtain ⟨htame, hholds⟩ := Bool.and_eq_true_iff.1 hfacts
      exact ⟨o, outer, #[inner], s, ss, hlaunch, hrun (List.cons_ne_nil _ _),
        List.all_eq_true.1 htame, hholds⟩

/-! ### A call within another one -/

/-- A procedure that calls its argument, and then returns. -/
def Proc.applying : Proc :=
  { scope := .new .nil [.frame, .var (.int 0)]
    least? := none
    tail := false
    body := .call [] (.ref (.int 0) none) }

/-- A procedure that calls a number, in place of itself or not. -/
def Proc.failing (tail : Bool) : Proc :=
  { scope := .new .nil [.frame], least? := none, tail, body := .call [] (.const (.int 5)) }

/-- A procedure that returns a number. -/
def Proc.answering : Proc :=
  { scope := .new .nil [.frame], least? := none, tail := true, body := .const (.int 5) }

/-- A procedure that has its argument called in its own place, with two numbers. -/
def Proc.passing : Proc :=
  { scope := .new .nil [.frame, .var (.int 0)]
    least? := none
    tail := true
    body := .call [.const (.int 7), .const (.int 8)] (.ref (.int 0) none) }

/-- A procedure that returns the list of its arguments past the first. -/
def Proc.gathering : Proc :=
  { scope := .new .nil [.frame, .var (.int 1), .var (.int 0)]
    least? := some 1
    tail := true
    body := .ref (.int 1) none }

theorem Proc.loadable_applying : Proc.applying.Loadable (.exactly 1) where
  fits :=
    { conts := rfl
      body := ⟨trivial, trivial⟩
      fixed := ⟨1, rfl, .inl rfl⟩
      least := nofun
      exact := fun _ => rfl }
  immediate := by decide
  copies := rfl

theorem Proc.loadable_failing (tail : Bool) : (Proc.failing tail).Loadable (.exactly 0) where
  fits :=
    { conts := rfl
      body := ⟨trivial, trivial⟩
      fixed := ⟨0, rfl, .inl rfl⟩
      least := nofun
      exact := fun _ => rfl }
  immediate := by cases tail <;> decide
  copies := rfl

theorem Proc.loadable_answering : Proc.answering.Loadable (.exactly 0) where
  fits :=
    { conts := rfl
      body := trivial
      fixed := ⟨0, rfl, .inl rfl⟩
      least := nofun
      exact := fun _ => rfl }
  immediate := by decide
  copies := rfl

theorem Proc.loadable_passing : Proc.passing.Loadable (.exactly 1) where
  fits :=
    { conts := rfl
      body := ⟨⟨trivial, trivial, trivial⟩, trivial⟩
      fixed := ⟨1, rfl, .inl rfl⟩
      least := nofun
      exact := fun _ => rfl }
  immediate := by decide
  copies := rfl

theorem Proc.loadable_gathering : Proc.gathering.Loadable ⟨-2⟩ where
  fits :=
    { conts := rfl
      body := trivial
      fixed := ⟨2, rfl, .inl rfl⟩
      least := by
        rintro _ ⟨⟩
        exact ⟨rfl, rfl⟩
      exact := nofun }
  immediate := by decide
  copies := rfl

/-- What holds of the states of a run in which the call of a procedure fails within that of another
one, as far as it is evaluated. -/
theorem exists_run_loadCalls (tail : Bool) (n : Nat) (P : State → List State → Bool)
    (hfacts : (match loadPair (.failing tail) .applying (.exactly 0) (.exactly 1)
        System.small.state with
      | .error _ _ => false
      | .ok (outer, inner) start =>
        match history outer #[inner] start n with
        | [] => false
        | s :: ss => (s :: ss).all (·.permits false) && P s ss) = true) :
    ∃ (o : System) (procedure : Value) (args : Array Value) (s : State) (ss : List State),
      Launch false o procedure args ∧ Run procedure args o.state (s :: ss) ∧
        (∀ u ∈ s :: ss, u.permits false = true) ∧ P s ss = true :=
  exists_run_loadPair (Proc.loadable_failing tail) Proc.loadable_applying n P hfacts

end CellLisp
