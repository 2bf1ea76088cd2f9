import CellLisp.Code.Buffer
import CellLisp.Proofs.State.Held

/-!
# `CellLisp.Proofs.State.Emit` — code that is being built

The cell that instructions are emitted to is the *target* of a mode.  It is anchored, and
its plan lists the sites emitted so far (`System.Target`); whatever leaves targets alone
keeps it so.

| | the target afterwards |
| :-- | :-- |
| `leads_makeBytecode` | a new one, without sites |
| `leads_emit` | a site more |
| `leads_patch` | other operand at one site |
| `leads_finish` | a finished procedure |
-/

namespace CellLisp

/-- The mode in which no code is emitted. -/
def Mode.still (m : Mode) : Mode := { m with target := none }

/-- The mode in which code is emitted to a cell. -/
def Mode.toward (m : Mode) (t : Nat) : Mode := { m with target := some t }

/-- The cell that instructions are emitted to, with the sites emitted so far. -/
structure System.Target (w : System) (m : Mode) (d : Nat) (a : Arity) (t : Nat)
    (sites : List Site) : Prop where
  pos : t ≠ 0
  target : m.target = some t
  plan : w.plans t = some (.draft sites)
  cell : ∃ b, w.heap.cell t = .bytecode b ∧ b.arity = a
  anchored : Anchored m d w.state (.ref .bytecode t)
  halt : w.state.known.halt ≠ .ref .bytecode t

section Target

variable {m : Mode} {d : Nat} {a : Arity} {t : Nat} {w w' : System} {sites : List Site}

theorem SameCell.of_still {i : Nat} (h : SameCell m.still w w' i) : SameCell m w w' i := by
  unfold SameCell at *
  cases hc : w.heap.cell i with
  | bytecode b =>
      simp only [hc] at h ⊢
      exact ⟨h.1, h.2.1, fun sites hp _ => h.2.2 sites hp nofun⟩
  | free | pair | symbol | native | closure | cont | array | string | stringStream | fileStream =>
      simp only [hc] at h ⊢
      exact h

/-- Where no code is emitted, code is emitted to no more than one cell. -/
theorem Stable.of_still (hs : Stable m.still d w w') : Stable m d w w' :=
  ⟨hs.known, hs.config, hs.bound, hs.size, hs.limit, hs.machine, hs.rests, hs.depth, hs.anchored,
    fun v i hv hi => (hs.same v i hv hi).of_still, hs.along, hs.sound, hs.below⟩

/-- The code that every run returns into is not emitted to. -/
def System.Spares (w : System) (target : Option Nat) : Prop :=
  ∀ t, target = some t → w.state.known.halt ≠ .ref .bytecode t

theorem System.spares_none (w : System) : w.Spares none := by
  rintro _ ⟨⟩

theorem System.Target.spares (ht : w.Target m d a t sites) : w.Spares (some t) := by
  rintro _ ⟨⟩
  exact ht.halt

/-- The target stays as it is where no code is emitted. -/
theorem System.Target.stable (ht : w.Target m d a t sites) (hs : Stable m.still d w w') :
    w'.Target m d a t sites := by
  have hi : (Value.ref .bytecode t).cell? = some t := Value.cell?_eq_some_iff.2 ⟨_, rfl, ht.pos⟩
  have hsame := hs.same _ t ht.anchored hi
  obtain ⟨b, hb, ha⟩ := ht.cell
  unfold SameCell at hsame
  simp only [hb] at hsame
  obtain ⟨⟨b', hb', hab⟩, -, hdraft⟩ := hsame
  refine ⟨ht.pos, ht.target, hdraft sites ht.plan nofun, ⟨b', hb', hab.trans ha⟩,
    hs.anchors ht.anchored, ?_⟩
  rw [hs.known]
  exact ht.halt

/-- Its record, and what its block holds. -/
theorem System.Target.contents (ht : w.Target m d a t sites) {b : Bytecode}
    (hb : w.heap.cell t = .bytecode b) :
    w.heap.payload b.code = .code (sites.map (·.instr)).toArray ∧
      Instr.bytes ≤ w.heap.arena.capacity b.code ∧
      ConstsOk w.plans w.state.known.makeClosure sites ∧ Proper w.plans b.name ∧
      Proper w.plans b.doc := by
  have htyped := w.typed.cells t
  unfold CellTyped ContentsOk at htyped
  rw [show w.state.heap.cell t = _ from hb] at htyped
  obtain ⟨plan, hplan, hpay, hroom, hconsts, hname, hdoc, -⟩ := htyped
  obtain rfl : plan = .draft sites := Option.some.inj (hplan.symm.trans ht.plan)
  exact ⟨hpay, hroom, hconsts, hname, hdoc⟩

theorem System.Target.instrs (ht : w.Target m d a t sites) {b : Bytecode}
    (hb : w.heap.cell t = .bytecode b) : w.heap.instrs b = (sites.map (·.instr)).toArray := by
  rw [Heap.instrs, (ht.contents hb).1]
  rfl

theorem System.Target.bytecode? (ht : w.Target m d a t sites) {b : Bytecode}
    (hb : w.heap.cell t = .bytecode b) :
    w.heap.bytecode? (.ref .bytecode t) = some b := by
  simp [Heap.bytecode?, Value.cell?, ht.pos, hb]

/-- The record of the target is found. -/
theorem System.Target.looks (ht : w.Target m d a t sites) {b : Bytecode}
    (hb : w.heap.cell t = .bytecode b) :
    Looks (bytecodeOf (.ref .bytecode t)) w.state fun b' => b' = b := by
  unfold bytecodeOf
  refine Looks.bind (Looks.gets (Q := fun r => r = some b) (ht.bytecode? hb)) ?_
  rintro _ rfl
  exact Looks.pure rfl

end Target

/-! ## Growing -/

section Grow

variable {m : Mode} {d : Nat} {a : Arity} {t : Nat} {w w' : System} {sites : List Site}
  {b : Bytecode} {v : Value}

/-- A protected constant stays of its kind. -/
theorem Grown.constOk {A : List Value} {k : Kind} (hg : Grown A w w')
    (hv : ConstOk w.plans w.state.known.makeClosure v k) (hm : v ∈ w.state.rootValues ++ A) :
    ConstOk w'.plans w'.state.known.makeClosure v k := by
  rw [hg.known]
  refine hv.congr_plans ?_
  intro u hu
  obtain rfl := List.mem_singleton.1 hu
  exact .of_eq fun i hi => hg.plans i (.root hm hi)

theorem State.mem_rootValues_of_root {s : State} (hv : v ∈ s.roots.toList) :
    v ∈ s.rootValues := by
  simp only [State.rootValues, List.mem_append]
  simp [hv]

/-- Where the instructions of the target are kept once there is room for one more. -/
structure System.Ample (w : System) (t : Nat) (n : Nat) (block : Block) : Prop where
  held : ∃ b, w.heap.cell t = .bytecode b ∧ b.code = block
  room : (n + 1) * Instr.bytes ≤ w.heap.arena.capacity block

/-- The code of the target goes to a spare block with the same contents. -/
theorem leads_setCode {block : Block} {bytes : Nat} (ht : w.Target m d a t sites)
    (hb : w.heap.cell t = .bytecode b)
    (hs : w.heap.Spare block bytes (w.heap.payload b.code))
    (hroom : (sites.length + 1) * Instr.bytes ≤ bytes) :
    Leads (Stable m.still d) (modifyHeap (·.set t (.bytecode { b with code := block }))) w
      fun _ w' => w'.Target m d a t sites ∧ w'.Ample t sites.length block ∧
        w'.plans = w.plans ∧ w'.state = { w.state with
          heap := w.heap.set t (.bytecode { b with code := block }) } := by
  obtain ⟨hpay, -, hconsts, hname, hdoc⟩ := ht.contents hb
  have hfree : (w.heap.cell t).isFree = false := by rw [hb]; rfl
  have hrefs : w.heap.references (.bytecode { b with code := block })
      = w.heap.references (.bytecode b) := by
    simp only [Heap.references, Cell.block?, hs.payload, Cell.values]
  have hsize : (w.heap.payload b.code).size ≤ bytes := by
    rw [hpay]
    simp only [Payload.size, List.size_toArray, List.length_map, Instr.bytes] at hroom ⊢
    omega
  have hr : w.Replaces t (.bytecode { b with code := block }) := by
    have hsound := w.typed.heap.wf.sound t hfree
    rw [hb] at hsound
    refine ⟨by rw [hb]; rfl, rfl, by rw [hb]; rfl, ⟨?_, ?_⟩, ?_, ?_, ?_, ?_, .inl rfl⟩
    · rw [hrefs]
      exact hsound.values
    · rintro _ ⟨⟩
      exact hs.claims
    · refine ⟨.draft sites, ht.plan, by rw [hs.payload]; exact hpay, ?_, hconsts, hname, hdoc,
        by simp⟩
      have := hs.room
      simp only [Instr.bytes] at hroom ⊢
      omega
    · rintro _ ⟨⟩
      exact .inr hs.unowned
    · rintro _ ⟨⟩
      rw [hs.payload]
      exact Nat.le_trans hsize hs.room
    · rw [hb]
      exact fun _ h => h
  have hcell : (w.replaced hr).heap.cell t = .bytecode { b with code := block } :=
    (hr.cell t).trans (if_pos rfl)
  have hleads : Leads (Stable m.still d)
      (modifyHeap (·.set t (.bytecode { b with code := block }))) w fun _ w' => w' = w.replaced hr := by
    refine leads_set hr ?_ (by rw [hb]; exact fun _ h => h)
    unfold SameCell
    rw [hb]
    exact ⟨⟨_, hcell, rfl⟩, fun _ h => h, fun _ h _ => h⟩
  refine hleads.mono ?_
  rintro _ _ hstable rfl
  exact ⟨ht.stable hstable, ⟨⟨_, hcell, rfl⟩, Nat.le_trans hroom hs.room⟩, rfl, rfl⟩

/-- Room is made for one more instruction. -/
theorem leads_growCode {k : Kind} (ht : w.Target m d a t sites)
    (hb : w.heap.cell t = .bytecode b) (hv : w.heap.Holds v)
    (hfull : w.heap.arena.capacity b.code < (sites.length + 1) * Instr.bytes)
    (hd : d ≤ w.state.roots.size) :
    Leads (Stable m.still d) (growCode (.ref .bytecode t) b sites.length v) w fun block w' =>
      w'.Target m d a t sites ∧ w'.Ample t sites.length block ∧ w'.heap.Holds v ∧
        (ConstOk w.plans w.state.known.makeClosure v k →
          ConstOk w'.plans w'.state.known.makeClosure v k) := by
  unfold growCode
  refine Leads.bind (leads_protect hv hd) ?_
  rintro place w₁ hs₁ ⟨-, rfl⟩
  have ht₁ := ht.stable hs₁
  have hroot : v ∈ (w.guarding hv).state.rootValues :=
    State.mem_rootValues_of_root (by simp [System.guarding, System.rooted])
  refine Leads.bind (leads_allocBlock _ _).stable ?_
  rintro block w₂ hs₂ ⟨hg, hspare⟩
  have ht₂ := ht₁.stable hs₂
  have hreach : w.heap.Reachable (w.guarding hv).state.rootValues t :=
    ht₁.anchored.reachable (Value.cell?_eq_some_iff.2 ⟨_, rfl, ht.pos⟩)
  have hkept := hg.kept
  rw [List.append_nil] at hkept
  have hb₂ : w₂.heap.cell t = .bytecode b := (hkept.cell t hreach).trans hb
  have hv₂ : w₂.heap.Holds v := hg.kept.holds hv (List.mem_append_left _ hroot)
  have hsize : w₂.state.roots.size = w.state.roots.size + 1 := by
    rw [hg.roots]
    simp [System.guarding, System.rooted]
  refine Leads.bind (leads_unprotect w₂ (by omega)) ?_
  rintro _ _ hs₃ rfl
  have ht₃ := ht₂.stable hs₃
  have hsound := w₂.typed.heap.wf.sound t (by rw [hb₂]; rfl)
  have hpay₂ := (ht₂.contents hb₂).1
  have hput := leads_putPayload (w := w₂.cut (w₂.state.roots.size - 1))
    (q := w₂.heap.payload b.code) hspare ?_ ?_
  · refine Leads.bind (Leads.stable (hput.congr rfl)) ?_
    rintro _ w₄ hs₄ ⟨hg₄, hspare₄, hbeside, hplans₄⟩
    have ht₄ := ht₃.stable hs₄
    have hkept₄ := hg₄.kept
    rw [List.append_nil] at hkept₄
    have hreach₄ := ht₃.anchored.reachable (Value.cell?_eq_some_iff.2 ⟨_, rfl, ht.pos⟩)
    have hb₄ : w₄.heap.cell t = .bytecode b := (hkept₄.cell t hreach₄).trans hb₂
    have hpay₄ : w₄.heap.payload b.code = w₂.heap.payload b.code :=
      (ht₄.contents hb₄).1.trans hpay₂.symm
    have hbytes : (sites.length + 1) * Instr.bytes ≤ sites.length * 2 * Instr.bytes := by
      have := (ht.contents hb).2.1
      simp only [Instr.bytes] at this hfull ⊢
      omega
    rw [← hpay₄] at hspare₄
    have hset := leads_setCode ht₄ hb₄ hspare₄ hbytes
    refine Leads.bind (hset.congr ?_) ?_
    · simp only [act_modifyHeap, Value.cell?, ht.pos, if_false]
    · rintro _ w₅ - ⟨ht₅, hample, hplans, hstate⟩
      have hk₄ : ConstOk w.plans w.state.known.makeClosure v k →
          ConstOk w₄.plans w₄.state.known.makeClosure v k := by
        intro hk
        have hk₂ := hg.constOk (k := k) hk (List.mem_append_left _ hroot)
        rw [hplans₄, hg₄.known]
        exact hk₂
      refine Leads.pure ⟨ht₅, hample, ?_, fun hk => ?_⟩
      · rw [System.heap, hstate]
        exact (hbeside.holds hv₂).set (by rw [hb₄]; rfl) rfl (by rw [hb₄]; rfl)
      · rw [hplans, hstate]
        exact hk₄ hk
  · rw [hpay₂]
    simp only [Payload.size, List.size_toArray, List.length_map, Instr.bytes]
    omega
  · intro u hu
    refine hsound.values u ?_
    rw [hb₂]
    simp only [Heap.references, Cell.block?, List.mem_append]
    exact .inl hu

end Grow

/-! ## Emitting -/

section Emit

variable {m : Mode} {d : Nat} {a : Arity} {t : Nat} {w w' : System} {sites sites' : List Site}
  {b : Bytecode} {v : Value}

/-- Under other sites for the target, finished procedures are the same. -/
theorem System.Target.finished (ht : w.Target m d a t sites) (plan? : Option Plan) (i : Nat)
    (p : Proc) (hp : w.plans i = some (.done p)) : w.plans.with t plan? i = some (.done p) := by
  have hne : i ≠ t := by
    rintro rfl
    rw [ht.plan] at hp
    cases hp
  rw [Plans.with, if_neg hne]
  exact hp

/-- Under other sites for the target, or as a finished procedure, it is no hidden pair either. -/
theorem System.Target.hidden (ht : w.Target m d a t sites) {plan? : Option Plan}
    (hplan : plan? ≠ some .hidden) (i : Nat) :
    w.plans.with t plan? i = some .hidden ↔ w.plans i = some .hidden := by
  unfold Plans.with
  split
  · subst_vars
    simp [ht.plan, hplan]
  · rfl

theorem System.Target.keeps (ht : w.Target m d a t sites) {plan? : Option Plan}
    (hplan : plan? ≠ some .hidden) (vs : List Value) :
    Finished w.plans (w.plans.with t plan?) vs :=
  fun _ _ => ⟨fun i p _ _ hp => ht.finished _ i p hp, fun i _ _ => ht.hidden hplan i⟩

/-- The instructions of the target are changed. -/
theorem leads_rewriteTarget {f : Payload → Payload} (ht : w.Target m d a t sites)
    (hb : w.heap.cell t = .bytecode b)
    (hf : f (.code (sites.map (·.instr)).toArray) = .code (sites'.map (·.instr)).toArray)
    (hholds : ∀ s ∈ sites', w.heap.Holds s.instr.operand)
    (hroom : sites'.length * Instr.bytes ≤ w.heap.arena.capacity b.code)
    (hconsts : ConstsOk w.plans w.state.known.makeClosure sites') :
    Leads (Stable m d) (modifyHeap (·.modifyPayload b.code f)) w fun _ w' =>
      w'.Target m d a t sites' := by
  obtain ⟨hpay, hcap, -, hname, hdoc⟩ := ht.contents hb
  have hblock : (w.heap.cell t).block? = some b.code := by rw [hb]; rfl
  have hclaims := w.claims_of_block? hblock
  have howner : ∀ i, (w.heap.cell i).block? = some b.code → i = t :=
    fun i hi => w.typed.heap.owned i t _ hi hblock
  have hnew : f (w.heap.payload b.code) = .code (sites'.map (·.instr)).toArray := by rw [hpay, hf]
  have hfinished := ht.keeps (show some (.draft sites') ≠ some Plan.hidden by simp)
  have hr : w.Rewrites b.code f (w.plans.with t (some (.draft sites'))) := by
    refine ⟨?_, hclaims, fun i hi => ?_, fun i hi => ?_, fun i hi => ?_, ht.finished _,
      ht.hidden (by simp), fun i hi => ?_⟩
    · refine w.typed.heap.modifyPayload hclaims ?_ ?_
      · rw [hnew]
        intro u hu
        simp only [Payload.references, List.map_map, List.mem_map] at hu
        obtain ⟨s, hs, rfl⟩ := hu
        exact hholds s hs
      · rw [hnew]
        simpa [Payload.size, Instr.bytes, Nat.mul_comm] using hroom
    · obtain rfl := howner i hi
      rw [hb, Plans.with, if_pos rfl]
      refine ⟨.draft sites', rfl, ?_, ?_, ?_, ?_, ?_, by simp⟩
      · rw [Heap.payload_modifyPayload hclaims, if_pos rfl, hnew]
        rfl
      · rw [Heap.capacity_modifyPayload]
        exact hcap
      · intro s hs hop
        exact (hconsts s hs hop).congr_plans (hfinished _)
      · exact hname.congr (hfinished [b.name] b.name (by simp))
      · exact hdoc.congr (hfinished [b.doc] b.doc (by simp))
    · obtain rfl := howner i (by rw [hi]; rfl)
      rw [hb] at hi
      cases hi
    · rw [Plans.with, if_neg]
      rintro rfl
      exact hi hblock
    · rw [Plans.with, if_neg]
      rintro rfl
      obtain ⟨tag, he, -⟩ := Value.cell?_eq_some_iff.1 hi
      rcases w.typed.known.halt with hhalt | ⟨j, sites, hhalt, -, -, -⟩
      · rw [hhalt] at he
        cases he
      · rw [hhalt] at he
        cases he
        exact ht.halt hhalt
  have hleads := leads_modifyPayload (m := m) (d := d) hr ?_
  · refine hleads.mono ?_
    rintro _ _ hs rfl
    refine ⟨ht.pos, ht.target, ?_, ⟨b, hb, ?_⟩, hs.anchors ht.anchored, ht.halt⟩
    · exact if_pos rfl
    · obtain ⟨b', hb', ha⟩ := ht.cell
      rw [hb] at hb'
      cases hb'
      exact ha
  · intro i hi _
    rw [howner i hi]
    exact ht.target

/-- The operands of the target are there. -/
theorem System.Target.holds (ht : w.Target m d a t sites) {s : Site} (hs : s ∈ sites) :
    w.heap.Holds s.instr.operand := by
  obtain ⟨b, hb, -⟩ := ht.cell
  refine (w.typed.heap.wf.sound t (by rw [hb]; rfl)).values _ ?_
  rw [hb]
  simp only [Heap.references, Cell.block?, (ht.contents hb).1, Payload.references, List.map_map,
    List.mem_append]
  exact .inl (List.mem_map.2 ⟨s, hs, rfl⟩)

/-- An instruction is appended. -/
theorem leads_emit {s : Site} {op : Opcode} {modifier : Nat} (ht : w.Target m d a t sites)
    (hs : s.instr = ⟨op, modifier, v⟩) (hv : w.heap.Holds v)
    (hconst : op = .const → ConstOk w.plans w.state.known.makeClosure v s.gives)
    (hd : d ≤ w.state.roots.size) :
    Leads (Stable m d) (emit (.ref .bytecode t) op modifier v) w fun n w' =>
      n = sites.length ∧ w'.Target m d a t (sites ++ [s]) := by
  obtain ⟨b, hb, -⟩ := ht.cell
  unfold emit
  refine Leads.bind (ht.looks hb).leads ?_
  rintro b _ - ⟨rfl, rfl⟩
  refine Leads.bind (Leads.gets (Q := fun n w' => w = w' ∧ n = sites.length) ⟨rfl, ?_⟩) ?_
  · rw [ht.instrs hb]
    simp
  rintro _ _ - ⟨rfl, rfl⟩
  refine Leads.bind (Leads.gets (Q := fun n w' => w = w' ∧ n = w.heap.arena.capacity b.code)
    ⟨rfl, rfl⟩) ?_
  rintro _ _ - ⟨rfl, rfl⟩
  -- once there is room for it, the instruction is written
  have hwrite : ∀ block w₁, w₁.Target m d a t sites → w₁.Ample t sites.length block →
      w₁.heap.Holds v → (op = .const → ConstOk w₁.plans w₁.state.known.makeClosure v s.gives) →
      Leads (Stable m d) (do
        modifyHeap (·.modifyPayload block (.pushInstr ⟨op, modifier, v⟩))
        return sites.length) w₁ fun n w' => n = sites.length ∧ w'.Target m d a t (sites ++ [s]) := by
    rintro _ w₁ ht₁ ⟨⟨b₁, hb₁, rfl⟩, hroom⟩ hv₁ hk
    refine Leads.bind (Q := fun _ w' => w'.Target m d a t (sites ++ [s]))
      (leads_rewriteTarget ht₁ hb₁ ?_ ?_ ?_ ?_) ?_
    · simp [Payload.pushInstr, hs]
    · intro s' hs'
      rcases List.mem_append.1 hs' with hs' | hs'
      · exact ht₁.holds hs'
      · obtain rfl := List.mem_singleton.1 hs'
        rw [hs]
        exact hv₁
    · simpa using hroom
    · intro s' hs' hop
      rcases List.mem_append.1 hs' with hs' | hs'
      · exact (ht₁.contents hb₁).2.2.1 s' hs' hop
      · obtain rfl := List.mem_singleton.1 hs'
        rw [hs] at hop ⊢
        exact hk hop
    · rintro _ w₂ - ht₂
      exact Leads.pure ⟨rfl, ht₂⟩
  split
  · rename_i hfull
    refine Leads.bind ((leads_growCode (k := s.gives) ht hb hv hfull hd).weaken
      fun _ h => h.of_still) ?_
    rintro block w₁ - ⟨ht₁, hample, hv₁, hk⟩
    exact hwrite block w₁ ht₁ hample hv₁ fun hop => hk (hconst hop)
  · refine Leads.bind (Leads.pure (Q := fun block w' => w = w' ∧ block = b.code) ⟨rfl, rfl⟩) ?_
    rintro _ _ - ⟨rfl, rfl⟩
    exact hwrite b.code w ht ⟨⟨b, hb, rfl⟩, by omega⟩ hv hconst

/-- The number of instructions so far. -/
theorem System.Target.looks_length (ht : w.Target m d a t sites) :
    Looks (codeLength (.ref .bytecode t)) w.state fun n => n = sites.length := by
  obtain ⟨b, hb, -⟩ := ht.cell
  unfold codeLength
  refine Looks.bind (ht.looks hb) ?_
  rintro _ rfl
  refine Looks.gets ?_
  rw [show State.heap w.state = w.heap from rfl, ht.instrs hb]
  simp

theorem List.modify_append_length {α : Type} (f : α → α) (xs ys : List α) (x : α) :
    (xs ++ x :: ys).modify xs.length f = xs ++ f x :: ys := by
  induction xs with
  | nil => rfl
  | cons y xs ih => simp [ih]

/-- A jump to an instruction. -/
def Site.pointed (s : Site) (n : Nat) : Site :=
  { s with instr := { s.instr with operand := .ofInt n } }

/-- A jump is pointed to an instruction. -/
theorem leads_patch {before after : List Site} {s : Site}
    (ht : w.Target m d a t (before ++ s :: after)) (hs : s.instr.op ≠ .const) (n : Nat) :
    Leads (Stable m d) (patch (.ref .bytecode t) before.length n) w fun _ w' =>
      w'.Target m d a t (before ++ s.pointed n :: after) := by
  obtain ⟨b, hb, -⟩ := ht.cell
  unfold patch
  refine Leads.bind (ht.looks hb).leads ?_
  rintro b _ - ⟨rfl, rfl⟩
  have hmem : ∀ s' ∈ before ++ s.pointed n :: after,
      s' ∈ before ++ s :: after ∨ s' = s.pointed n := by
    intro s' hs'
    simp only [List.mem_append, List.mem_cons] at hs' ⊢
    rcases hs' with h | h | h
    · exact .inl (.inl h)
    · exact .inr h
    · exact .inl (.inr (.inr h))
  refine leads_rewriteTarget ht hb ?_ ?_ ?_ ?_
  · simp only [Payload.setOperand, List.modify_toArray, List.map_append, List.map_cons]
    have hlength : (before.map (·.instr)).length = before.length := List.length_map _
    rw [← hlength, List.modify_append_length]
    rfl
  · intro s' hs'
    rcases hmem s' hs' with h | rfl
    · exact ht.holds h
    · exact holds_ofInt _ _
  · have := w.typed.heap.fits t b.code (by rw [hb]; rfl)
    rw [(ht.contents hb).1] at this
    simpa [Payload.size, Instr.bytes, Nat.mul_comm] using this
  · intro s' hs' hop
    rcases hmem s' hs' with h | rfl
    · exact (ht.contents hb).2.2.1 s' h hop
    · exact absurd hop hs

/-- A site whose shape is left open. -/
def Site.drafted (s : Site) : Site := { s with shape := default }

/-- The target is a finished procedure. -/
theorem System.Target.typed_finish {p : Proc} (ht : w.Target m d a t (p.sites.map Site.drafted))
    (hfits : p.Fits a) : State.Typed (w.plans.with t (some (.done p))) w.state := by
  obtain ⟨b, hb, harity⟩ := ht.cell
  have hfinished := ht.keeps (show some (.done p) ≠ some Plan.hidden from nofun)
  have htyped := w.typed
  refine ⟨⟨htyped.heap, htyped.roots, fun i => ?_,
    fun v hv => (htyped.buckets v hv).congr (hfinished [v] v (by simp)),
    fun e he v hv => (htyped.dyns e he v hv).congr (hfinished [v] v (by simp)),
    ⟨?_, htyped.known.maker, htyped.known.symbols⟩⟩, htyped.conts⟩
  · by_cases hi : i = t
    · subst hi
      obtain ⟨hpay, hroom, hconsts, hname, hdoc⟩ := ht.contents hb
      unfold CellTyped
      rw [show w.state.heap.cell i = _ from hb, Plans.with, if_pos rfl]
      refine ⟨.done p, rfl, ?_, hroom, ?_, hname.congr (hfinished [b.name] _ (by simp)),
        hdoc.congr (hfinished [b.doc] _ (by simp)), ?_⟩
      · rw [show w.state.heap.payload b.code = _ from hpay, List.map_map]
        rfl
      · intro s hs hop
        exact (hconsts s.drafted (List.mem_map_of_mem hs) hop).congr_plans (hfinished _)
      · rintro _ ⟨⟩
        rw [harity]
        exact hfits
    · have hti := htyped.cells i
      unfold CellTyped at hti ⊢
      rw [Plans.with, if_neg hi]
      exact hti.congr_plans (hfinished _)
  · refine htyped.known.halt.imp_right ?_
    rintro ⟨i, sites, hhalt, hi, hplan, hop⟩
    refine ⟨i, sites, hhalt, hi, ?_, hop⟩
    rw [Plans.with, if_neg]
    · exact hplan
    · rintro rfl
      exact ht.halt hhalt

/-- The system in which it is. -/
def System.Target.finish {p : Proc} (ht : w.Target m d a t (p.sites.map Site.drafted))
    (hfits : p.Fits a) : System :=
  ⟨w.plans.with t (some (.done p)), w.state, ht.typed_finish hfits⟩

theorem System.Target.stable_finish {p : Proc}
    (ht : w.Target m d a t (p.sites.map Site.drafted)) (hfits : p.Fits a) :
    Stable m d w (ht.finish hfits) := by
  refine .of_cells ⟨_, rfl⟩ rfl rfl (fun i _ => ?_) fun _ _ _ _ h => h
  refine .of_eq rfl (fun _ _ => rfl) ?_ (ht.finished _ i)
    fun _ _ _ => ht.hidden (show some (.done p) ≠ some Plan.hidden from nofun) i
  intro plan hplan hne
  have hi : i ≠ t := by
    rintro rfl
    exact hne ht.target
  exact (if_neg hi).trans hplan

end Emit

/-! ## New code -/

section New

variable {m : Mode} {d d' : Nat} {a : Arity} {t : Nat} {w w₁ w₂ : System}

theorem SameCell.of_toward {i : Nat} (h : SameCell (m.toward t) w w₁ i) (hi : i ≠ t) :
    SameCell m w w₁ i := by
  unfold SameCell at *
  cases hc : w.heap.cell i with
  | bytecode b =>
      simp only [hc] at h ⊢
      refine ⟨h.1, h.2.1, fun sites hp _ => h.2.2 sites hp ?_⟩
      rintro ⟨⟩
      exact hi rfl
  | free | pair | symbol | native | closure | cont | array | string | stringStream | fileStream =>
      simp only [hc] at h ⊢
      exact h

/-- To emit code to a cell that nothing led to leaves what lasts as it was. -/
theorem Stable.toward (h₁ : Stable m d w w₁) (h₂ : Stable (m.toward t) d' w₁ w₂) (hd : d ≤ d')
    (hnew : ¬w.heap.Reachable w.state.rootValues t) : Stable m d w w₂ := by
  have h₂ := h₂.of_le hd
  exact
    { known := h₂.known.trans h₁.known
      config := h₂.config.trans h₁.config
      bound := h₂.bound.trans h₁.bound
      size := h₂.size.trans h₁.size
      limit := h₂.limit.trans h₁.limit
      machine := fun hm => (h₂.machine hm).trans (h₁.machine hm)
      rests := fun hm => (h₁.rests hm).trans (h₂.rests hm)
      depth := fun e he h => h₂.depth e he (h₁.depth e he h)
      anchored := fun q k hk e he hq v hv =>
        h₂.anchored q k hk e he hq v (h₁.anchored q k hk e he hq v hv)
      same := by
        intro v i hv hi
        have hsame := h₂.same v i (h₁.anchors hv) hi
        refine (h₁.same v i hv hi).trans (hsame.of_toward ?_)
        rintro rfl
        exact hnew (hv.reachable hi)
      along := fun u hu => (h₁.along u hu).trans (h₂.along u (h₁.anchors hu))
      sound := fun k hk h => h₂.sound k hk (h₁.sound k hk h)
      below := fun k hk hf => (h₂.below k hk hf).trans (h₁.below k hk hf) }

/-- A value of code without instructions, which nothing led to. -/
structure System.Fresh (w : System) (a : Arity) (w₁ : System) (t : Nat) : Prop where
  pos : t ≠ 0
  plan : w₁.plans t = some (.draft [])
  cell : ∃ b, w₁.heap.cell t = .bytecode b ∧ b.arity = a
  new : ¬w.heap.Reachable w.state.rootValues t
  halt : w₁.state.known.halt ≠ .ref .bytecode t

/-- New code is emitted to once it is protected. -/
theorem System.Fresh.target {u : System} {a : Arity} {t : Nat} (hfresh : u.Fresh a w t)
    (hcode : w.heap.Holds (.ref .bytecode t)) :
    (w.guarding hcode).Target (m.toward t) (w.state.roots.size + 1) a t [] := by
  refine ⟨hfresh.pos, rfl, hfresh.plan, hfresh.cell, ⟨_, ?_, .refl⟩, hfresh.halt⟩
  simp only [State.base, List.mem_append]
  refine .inl (.inl (.inr ?_))
  rw [List.take_of_length_le (by simp [System.guarding, System.rooted])]
  simp [System.guarding, System.rooted]

/-- New code. -/
theorem leads_makeBytecode {name doc : Value} (hname : w.Held m d name) (hdoc : w.Held m d doc)
    (a : Arity) :
    Leads (Stable m.still d) (makeBytecode name doc a) w fun v w' =>
      w'.heap.Holds v ∧ w'.state.roots = w.state.roots ∧
        ∃ t, v = .ref .bytecode t ∧ w.Fresh a w' t := by
  unfold makeBytecode
  refine Leads.bind (leads_allocPayload (p := .code #[]) ?_ nofun).stable ?_
  · simp [Payload.size]
  rintro block w₁ hs₁ ⟨hg₁, hspare⟩
  have hname₁ := hname.stable hs₁.of_still
  have hdoc₁ := hdoc.stable hs₁.of_still
  have hrefs : w₁.heap.references (.bytecode { name, doc, arity := a, code := block })
      = [name, doc] := by
    simp [Heap.references, Cell.block?, hspare.payload, Payload.references, Cell.values]
  have hstorable : w₁.Storable (some (.draft []))
      (.bytecode { name, doc, arity := a, code := block }) := by
    refine ⟨⟨rfl, ⟨?_, ?_⟩, ?_, ?_⟩, .draft [], rfl, hspare.payload, ?_, ?_,
      hname₁.good.proper, hdoc₁.good.proper, fun p hp => by cases hp⟩
    · rw [hrefs]
      simp [hname₁.good.holds, hdoc₁.good.holds]
    · rintro _ ⟨⟩
      exact hspare.claims
    · rintro _ ⟨⟩
      exact hspare.unowned
    · rintro _ ⟨⟩
      rw [hspare.payload]
      simp [Payload.size]
    · have := hspare.room
      simp only [initialRoom, Instr.bytes] at this ⊢
      omega
    · intro s hs
      cases hs
  refine (leads_allocCell hstorable rfl).stable.mono ?_
  rintro v w₂ - ⟨hg₂, hplaced⟩
  obtain ⟨t, ht, rfl, hcell, hplan, hnew⟩ := hplaced.exists_index
  have hnew : ¬w.heap.Reachable w.state.rootValues t := by
    intro hr
    have hkept := hg₁.kept
    rw [List.append_nil] at hkept
    refine hnew ?_
    rw [hg₁.rootValues]
    exact (hkept.reachable hr).mono (List.subset_append_left _ _)
  refine ⟨?_, hg₂.roots.trans hg₁.roots, t, rfl, ht, hplan, ⟨_, hcell, rfl⟩, hnew, fun hhalt => ?_⟩
  · rintro _ _ ⟨⟩ -
    rw [hcell]
    exact ⟨rfl, rfl⟩
  · refine hnew (.root (v := w.state.known.halt) (by simp [State.rootValues]) ?_)
    rw [← hg₁.known, ← hg₂.known, hhalt]
    exact Value.cell?_eq_some_iff.2 ⟨_, rfl, ht⟩

end New

end CellLisp
