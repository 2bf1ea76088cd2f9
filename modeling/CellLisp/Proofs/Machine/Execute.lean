import CellLisp.Proofs.Machine.Trace

/-!
# `CellLisp.Proofs.Machine.Execute` — instructions that leave the continuations and bindings alone

One lemma for each of them says that the machine goes on at what the listing says comes next,
in the same frame with the operands noted there.
-/

namespace CellLisp

/-- The machine goes on after an instruction. -/
def Goes (o : Machine) (op : Opcode) (pile : List Frame) (stop : Bool) (w : System) : Prop :=
  stop = false ∧ ∃ pile', Stands w o pile' ∧ Advances op w.state.machine.place pile pile'

section Execute

variable {w w' : System} {mode : Mode} {d : Nat} {o : System} {base : Machine} {fs : List Frame}
  {f : Frame} {i : Nat} {s : Site} {R : System → System → Prop}

/-- An action with which an instruction is done. -/
theorem Leads.goesOn {act : Act Unit} {Q : System → Prop} (h : Leads R act w fun _ w' => Q w') :
    Leads R (do
      act
      return false) w fun stop w' => stop = false ∧ Q w' :=
  Leads.bindFrom h (fun _ hr => hr) fun _ w' hr hq => Leads.ok (u := w') rfl hr ⟨rfl, hq⟩

theorem Leads.goes {act : Act Unit} {op : Opcode} {pile : List Frame}
    (h : Leads R act w fun _ w' =>
      ∃ pile', Stands w' base pile' ∧ Advances op w'.state.machine.place pile pile') :
    Leads R (do
      act
      return false) w (Goes base op pile) := h.goesOn

/-- The same if the machine goes on in its frame. -/
theorem Leads.goesAt {act : Act Unit} {op : Opcode}
    (h : Leads R act w fun _ w' => ∃ f', f.Becomes f' ∧ ∃ val?, At w' base (f' :: fs) val?) :
    Leads R (do
      act
      return false) w (Goes base op (f :: fs)) :=
  Leads.goes <| h.mono fun _ _ _ ⟨_, hf, _, hat⟩ => ⟨_, .inl ⟨_, hat⟩, .stays hf⟩

/-! ### What an instruction refers to -/

/-- The compiled code of the frame, with what is known of it. -/
theorem Poised.contents (h : Poised w base f fs i s) :
    ∃ b, w.heap.cell f.cell = .bytecode b ∧
      w.heap.payload b.code = .code (f.proc.sites.map (·.instr)).toArray ∧
      ConstsOk w.plans w.state.known.makeClosure f.proc.sites := by
  obtain ⟨-, b, hb⟩ := h.frame.exists_bytecode
  have ht := w.typed.cells f.cell
  unfold CellTyped ContentsOk at ht
  rw [hb] at ht
  obtain ⟨plan, hplan, hpayload, -, hconsts, -⟩ := ht
  rw [h.frame.plan] at hplan
  obtain rfl := Option.some.inj hplan
  exact ⟨b, hb, hpayload, hconsts⟩

/-- The operand of an instruction holds. -/
theorem Poised.holds_operand (h : Poised w base f fs i s) : w.heap.Holds s.instr.operand := by
  obtain ⟨b, hb, hpayload, -⟩ := h.contents
  refine (w.typed.heap.wf.sound f.cell (by rw [hb]; rfl)).values _ ?_
  rw [show w.state.heap.cell f.cell = _ from hb]
  simp only [Heap.references, Cell.block?, show w.state.heap.payload b.code = _ from hpayload,
    Payload.references, List.map_map, List.mem_append, List.mem_map, Function.comp_apply]
  exact .inl ⟨s, List.mem_of_getElem? h.site, rfl⟩

/-- A constant is of the kind noted. -/
theorem Poised.isKind_operand (h : Poised w base f fs i s) (hop : s.instr.op = .const) :
    w.IsKind s.instr.operand s.gives := by
  obtain ⟨b, -, -, hconsts⟩ := h.contents
  have hc := hconsts s (List.mem_of_getElem? h.site) hop
  have hholds := h.holds_operand
  cases hk : s.gives with
  | any => rw [hk] at hc; exact ⟨hholds, hc⟩
  | saved => rw [hk] at hc; exact hc.elim
  | env n => rw [hk] at hc; exact hc.elim
  | code n => rw [hk] at hc; exact ⟨hholds, hc⟩
  | maker => rw [hk] at hc; exact hc

/-- A word of the frame. -/
theorem Poised.exists_top (h : Poised w base f fs i s) {m : Nat} {k : Kind}
    (hk : (s.shape.ops ++ f.proc.fixed)[m]? = some k) (hne : k ≠ .saved) :
    ∃ v, w.state.machine.top? m = some v ∧ w.IsKind v k := by
  rw [← h.shape] at hk
  obtain ⟨v, hv, hkind⟩ := h.frame.exists_slot h.full hk hne
  refine ⟨v, ?_, hkind⟩
  rw [Machine.top?_eq, h.shows.slots, slotsOf, List.flatMap_cons, List.append_assoc,
    List.getElem?_append_left (List.getElem?_eq_some_iff.1 hv).1]
  exact hv

/-- What a part of the state must have. -/
theorem Looks.bindRequire {α β : Type} {g : State → Option α} {f : α → Act β} {st : State}
    {Q : β → Prop} (h : ∀ a, g st = some a → Looks (f a) st Q) :
    Looks (do
      let x ← CellLisp.gets g
      let a ← require x
      f a) st Q := by
  refine Looks.bind (Looks.gets (Q := fun x => x = g st) rfl) ?_
  rintro x rfl
  cases hx : g st with
  | none => exact Looks.bind (Looks.halt (Q := fun _ => False) _) fun _ h => h.elim
  | some a => exact Looks.bind (Looks.pure (Q := fun b => b = a) rfl) fun _ hb => hb ▸ h a hx

theorem Leads.bindRequire {α β : Type} {g : State → Option α} {f : α → Act β}
    {Q : β → System → Prop} (hr : R w w) (h : ∀ a, g w.state = some a → Leads R (f a) w Q) :
    Leads R (do
      let x ← CellLisp.gets g
      let a ← require x
      f a) w Q := by
  refine (Looks.gets (Q := fun x => x = g w.state) rfl).andThen hr ?_
  rintro x rfl
  cases hx : g w.state with
  | none => exact (Looks.halt (Q := fun _ => False) _).andThen hr fun _ h => h.elim
  | some a =>
      refine (Looks.pure (Q := fun b => b = a) rfl).andThen hr ?_
      rintro _ rfl
      exact h _ hx

theorem Established.length_eq {code : Value} {fp below dyns older : Nat} {vs : List Value} :
    {ks : List Label} → Established w code fp below dyns older ks vs → ks.length = vs.length := by
  induction vs with
  | nil => intro ks h; cases ks with
    | nil => rfl
    | cons => exact h.elim
  | cons v vs ih => intro ks h; cases ks with
    | nil => exact h.elim
    | cons k ks => exact congrArg (· + 1) (ih h.2)

theorem Established.record {code v : Value} {fp below dyns older : Nat} {vs : List Value}
    (hv : v ∈ vs) :
    {ks : List Label} → Established w code fp below dyns older ks vs →
      ∃ i r, v = .ref .object i ∧ i ≠ 0 ∧ w.heap.cell i = .cont r := by
  induction vs with
  | nil => cases hv
  | cons u us ih => intro ks h; cases ks with
    | nil => exact h.elim
    | cons k ks =>
        rcases List.mem_cons.1 hv with rfl | hv
        · obtain ⟨i, r, hvi, hi, hc, -⟩ := h.1.record
          exact ⟨i, r, hvi, hi, hc⟩
        · exact ih hv h.2

/-- A continuation of the frame may be held by programs. -/
theorem Poised.good_cont (h : Poised w base f fs i s) {m : Nat} {v : Value}
    (hm : m < s.shape.labels.length) (hv : w.state.machine.cont? m = some v) : w.Good v := by
  rw [Machine.cont?_eq] at hv
  refine ⟨System.holds_of_machine (Machine.mem_values_of_escapes (List.mem_of_getElem? hv)), ?_⟩
  rw [h.established.length_eq] at hm
  rw [h.shows.escapes, escapesOf_cons, List.getElem?_append_left hm] at hv
  obtain ⟨j, -, rfl, -⟩ := h.established.record (List.mem_of_getElem? hv)
  exact proper_of_tag nofun nofun

/-- The environment at a place of the frame. -/
theorem Poised.looks_envSlot (h : Poised w base f fs i s) {m n index : Nat}
    (hk : (s.shape.ops ++ f.proc.fixed)[m]? = some (.env n)) :
    Looks (envSlot m index) w.state fun p =>
      ∃ j, w.heap.cell j = .array p.1 ∧ p.2 < (w.heap.payload p.1).items.size := by
  obtain ⟨v, hv, hkind⟩ := h.exists_top hk nofun
  obtain ⟨j, b, rfl, hj, hc, -⟩ := hkind.2
  unfold envSlot
  refine Looks.bindRequire fun u hu => ?_
  obtain rfl := Option.some.inj (hu.symm.trans hv)
  refine Looks.bind (Looks.gets (Q := fun a? => ∀ b', a? = some b' → b' = b) fun b' hb' => ?_) ?_
  · have harray : w.state.heap.array? (.ref .object j) = some b := by
      unfold Heap.array?
      simp only [Value.object?, show w.state.heap.cell j = _ from hc]
    rw [harray] at hb'
    exact (Option.some.inj hb').symm
  rintro a? ha
  split
  · rename_i b'
    obtain rfl := ha b' rfl
    refine Looks.bind (Looks.gets (Q := fun n => n = (w.heap.payload b').items.size) rfl) ?_
    rintro _ rfl
    split
    · rename_i hlt
      exact Looks.pure ⟨j, hc, hlt⟩
    · exact looks_typeError _ _
  · exact looks_typeError _ _

theorem Poised.looks_envRef (h : Poised w base f fs i s) {m n index : Nat}
    (hk : (s.shape.ops ++ f.proc.fixed)[m]? = some (.env n)) :
    Looks (envRef m index) w.state fun v => w.Good v := by
  unfold envRef
  refine Looks.bind (h.looks_envSlot hk) ?_
  rintro ⟨b, j⟩ ⟨a, hc, -⟩
  exact Looks.gets (w.good_item hc j)

/-! ### Instructions that set the value register -/

/-- The value of an instruction is in the value register, and the machine goes on at the next
one. -/
theorem Poised.goes_setVal {v : Value} {k : Kind} (h : Poised w o.state.machine f fs i s)
    (hv : w.IsKind v k) (harrives : Arrives f.proc.sites (i + 1) (s.shape.withVal k)) :
    Leads (Calm mode d o) (do
      setVal v
      return false) w (Goes o.state.machine s.instr.op (f :: fs)) :=
  Leads.goesAt <| (h.leads_setVal hv harrives).mono fun _ _ _ ⟨_, hf, hat⟩ => ⟨_, hf, _, hat⟩

theorem Poised.leads_const (h : Poised w o.state.machine f fs i s) (hop : s.instr.op = .const) :
    Leads (Calm mode d o) (execute s.instr) w (Goes o.state.machine s.instr.op (f :: fs)) := by
  have hsafe := h.safe
  unfold Site.Safe at hsafe
  unfold execute
  simp only [hop] at hsafe ⊢
  rw [← hop]
  exact h.goes_setVal (h.isKind_operand hop) hsafe

theorem Poised.leads_stackRef (h : Poised w o.state.machine f fs i s)
    (hop : s.instr.op = .stackRef) :
    Leads (Calm mode d o) (execute s.instr) w (Goes o.state.machine s.instr.op (f :: fs)) := by
  have hsafe := h.safe
  unfold Site.Safe at hsafe
  unfold execute
  simp only [hop] at hsafe ⊢
  rw [← hop]
  obtain ⟨v, hv, hkind⟩ := h.exists_top hsafe.1 nofun
  refine Leads.bindRequire (Follows.refl w) fun u hu => ?_
  obtain rfl := Option.some.inj (hu.symm.trans hv)
  exact h.goes_setVal hkind hsafe.2

theorem Poised.leads_envRef (h : Poised w o.state.machine f fs i s) (hop : s.instr.op = .envRef) :
    Leads (Calm mode d o) (execute s.instr) w (Goes o.state.machine s.instr.op (f :: fs)) := by
  have hsafe := h.safe
  unfold Site.Safe at hsafe
  unfold execute
  simp only [hop] at hsafe ⊢
  rw [← hop]
  obtain ⟨⟨n, j, hk, -, -⟩, harrives⟩ := hsafe
  refine Leads.bind (h.looks_envRef hk).leads ?_
  rintro v _ - ⟨rfl, hv⟩
  exact h.goes_setVal (k := .any) hv harrives

theorem Poised.leads_globalRef (h : Poised w o.state.machine f fs i s)
    (hop : s.instr.op = .globalRef) :
    Leads (Calm mode d o) (execute s.instr) w (Goes o.state.machine s.instr.op (f :: fs)) := by
  have hsafe := h.safe
  unfold Site.Safe at hsafe
  unfold execute operandSymbol
  simp only [hop] at hsafe ⊢
  rw [← hop]
  refine Leads.bindRequire (Follows.refl w) fun r hr => ?_
  split
  · rename_i v hv
    exact h.goes_setVal (k := .any) (System.good_of_symbol? hr hv) hsafe
  · exact Leads.bind (Leads.gets (Q := fun _ _ => True) trivial) fun _ _ _ _ =>
      Leads.bind (Leads.fail _ (Q := fun _ _ => False)) fun _ _ _ h => h.elim

theorem Poised.leads_contRef (h : Poised w o.state.machine f fs i s)
    (hop : s.instr.op = .contRef) :
    Leads (Calm mode d o) (execute s.instr) w (Goes o.state.machine s.instr.op (f :: fs)) := by
  have hsafe := h.safe
  unfold Site.Safe at hsafe
  unfold execute
  simp only [hop] at hsafe ⊢
  rw [← hop]
  refine Leads.bindRequire (Follows.refl w) fun v hv => ?_
  exact h.goes_setVal (k := .any) (h.good_cont hsafe.1 hv) hsafe.2

/-! ### Instructions that change operands -/

theorem Poised.leads_push (h : Poised w o.state.machine f fs i s) (hop : s.instr.op = .push) :
    Leads (Calm mode d o) (execute s.instr) w (Goes o.state.machine s.instr.op (f :: fs)) := by
  have hsafe := h.safe
  unfold Site.Safe at hsafe
  unfold execute
  simp only [hop] at hsafe ⊢
  rw [← hop]
  obtain ⟨k, hval, harrives⟩ := hsafe
  refine Leads.bind (Leads.gets (Q := fun v w' => w = w' ∧ v = w.state.machine.val) ⟨rfl, rfl⟩) ?_
  rintro _ _ - ⟨rfl, rfl⟩
  refine Leads.goesAt ((CellLisp.leads_push (h.value k hval).holds h.above).mono ?_)
  rintro _ w' - ⟨hm, hroom⟩
  obtain ⟨f', hf, hat⟩ := h.at_moved { s.shape with ops := k :: s.shape.ops }
    (w.state.machine.val :: f.ops) hm ⟨rfl, rfl, rfl, rfl, rfl⟩
    ((slots_push _ _).trans (by rw [h.shows.slots, slotsOf_cons, List.cons_append]))
    (by rw [Array.size_push]; exact hroom) (by rw [← h.pc] at harrives; exact harrives)
    (.cons (h.value k hval) h.kinds) rfl rfl h.value
  exact ⟨f', hf, _, hat⟩

theorem Poised.leads_drop (h : Poised w o.state.machine f fs i s) (hop : s.instr.op = .drop) :
    Leads (Calm mode d o) (execute s.instr) w (Goes o.state.machine s.instr.op (f :: fs)) := by
  have hsafe := h.safe
  unfold Site.Safe at hsafe
  unfold execute
  simp only [hop] at hsafe ⊢
  rw [← hop]
  obtain ⟨hle, harrives⟩ := hsafe
  refine Leads.bind (Leads.gets (Q := fun n w' => w = w' ∧ n = w.state.machine.stack.size)
    ⟨rfl, rfl⟩) ?_
  rintro _ _ - ⟨rfl, rfl⟩
  split
  · exact Leads.bind (Leads.halt (Q := fun _ _ => False) _) fun _ _ _ h => h.elim
  have hlen := h.kinds.length_eq
  have hslots : w.state.machine.slots = f.ops.take s.instr.modifier ++
      (f.ops.drop s.instr.modifier ++ (f.below ++ slotsOf fs o.state.machine)) := by
    rw [h.shows.slots, slotsOf_cons]
    conv_lhs => rw [← List.take_append_drop s.instr.modifier f.ops]
    rw [List.append_assoc]
  have hsize := congrArg List.length hslots
  rw [Machine.length_slots, List.length_append, List.length_take, hlen, Nat.min_eq_left hle] at hsize
  have hlower := Machine.slots_truncate hslots
  rw [show (f.ops.drop s.instr.modifier ++ (f.below ++ slotsOf fs o.state.machine)).length
    = w.state.machine.stack.size - s.instr.modifier by omega] at hlower
  refine Leads.goesAt ((leads_move (u := w.state.machine.truncate
    (w.state.machine.stack.size - s.instr.modifier)) rfl
    { w.takes with slots := fun v hv => w.takes.slots v ?_ } ⟨?_, h.above.escapes⟩).mono ?_)
  · rw [hlower] at hv
    rw [hslots]
    exact List.mem_append_right _ hv
  · rw [hlower, slotsOf, ← List.append_assoc, ← List.append_assoc]
    exact List.suffix_append _ _
  rintro _ w' - hm
  obtain ⟨f', hf, hat⟩ := h.at_moved
    { s.shape with ops := s.shape.ops.drop s.instr.modifier }
    (f.ops.drop s.instr.modifier) hm ⟨rfl, rfl, rfl, rfl, rfl⟩ hlower
    (Nat.le_trans (Machine.size_truncate_le _ _) h.shows.room)
    (by rw [← h.pc] at harrives; exact harrives) (List.forall₂_drop _ h.kinds) rfl rfl h.value
  exact ⟨f', hf, _, hat⟩

theorem Machine.slots_setTop {m : Machine} {k : Nat} {v : Value} (hk : k < m.stack.size) :
    (m.setTop k v).slots = m.slots.set k v := by
  unfold setTop slots
  rw [Array.toList_setIfInBounds]
  apply List.ext_getElem?
  intro j
  grind

theorem forall₂_set {α β : Type} {Q : α → β → Prop} {xs : List α} {ys : List β} {k : Nat} {x : α}
    {y : β} (h : List.Forall₂ Q xs ys) (hy : ys[k]? = some y) (hx : Q x y) :
    List.Forall₂ Q (xs.set k x) ys := by
  induction h generalizing k with
  | nil => cases hy
  | cons hr hrest ih =>
      cases k with
      | zero =>
          obtain rfl := Option.some.inj hy
          exact .cons hx hrest
      | succ k => exact .cons hr (ih hy)

/-- A word of a frame that programs may set. -/
theorem FrameOk.set_slot {r : Return} {m : Nat} {v : Value} (h : FrameOk w base fs r f)
    (hfull : f.Full w) (hk : (f.shape.ops ++ f.proc.fixed)[m]? = some .any) (hv : w.Good v) :
    ∃ ops args, f.slots.set m v = ops ++ (f.env ++ (f.saved ++ args)) ∧ w.AreKinds ops f.shape.ops ∧
      args.length = f.args.length ∧ ∀ u ∈ args, w.Good u := by
  have hlen := h.length_ops
  by_cases hm : m < f.ops.length
  · refine ⟨f.ops.set m v, f.args, ?_, ?_, rfl, h.args⟩
    · rw [Frame.slots, List.set_append_left _ _ hm, Frame.below]
    · rw [List.getElem?_append_left (by omega)] at hk
      exact forall₂_set h.ops hk hv
  · obtain ⟨b, hb, -⟩ := hfull
    obtain ⟨n, hfixed, -⟩ := (h.fitting hb).fixed
    have henv := h.env.length_eq
    rw [List.getElem?_append_right (by omega), hfixed, frameKinds] at hk
    -- neither the environment nor a saved word is one
    have hbelow : f.env.length + 3 ≤ m - f.shape.ops.length := by
      by_contra hlt
      rw [← List.append_assoc, List.getElem?_append_left (by simp; omega)] at hk
      have hmem := List.mem_of_getElem? hk
      split at hmem <;> simp at hmem
    refine ⟨f.ops, f.args.set (m - f.ops.length - f.env.length - 3) v, ?_, h.ops,
      List.length_set, ?_⟩
    · have hsaved : f.saved.length = 3 := rfl
      rw [Frame.slots, Frame.below, List.set_append_right _ _ (by omega),
        List.set_append_right _ _ (by omega), List.set_append_right _ _ (by omega), hsaved]
    · intro u hu
      rcases List.mem_or_eq_of_mem_set hu with hu | rfl
      · exact h.args u hu
      · exact hv

theorem Poised.leads_stackSet (h : Poised w o.state.machine f fs i s)
    (hop : s.instr.op = .stackSet) :
    Leads (Calm mode d o) (execute s.instr) w (Goes o.state.machine s.instr.op (f :: fs)) := by
  have hsafe := h.safe
  unfold Site.Safe at hsafe
  unfold execute
  simp only [hop] at hsafe ⊢
  rw [← hop]
  obtain ⟨hk, hval, harrives⟩ := hsafe
  refine Leads.bind (Leads.gets (Q := fun n w' => w = w' ∧ n = w.state.machine.stack.size)
    ⟨rfl, rfl⟩) ?_
  rintro _ _ - ⟨rfl, rfl⟩
  split
  · exact Leads.bind (Leads.halt (Q := fun _ _ => False) _) fun _ _ _ h => h.elim
  rename_i hlt
  have hv : w.Good w.state.machine.val := h.value _ hval
  have hk' := hk
  rw [← h.shape] at hk'
  obtain ⟨ops, args, hset, hops, hlength, hargs⟩ := h.frame.set_slot h.full hk' hv
  obtain ⟨u, hu, -⟩ := h.frame.exists_slot h.full hk' nofun
  have hslots := Machine.slots_setTop (v := w.state.machine.val) (Nat.lt_of_not_le hlt)
  rw [h.shows.slots, slotsOf, List.flatMap_cons, List.append_assoc,
    List.set_append_left _ _ (List.getElem?_eq_some_iff.1 hu).1, hset, ← slotsOf] at hslots
  refine Leads.goesAt ((leads_move (u := w.state.machine.setTop s.instr.modifier
    w.state.machine.val) rfl { w.takes with slots := fun v hv' => ?_ } ⟨?_, h.above.escapes⟩).mono ?_)
  · rw [Machine.slots_setTop (Nat.lt_of_not_le hlt)] at hv'
    rcases List.mem_or_eq_of_mem_set hv' with hv' | rfl
    · exact w.takes.slots v hv'
    · exact hv.holds
  · rw [hslots, slotsOf, ← List.append_assoc]
    exact List.suffix_append _ _
  rintro _ w' - hm
  have hmachine := hm.machine
  refine ⟨{ f with shape := s.shape, ops, args }, ⟨rfl, rfl, rfl, hlength, .inl List.suffix_rfl⟩, _,
    h.at_next hm.inPlace (by rw [hmachine]; rfl) (by rw [hmachine]; rfl) ?_ ⟨?_, ?_, ?_, ?_⟩ ?_
      (fun u hu => hm.good (hargs u hu)) hlength (hm.inPlace.established h.established)
      h.length_dyns (fun k hk => ?_) ?_⟩
  · rw [hmachine]
    change Arrives _ w.state.machine.pc _
    rw [h.pc]
    exact harrives
  · rw [hmachine, hslots, slotsOf_cons]
    simp [Frame.below, Frame.saved]
  · rw [hmachine]
    exact h.shows.escapes
  · rw [hmachine]
    exact h.shows.bindings
  · rw [hmachine]
    have hroom := h.shows.room
    simpa [Machine.setTop] using hroom
  · rw [h.shape] at hops
    exact hm.inPlace.areKinds hops
  · rw [hmachine]
    exact hm.isKind (h.value k hk)
  · rw [hmachine]
    exact h.native

/-! ### Instructions that move on -/

/-- The machine goes on with what it has. -/
theorem Poised.at_same (h : Poised w base f fs i s) {sh : Shape}
    (harrives : Arrives f.proc.sites (i + 1) sh) (hsh : sh = s.shape) :
    ∃ f', f.Becomes f' ∧ ∃ val?, At w base (f' :: fs) val? := by
  subst hsh
  obtain ⟨f', hf, hat⟩ := h.at_moved _ f.ops (System.Moves.refl w) ⟨rfl, rfl, rfl, rfl, rfl⟩
    (h.shows.slots.trans slotsOf_cons) h.shows.room (by rw [h.pc]; exact harrives) h.kinds rfl rfl
    h.value
  exact ⟨f', hf, _, hat⟩

theorem Poised.leads_envSet (h : Poised w o.state.machine f fs i s) (ht : mode.target = none)
    (hop : s.instr.op = .envSet) :
    Leads (Calm mode d o) (execute s.instr) w (Goes o.state.machine s.instr.op (f :: fs)) := by
  have hsafe := h.safe
  unfold Site.Safe at hsafe
  unfold execute
  simp only [hop] at hsafe ⊢
  rw [← hop]
  obtain ⟨⟨n, j, hk, -, -⟩, hval, harrives⟩ := hsafe
  refine Leads.bind (h.looks_envSlot hk).leads ?_
  rintro ⟨b, index⟩ _ - ⟨rfl, a, hc, -⟩
  refine Leads.bind (Leads.gets (Q := fun v w' => w = w' ∧ v = w.state.machine.val) ⟨rfl, rfl⟩) ?_
  rintro _ _ - ⟨rfl, rfl⟩
  refine Leads.goesAt ((leads_setItem hc (h.value _ hval)).rigid.mono ?_)
  rintro _ w' - ⟨hs, -⟩
  exact (h.rigid hs ht).at_same harrives rfl

/-- Instructions of code that fits its block are few enough for a word. -/
theorem Poised.lt_of_arrives (h : Poised w base f fs i s) (ha : Addressable w) {n : Nat}
    {sh : Shape} (harrives : Arrives f.proc.sites n sh) : n < 2 ^ 28 := by
  obtain ⟨_, hs, -⟩ := harrives
  have := (List.getElem?_eq_some_iff.1 hs).1
  have := h.frame.length_sites ha
  omega

/-- A jump. -/
theorem Poised.leads_goto (h : Poised w o.state.machine f fs i s) (ha : Addressable w) {t : Nat}
    (hx : s.instr.operand = .ofInt t) (harrives : Arrives f.proc.sites t s.shape) :
    Leads (Calm mode d o) (modifyMachine fun m => { m with pc := s.instr.operand.word }) w
      fun _ w' => ∃ f', f.Becomes f' ∧ ∃ val?, At w' o.state.machine (f' :: fs) val? := by
  rw [hx, Value.word_ofInt (Nat.lt_trans (h.lt_of_arrives ha harrives) (by decide))]
  refine (leads_move (u := { w.state.machine with pc := t }) rfl { w.takes with }
    ⟨h.above.slots, h.above.escapes⟩).mono ?_
  rintro _ w' - hm
  obtain ⟨f', hf, hat⟩ := h.at_moved _ f.ops hm ⟨rfl, rfl, rfl, rfl, rfl⟩
    (h.shows.slots.trans slotsOf_cons) h.shows.room harrives h.kinds rfl rfl h.value
  exact ⟨f', hf, _, hat⟩

theorem Poised.leads_jump (h : Poised w o.state.machine f fs i s) (ha : Addressable w)
    (hop : s.instr.op = .jump) :
    Leads (Calm mode d o) (execute s.instr) w (Goes o.state.machine s.instr.op (f :: fs)) := by
  have hsafe := h.safe
  unfold Site.Safe at hsafe
  unfold execute
  simp only [hop] at hsafe ⊢
  rw [← hop]
  obtain ⟨t, hx, harrives⟩ := hsafe
  exact (h.leads_goto ha hx harrives).goesAt

theorem Poised.leads_jumpIfFalse (h : Poised w o.state.machine f fs i s) (ha : Addressable w)
    (hop : s.instr.op = .jumpIfFalse) :
    Leads (Calm mode d o) (execute s.instr) w (Goes o.state.machine s.instr.op (f :: fs)) := by
  have hsafe := h.safe
  unfold Site.Safe at hsafe
  unfold execute
  simp only [hop] at hsafe ⊢
  rw [← hop]
  obtain ⟨⟨t, hx, harrives⟩, hnext⟩ := hsafe
  refine Leads.bind (Leads.gets (Q := fun v w' => w = w') rfl) ?_
  rintro v _ - rfl
  split
  · exact (h.leads_goto ha hx harrives).goesAt
  · obtain ⟨f', hf, val?, hat⟩ := h.at_same hnext rfl
    exact Leads.pure ⟨rfl, _, .inl ⟨val?, hat⟩, .stays hf⟩

/-! ### Calls and returns -/

/-- Whether a value is no built-in procedure that is not to be called by programs. -/
def Heap.isTame (h : Heap) (pairs : Bool) (v : Value) : Bool :=
  match v.cell?.map h.cell with
  | some (.native n) => n.procedure.isTame pairs
  | _ => true

theorem Heap.isTame_native {h : Heap} {pairs : Bool} {v : Value} (ht : h.isTame pairs v = true)
    (j : Nat) (n : Native) (hj : v.cell? = some j) (hn : h.cell j = .native n) :
    n.procedure.isTame pairs = true := by
  simpa [isTame, hj, hn] using ht

/-- The arguments of a call are on top of the frame that makes it, which goes on behind it. -/
theorem Poised.calling_call (h : Poised w base f fs i s) (ha : Addressable w)
    (hop : s.instr.op = .call) :
    s.instr.modifier ≤ s.shape.ops.length ∧ ∃ f', f.Calls s.instr.modifier f' ∧
      Calling w base (f.ops.take s.instr.modifier) (f' :: fs) w.state.machine.place := by
  have hsafe := h.safe
  unfold Site.Safe at hsafe
  simp only [hop] at hsafe
  rcases hsafe with ⟨-, hn, -, harrives⟩ | ⟨-, hm, n, ops, hops, harrives⟩
  · exact ⟨hn, _, ⟨_, rfl⟩, h.calling ha rfl harrives⟩
  · rw [hm, hops]
    exact ⟨Nat.le_add_left 2 _, _, ⟨_, rfl⟩, h.calling ha (by rw [hops]; rfl) harrives⟩

/-- A call leads to a frame that goes back to the instruction behind it, or has come back there. -/
theorem Poised.leads_call_entered {gs : List Frame} (h : Poised w o.state.machine f fs i s)
    (ht : mode.target = none) (hd : d ≤ w.state.roots.size) (hop : s.instr.op = .call)
    (htame : s.shape.val = some .any → w.heap.isTame mode.pairs w.state.machine.val = true)
    (hcall : Calling w o.state.machine (f.ops.take s.instr.modifier) gs w.state.machine.place) :
    Leads (Calm mode d o) (enter w.state.machine.val s.instr.modifier w.state.machine.place) w
      fun _ w' => ∃ hs, Entered w' o.state.machine gs w.state.machine.place hs := by
  have hsafe := h.safe
  unfold Site.Safe at hsafe
  simp only [hop] at hsafe
  rcases hsafe with ⟨hval, hn, hops, -⟩ | ⟨hval, hm, n, ops, hops, -⟩
  · exact CellLisp.leads_call ht h hcall hval hn hops hd (Heap.isTame_native (htame hval))
  · rw [hm] at hcall ⊢
    exact (leads_joinCall ht h hcall hval hops).mono fun _ _ _ he => ⟨[], he⟩

theorem Poised.leads_call (h : Poised w o.state.machine f fs i s) (ht : mode.target = none)
    (ha : Addressable w) (hd : d ≤ w.state.roots.size) (hop : s.instr.op = .call)
    (htame : s.shape.val = some .any → w.heap.isTame mode.pairs w.state.machine.val = true) :
    Leads (Calm mode d o) (execute s.instr) w (Goes o.state.machine s.instr.op (f :: fs)) := by
  unfold execute
  simp only [hop]
  rw [← hop]
  refine Leads.bind (Leads.gets (Q := fun m w' => w = w' ∧ m = w.state.machine) ⟨rfl, rfl⟩) ?_
  rintro _ _ - ⟨rfl, rfl⟩
  obtain ⟨-, f', hf, hcall⟩ := h.calling_call ha hop
  refine Leads.goes ((h.leads_call_entered ht hd hop htame hcall).mono ?_)
  exact fun _ _ _ ⟨gs, he⟩ => ⟨_, he.stands, .adds hf.becomes.1 hf.becomes.2 he.few⟩

/-- A tail call leads to a frame that goes back to where the one at work does, or goes back there. -/
theorem Poised.leads_tailCall_entered (h : Poised w o.state.machine f fs i s)
    (ht : mode.target = none) (hd : d ≤ w.state.roots.size) (hop : s.instr.op = .tailCall)
    (htame : w.heap.isTame mode.pairs w.state.machine.val = true) :
    Leads (Calm mode d o) (tailCall s.instr.modifier) w fun _ w' =>
      ∃ gs, Entered w' o.state.machine fs f.back gs := by
  have hsafe := h.safe
  unfold Site.Safe at hsafe
  simp only [hop] at hsafe
  obtain ⟨hval, hn, hops, hlabels, hdyns⟩ := hsafe
  exact CellLisp.leads_tailCall ht h hval hlabels hdyns hn hops hd (Heap.isTame_native htame)

theorem Poised.leads_tailCall (h : Poised w o.state.machine f fs i s) (ht : mode.target = none)
    (hd : d ≤ w.state.roots.size) (hop : s.instr.op = .tailCall)
    (htame : w.heap.isTame mode.pairs w.state.machine.val = true) :
    Leads (Calm mode d o) (execute s.instr) w (Goes o.state.machine s.instr.op (f :: fs)) := by
  unfold execute
  simp only [hop]
  rw [← hop]
  refine Leads.goes ((h.leads_tailCall_entered ht hd hop htame).mono ?_)
  exact fun _ _ _ ⟨gs, he⟩ => ⟨_, he.stands, .givesUp (by rw [hop]; rfl) he.few he.back he.place⟩

theorem Poised.leads_ret (h : Poised w o.state.machine f fs i s) (hop : s.instr.op = .ret) :
    Leads (Calm mode d o) (execute s.instr) w (Goes o.state.machine s.instr.op (f :: fs)) := by
  have hsafe := h.safe
  unfold Site.Safe at hsafe
  unfold execute
  simp only [hop] at hsafe ⊢
  rw [← hop]
  obtain ⟨hval, hlabels, hdyns⟩ := hsafe
  refine Leads.goes ((leads_returnFrom h hval hlabels hdyns).mono ?_)
  exact fun _ _ _ he => ⟨_, he.stands, .givesUp (by rw [hop]; rfl) he.few he.back he.place⟩

/-! ### Arrays of copies -/

theorem Poised.leads_makeArray (h : Poised w o.state.machine f fs i s) (ht : mode.target = none)
    (hop : s.instr.op = .makeArray) :
    Leads (Calm mode d o) (execute s.instr) w (Goes o.state.machine s.instr.op (f :: fs)) := by
  have hsafe := h.safe
  unfold Site.Safe at hsafe
  unfold execute
  simp only [hop] at hsafe ⊢
  rw [← hop]
  obtain ⟨hle, hany, -, harrives⟩ := hsafe
  have hlen := h.kinds.length_eq
  have hslots : w.state.machine.slots = f.ops.take s.instr.modifier ++
      (f.ops.drop s.instr.modifier ++ (f.below ++ slotsOf fs o.state.machine)) := by
    rw [h.shows.slots, slotsOf_cons]
    conv_lhs => rw [← List.take_append_drop s.instr.modifier f.ops]
    rw [List.append_assoc]
  have hsize := congrArg List.length hslots
  rw [Machine.length_slots, List.length_append, List.length_take, hlen, Nat.min_eq_left hle] at hsize
  have hlower := Machine.slots_truncate hslots
  have hdepth : (f.ops.drop s.instr.modifier ++ (f.below ++ slotsOf fs o.state.machine)).length
      = w.state.machine.stack.size - s.instr.modifier := by omega
  rw [hdepth] at hlower
  refine Leads.goesAt ?_
  unfold arrayFromStack
  refine Leads.bind (Leads.gets (Q := fun n w' => w = w' ∧ n = w.state.machine.stack.size)
    ⟨rfl, rfl⟩) ?_
  rintro _ _ - ⟨rfl, rfl⟩
  split
  · exact Leads.bind (Leads.halt (Q := fun _ _ => False) _) fun _ _ _ h => h.elim
  refine Leads.bind (Leads.gets (Q := fun (xs : Array Value) w' => w = w' ∧
    xs.toList = (f.ops.take s.instr.modifier).reverse) ⟨rfl, ?_⟩) ?_
  · rw [← hdepth]
    exact Machine.extract_of_reverse hslots
  rintro xs _ - ⟨rfl, hxs⟩
  have hgood : ∀ v ∈ xs, w.Good v := by
    intro v hv
    rw [← Array.mem_toList_iff, hxs, List.mem_reverse] at hv
    have hkinds : w.AreKinds (f.ops.take s.instr.modifier) (s.shape.ops.take s.instr.modifier) :=
      List.forall₂_take _ h.kinds
    exact hkinds.good hany v hv
  have hroots : ∀ v ∈ xs, v ∈ w.state.rootValues := by
    intro v hv
    rw [← Array.mem_toList_iff, hxs, List.mem_reverse] at hv
    refine State.mem_rootValues_of_machine (Machine.mem_values_of_slots ?_)
    rw [hslots]
    exact List.mem_append_left _ hv
  refine Leads.bind (CellLisp.leads_makeArray hgood hroots).stable.rigid ?_
  rintro v w₁ - ⟨hs, -, hv, harray⟩
  have hmachine : w₁.state.machine = w.state.machine := hs.machine rfl
  have h₁ := h.rigid hs ht
  have hn : xs.size = s.instr.modifier := by
    rw [← Array.length_toList, hxs, List.length_reverse, List.length_take]
    omega
  rw [hn] at harray
  refine (leads_move (u := { w₁.state.machine.truncate
    (w.state.machine.stack.size - s.instr.modifier) with val := v }) rfl
    { w₁.takes with val := hv.holds, slots := fun u hu => w₁.takes.slots u ?_ }
    ⟨?_, h₁.above.escapes⟩).mono ?_
  · rw [hmachine] at hu ⊢
    change u ∈ (w.state.machine.truncate _).slots at hu
    rw [hlower] at hu
    rw [hslots]
    exact List.mem_append_right _ hu
  · rw [hmachine]
    change _ <:+ (w.state.machine.truncate _).slots
    rw [hlower, slotsOf, ← List.append_assoc, ← List.append_assoc]
    exact List.suffix_append _ _
  rintro _ w' - hm
  obtain ⟨f', hf, hat⟩ := h₁.at_moved
    ⟨some (.env s.instr.modifier), s.shape.ops.drop s.instr.modifier, s.shape.labels,
      s.shape.dyns⟩
    (f.ops.drop s.instr.modifier) hm ⟨rfl, rfl, rfl, rfl, rfl⟩
    (by rw [hmachine]; exact hlower)
    (Nat.le_trans (Machine.size_truncate_le _ _) h₁.shows.room)
    (by rw [← h₁.pc] at harrives; exact harrives) (List.forall₂_drop _ h₁.kinds) rfl rfl
    (by rintro _ ⟨⟩; exact ⟨hv.holds, harray⟩)
  exact ⟨f', hf, _, hat⟩

end Execute

end CellLisp
