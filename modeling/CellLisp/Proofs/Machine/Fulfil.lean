import CellLisp.Proofs.Machine.Activation

/-!
# `CellLisp.Proofs.Machine.Fulfil` — code comes to what its form is to come to

`Core.wp` is sound: where the code of a form stands in a procedure under way, the machine comes to
what the form is to come to, and so the procedure to what it was called for (`Core.fulfils`),
unless a store is full.  There must be room for as many words and continuations as the form has at
most at a time; how often its loops go round does not matter.

| | |
| :-- | :-- |
| `Activation.Goes` | from a place in the code the machine comes to what the call is for |
| `Activation.Catches` | so it does from where exits lead to |
-/

namespace CellLisp

namespace Activation

section Aims

variable (a : Activation)

/-- An exit from a place with `n` operands comes to what the call is for, if it comes to an entry
of `E`. -/
def Catches : List Mark → List Aim → Nat → Prop
  | [], [], _ => True
  | m :: ms, P :: E, n => m.ops ≤ n ∧
    (∀ v l t u, P v l t → m.ops ≤ l.ops.length →
      a.At ms (l.drop (l.ops.length - m.ops)) u → u.machine.pc = m.pc → u.machine.val = v →
      a.errand.Later v l t u.store → Attains a.Done u) ∧
    Catches ms E n
  | _, _, _ => False

/-- From such a place in the code the machine comes to what the call is for. -/
def Goes (ms : List Mark) (l : Locals) (pc : Nat) (v : Value) (t : State) : Prop :=
  ∀ u, a.At ms l u → u.machine.pc = pc → u.machine.val = v → u.store = t → Attains a.Done u

end Aims

/-! ## Instructions -/

section Rules

variable {a : Activation} {ms : List Mark} {l : Locals} {pc : Nat} {v w : Value} {t : State}
  {s : Scope} {k : Kind} {n : Nat}

theorem Goes.const (hs : a.sites[pc]? = some (s.site ⟨.const, 0, w⟩ k))
    (next : a.Goes ms l (pc + 1) w t) : a.Goes ms l pc v t := by
  rintro u h rfl - rfl
  have hstep : step u = .ok false { u with
      machine := { u.machine with pc := u.machine.pc + 1, val := w } } := h.step_eq hs
  exact .next hstep (next _ (h.withMachine rfl rfl rfl rfl rfl rfl h.slots rfl (h.holds_operand hs)
    h.holds_values) rfl rfl rfl)

theorem Goes.stackRef (hs : a.sites[pc]? = some (s.site ⟨.stackRef, n, .nil⟩ k))
    (hw : l.get? n = some w) (next : a.Goes ms l (pc + 1) w t) : a.Goes ms l pc v t := by
  rintro u h rfl - rfl
  have htop : u.machine.top? n = some w := by
    rw [Machine.top?_eq, h.slots]
    exact Locals.getElem?_words rfl hw
  have hstep : step u = .ok false { u with
      machine := { u.machine with pc := u.machine.pc + 1, val := w } } := by
    rw [h.step_eq hs]
    have htop' : (u.atPc (u.machine.pc + 1)).machine.top? n = some w := htop
    simp only [execute, act_bind, act_gets, htop', require]
    rfl
  have hmem : w ∈ u.machine.slots := by
    rw [Machine.top?_eq] at htop
    exact List.mem_of_getElem? htop
  exact .next hstep (next _ (h.withMachine rfl rfl rfl rfl rfl rfl h.slots rfl
    (h.wf.holds_of_slots hmem) h.holds_values) rfl rfl rfl)

theorem Goes.globalRef {x : Value} (hs : a.sites[pc]? = some (s.site ⟨.globalRef, 0, x⟩ k))
    (hw : t.heap.global? x = some w) (next : a.Goes ms l (pc + 1) w t) : a.Goes ms l pc v t := by
  rintro u h rfl - rfl
  obtain ⟨r, hr, hvalue⟩ := Option.bind_eq_some_iff.1 hw
  have hr : u.heap.symbol? x = some r := hr
  have hstep : step u = .ok false { u with
      machine := { u.machine with pc := u.machine.pc + 1, val := w } } := by
    rw [h.step_eq hs]
    have hr' : (u.atPc (u.machine.pc + 1)).heap.symbol? x = some r := hr
    simp only [execute, operandSymbol, act_bind, act_gets, hr', require, pure,
      EStateM.pure, hvalue]
    rfl
  have hholds : u.heap.Holds w := by
    unfold Heap.symbol? at hr
    split at hr
    · rename_i i hi
      split at hr
      · rename_i r' hc
        obtain rfl := Option.some.inj hr
        refine (h.wf.heap.sound i (by rw [hc]; rfl)).values _ ?_
        simp [Heap.references, hc, Cell.block?, Cell.values, hvalue]
      · cases hr
    · cases hr
  exact .next hstep (next _ (h.withMachine rfl rfl rfl rfl rfl rfl h.slots rfl hholds
    h.holds_values) rfl rfl rfl)

theorem Goes.stackSet (hs : a.sites[pc]? = some (s.site ⟨.stackSet, n, .nil⟩ k))
    (hn : (l.get? n).isSome) (next : a.Goes ms (l.set n v) (pc + 1) v t) : a.Goes ms l pc v t := by
  rintro u h rfl rfl rfl
  obtain ⟨w, hw⟩ := Option.isSome_iff_exists.1 hn
  have hlt : n < u.machine.stack.size := by
    rw [← Machine.length_slots, h.slots]
    exact (List.getElem?_eq_some_iff.1 (Locals.getElem?_words rfl hw)).1
  have hstep : step u = .ok false { u with
      machine := { u.machine.setTop n u.machine.val with pc := u.machine.pc + 1 } } := by
    rw [h.step_eq hs]
    have hlt' : ¬ (u.atPc (u.machine.pc + 1)).machine.stack.size ≤ n := Nat.not_le.2 hlt
    simp only [execute, act_bind, act_gets]
    rw [if_neg hlt']
    rfl
  refine .next hstep (next _ (h.withMachine rfl rfl rfl rfl rfl rfl ?_ Locals.length_args_set
    h.wf.holds_val fun w hw => ?_) rfl rfl rfl)
  · change (u.machine.setTop n u.machine.val).slots = _
    rw [Machine.slots_setTop hlt, h.slots, Locals.set_words rfl hn]
  · rcases Locals.mem_values_of_set hw with hw | rfl
    · exact h.holds_values w hw
    · exact h.wf.holds_val

theorem Goes.push (hs : a.sites[pc]? = some (s.site ⟨.push, 0, .nil⟩ k)) (hroom : a.Room ms l 1)
    (next : a.Goes ms (l.push v) (pc + 1) v t) : a.Goes ms l pc v t := by
  rintro u h rfl rfl rfl
  have hsize : u.machine.stack.size < u.machine.limit := by
    rw [h.size_eq, h.limit]
    exact hroom.stack
  have hstep : step u = .ok false { u with machine := { u.machine with
      pc := u.machine.pc + 1, stack := u.machine.stack.push u.machine.val } } := by
    rw [h.step_eq hs]
    have hfull : (u.atPc (u.machine.pc + 1)).machine.isFull = false :=
      decide_eq_false (Nat.not_le.2 hsize)
    simp only [execute, CellLisp.push, act_bind, act_gets, hfull]
    rfl
  refine .next hstep (next _ (h.withMachine rfl rfl rfl rfl rfl rfl ?_ rfl h.wf.holds_val
    fun w hw => ?_) rfl rfl rfl)
  · have hslots := h.slots
    simp only [Machine.slots, Array.toList_push, List.reverse_append, List.reverse_singleton,
      Locals.words, Locals.push] at hslots ⊢
    rw [hslots]
    rfl
  · rcases List.mem_cons.1 (show w ∈ u.machine.val :: l.values from hw) with rfl | hw
    · exact h.wf.holds_val
    · exact h.holds_values w hw

theorem Goes.drop (hs : a.sites[pc]? = some (s.site ⟨.drop, n, .nil⟩ k)) (hn : n ≤ l.ops.length)
    (next : a.Goes ms (l.drop n) (pc + 1) v t) : a.Goes ms l pc v t := by
  rintro u h rfl rfl rfl
  obtain ⟨hslots, hlength⟩ := h.slots_eq (Nat.sub_le l.ops.length n)
  rw [Nat.sub_sub_self hn] at hslots hlength
  have hdepth : u.machine.stack.size - n
      = ((l.drop n).words a.back.words.reverse a.errand.below).length := by
    rw [h.size_eq, hlength]
    omega
  have hstep : step u = .ok false { u with machine := { u.machine.truncate
      ((l.drop n).words a.back.words.reverse a.errand.below).length with
        pc := u.machine.pc + 1 } } := by
    rw [h.step_eq hs, ← hdepth]
    have hle : ¬ (u.atPc (u.machine.pc + 1)).machine.stack.size < n := by
      change ¬ u.machine.stack.size < n
      rw [h.size_eq]
      omega
    simp only [execute, act_bind, act_gets]
    rw [if_neg hle]
    rfl
  exact .next hstep (next _ (h.withMachine rfl rfl rfl rfl rfl rfl (Machine.slots_truncate hslots)
    rfl h.wf.holds_val fun w hw => h.holds_values w (Locals.values_drop_subset l n hw)) rfl rfl rfl)

theorem Goes.jump (hs : a.sites[pc]? = some (s.site ⟨.jump, 0, .ofInt n⟩ k)) (hn : n < 2 ^ 59)
    (next : a.Goes ms l n v t) : a.Goes ms l pc v t := by
  rintro u h rfl rfl rfl
  have hstep : step u = .ok false { u with machine := { u.machine with pc := n } } := by
    rw [h.step_eq hs]
    simp only [execute, Value.word_ofInt hn]
    rfl
  exact .next hstep (next _ (h.withMachine rfl rfl rfl rfl rfl rfl h.slots rfl h.wf.holds_val
    h.holds_values) rfl rfl rfl)

theorem Goes.jumpIfFalse (hs : a.sites[pc]? = some (s.site ⟨.jumpIfFalse, 0, .ofInt n⟩ k))
    (hn : n < 2 ^ 59) (next : a.Goes ms l (if v.isNil then n else pc + 1) v t) :
    a.Goes ms l pc v t := by
  rintro u h rfl rfl rfl
  have hstep : step u = .ok false { u with machine := { u.machine with
      pc := if u.machine.val.isNil then n else u.machine.pc + 1 } } := by
    rw [h.step_eq hs]
    simp only [execute, act_bind, act_gets, Value.word_ofInt hn]
    rw [show (u.atPc (u.machine.pc + 1)).machine.val.isNil = u.machine.val.isNil from rfl]
    cases u.machine.val.isNil <;> rfl
  exact .next hstep (next _ (h.withMachine rfl rfl rfl rfl rfl rfl h.slots rfl h.wf.holds_val
    h.holds_values) rfl rfl rfl)

theorem Goes.withCont (hs : a.sites[pc]? = some (s.site ⟨.withCont, 0, .ofInt n⟩ k))
    (hn : n < 2 ^ 32) (hroom : a.Room ms l 1)
    (next : ∀ i t', a.errand.Later v l t t' →
      a.Goes (⟨i, n, l.ops.length⟩ :: ms) l (pc + 1) v t') : a.Goes ms l pc v t := by
  rintro u h rfl rfl rfl
  have hat := h.goTo (u.machine.pc + 1)
  have hsound : (u.atPc (u.machine.pc + 1)).heap.Sound
      (.cont ((u.atPc (u.machine.pc + 1)).machine.toCont n)) := by
    refine ⟨fun w hw => ?_, nofun⟩
    obtain rfl := List.mem_singleton.1 hw
    exact hat.wf.holds_code
  have hexec : execute ⟨.withCont, 0, .ofInt n⟩ (u.atPc (u.machine.pc + 1)) = (do
      let i ← allocCell (.cont ((u.atPc (u.machine.pc + 1)).machine.toCont n))
      modifyMachine fun m => { m with conts := m.conts.push i }
      return false) (u.atPc (u.machine.pc + 1)) := by
    simp only [execute, establish, act_bind, act_gets,
      Value.word_ofInt (Nat.lt_trans hn (by decide))]
    cases allocCell (.cont ((u.atPc (u.machine.pc + 1)).machine.toCont n))
      (u.atPc (u.machine.pc + 1)) <;> rfl
  refine .of_gives (Gives.of_eq ?_ ((h.step_eq hs).trans hexec))
  refine Gives.bind (hat.wf.gives_allocCell hsound rfl) ?_
  rintro i _ ⟨hsup, hw, heap, log, rfl⟩
  have hlater := hat.later hw (hsup.kept_roots.retains hsup.size) ⟨heap, log, rfl⟩
  exact ⟨rfl, next i _ hlater _ (hat.opened hroom hn hsup hw rfl) rfl rfl rfl⟩

theorem Goes.popCont {m : Mark} (hs : a.sites[pc]? = some (s.site ⟨.popCont, 0, .nil⟩ k))
    (next : ∀ t', a.errand.Later v l t t' → a.Goes ms l (pc + 1) v t') :
    a.Goes (m :: ms) l pc v t := by
  rintro u h rfl rfl rfl
  have hgo : a.At ([m] ++ ms) l (u.atPc (u.machine.pc + 1)) := h.goTo (u.machine.pc + 1)
  have hat := hgo.dropped
  have hdepth : (u.atPc (u.machine.pc + 1)).machine.conts.size - 1
      = (ms.map Mark.value ++ a.base.machine.escapes).length := by
    rw [← Machine.length_escapes, show (u.atPc (u.machine.pc + 1)).machine.escapes = _ from h.escapes]
    rfl
  have hstep : step u = .ok false ((u.atPc (u.machine.pc + 1)).dropped
      (ms.map Mark.value ++ a.base.machine.escapes).length) := by
    rw [h.step_eq hs, ← hdepth]
    simp only [execute, act_bind, act_gets, dropConts_eq]
    rfl
  refine .next hstep (next _ ?_ _ hat rfl rfl rfl)
  exact h.later (hat.wf) (State.retains_dropped _ _ _) ⟨_, u.world.log, rfl⟩

theorem Goes.exit {us : List Mark} {m : Mark}
    (hs : a.sites[pc]? = some (s.site ⟨.exit, us.length, .nil⟩ k)) (hops : m.ops ≤ l.ops.length)
    (next : ∀ t', a.errand.Later v l t t' →
      a.Goes ms (l.drop (l.ops.length - m.ops)) m.pc v t') : a.Goes (us ++ m :: ms) l pc v t := by
  rintro u h rfl rfl rfl
  have hat := h.goTo (u.machine.pc + 1)
  have hcont : (u.atPc (u.machine.pc + 1)).machine.cont? us.length = some m.value := by
    rw [Machine.cont?_eq, hat.escapes, List.map_append, List.append_assoc]
    simp
  have hstep : step u = .ok false (a.left m (ms.map Mark.value ++ a.base.machine.escapes)
      u.machine.val (u.atPc (u.machine.pc + 1))) := by
    rw [h.step_eq hs]
    simp only [execute, act_bind, act_gets, hcont, require, pure, EStateM.pure,
      hat.exitTo_eq hops]
    rfl
  have hleft := hat.left hops
  exact .next hstep (next _ (hat.later hleft.wf (State.retains_dropped _ _ _) ⟨_, u.world.log, rfl⟩)
    _ hleft rfl rfl rfl)

/-- Where the procedure goes back to, as the words that the call has saved say. -/
theorem At.frame?_eq {u : State} (h : a.At ms l u) :
    u.frame? = some (a.back, a.errand.below.length) := by
  obtain ⟨b, hb, he⟩ := Option.map_eq_some_iff.1 h.listing
  obtain ⟨rfl, -⟩ := Prod.mk.inj he
  rw [State.frame?, h.code, hb, Option.bind_some, ← h.args]
  refine Machine.frame?_of_slots h.slots ?_ a.fits
  rw [h.fp, h.args, Activation.fp, Nat.add_comm a.errand.below.length]

theorem At.conts_eq {u : State} (h : a.At [] l u) :
    u.machine.conts = a.base.machine.conts := by
  have hescapes := h.escapes
  rw [List.map_nil, List.nil_append, Machine.escapes, Machine.escapes,
    List.reverse_inj, Array.toList_inj] at hescapes
  exact hescapes

theorem Goes.call {Q : Aim} (hs : a.sites[pc]? = some (s.site ⟨.call, n, .nil⟩ k))
    (hn : n ≤ l.ops.length) (hpc : pc < 2 ^ 32) (hroom : a.Room ms l 0)
    (hcall : a.errand.Calls false ms.length n Q v l t)
    (next : ∀ w t', Q w (l.drop n) t' → a.Goes ms (l.drop n) (pc + 1) w t') :
    a.Goes ms l pc v t := by
  rintro u h rfl rfl rfl
  have hat := h.goTo (u.machine.pc + 1)
  obtain ⟨hslots, hlength⟩ := hat.slots_eq (Nat.sub_le l.ops.length n)
  rw [Nat.sub_sub_self hn] at hslots hlength
  set rest := (l.drop n).words a.back.words.reverse a.errand.below with hrest
  have hargs : (l.ops.take n).reverse.length = n := by
    rw [List.length_reverse, List.length_take_of_le hn]
  have hpresents : (u.atPc (u.machine.pc + 1)).Presents
      ((l.ops.take n).reverse.reverse ++ rest) (a.errand.conts + ms.length) u.store :=
    { slots := by rw [hslots, List.reverse_reverse]
      conts := by
        have hescapes := congrArg List.length hat.escapes
        have hbase := a.conts
        simp only [Machine.length_escapes, List.length_append, List.length_map] at hescapes
        omega
      store := rfl
      native := h.native
      wf := hat.wf }
  have hwords : rest.length = (l.drop n).ops.length + (l.args.length + a.errand.below.length + 3) := by
    rw [hrest]
    simp only [Locals.words, Locals.drop, Return.words, List.length_append, List.length_reverse,
      List.length_cons, List.length_nil]
    omega
  have hanswers := hcall _ rest hpresents (Locals.values_subset_words _ _ _) hwords
  have hfits : Return.Fits ⟨a.code, u.machine.pc + 1, a.fp⟩ (u.atPc (u.machine.pc + 1)) :=
    ⟨h.code ▸ h.wf.holds_code, Nat.lt_of_le_of_lt hpc (by decide),
      Nat.lt_trans (Nat.lt_of_le_of_lt (Nat.le_add_left _ _) hroom.words) (by decide)⟩
  have hexec : step u = (do
      enter u.machine.val (l.ops.take n).reverse.length ⟨a.code, u.machine.pc + 1, a.fp⟩
      return false) (u.atPc (u.machine.pc + 1)) := by
    rw [h.step_eq hs, hargs, ← h.code, ← h.fp]
    rfl
  refine .of_gives (Gives.of_eq ?_ hexec)
  refine Gives.bind (hanswers _ hfits) fun _ _ hattains => ⟨rfl, hattains.bind ?_⟩
  rintro t ⟨hback, hQ⟩
  have hplace := hback.place
  refine next _ _ hQ t (hat.resumed (congrArg Return.code hplace) (congrArg Return.fp hplace)
    hback.slots rfl hback.native hback.wf hback.limit hback.dyns hback.conts hback.records
    fun w hw => hback.listings w ?_) (congrArg Return.pc hplace) rfl rfl
  rcases List.mem_cons.1 hw with rfl | hw
  · exact List.mem_cons_self
  · refine List.mem_cons_of_mem _ ?_
    rcases List.mem_cons.1 hw with rfl | hw
    · simp [hrest, Locals.words, Return.words]
    · simp [hrest, Locals.words, hw]

theorem Goes.tailCall {Q : Aim} (hs : a.sites[pc]? = some (s.site ⟨.tailCall, n, .nil⟩ k))
    (hn : n ≤ l.ops.length) (hcall : a.errand.Calls true 0 n Q v l t) : a.Goes [] l pc v t := by
  rintro u h rfl rfl rfl
  have hat := h.goTo (u.machine.pc + 1)
  have hargs : (l.ops.take n).length = n := List.length_take_of_le hn
  have hslots : (u.atPc (u.machine.pc + 1)).machine.slots = l.ops.take n ++ ((l.ops.drop n ++
      (a.back.words.reverse ++ l.args)) ++ a.errand.below) := by
    rw [hat.slots, Locals.words]
    conv_lhs => rw [← List.take_append_drop n l.ops]
    simp only [List.append_assoc]
  have hslid := slots_slide hslots
  rw [hargs] at hslid
  have hmem {w : Value} (hw : w ∈ l.ops.take n ++ a.errand.below) : w ∈ u.machine.slots := by
    rw [h.slots]
    rcases List.mem_append.1 hw with hw | hw
    · exact List.mem_append_left _ (List.mem_of_mem_take hw)
    · simp [Locals.words, hw]
  have hpresents : ((u.atPc (u.machine.pc + 1)).slid a.errand.below.length n).Presents
      ((l.ops.take n).reverse.reverse ++ a.errand.below) a.errand.conts u.store :=
    { slots := by rw [List.reverse_reverse]; exact hslid
      conts := (congrArg Array.size hat.conts_eq).trans a.conts
      store := rfl
      native := h.native
      wf := hat.wf.withMachine hat.wf.holds_val hat.wf.holds_code
        (fun v hv => by cases h.native.symm.trans hv)
        (fun v hv => h.wf.holds_of_slots (hmem (hslid ▸ hv)))
        (fun v hv => hat.wf.holds_of_conts hv) rfl }
  have hanswers := hcall _ hpresents
  have hback : a.back.code ∈ u.machine.slots := by
    rw [h.slots]
    simp [Locals.words, Return.words]
  have hexec : step u = (do
      enter u.machine.val (l.ops.take n).reverse.length a.back
      return false) ((u.atPc (u.machine.pc + 1)).slid a.errand.below.length n) := by
    have hle : a.errand.below.length + n ≤ (u.atPc (u.machine.pc + 1)).machine.stack.size := by
      rw [hat.size_eq, Activation.fp]
      omega
    rw [h.step_eq hs, List.length_reverse, hargs]
    simp only [execute, act_bind, tailCall_eq hat.frame?_eq hle]
    rfl
  refine .of_gives (Gives.of_eq ?_ hexec)
  refine Gives.bind (hanswers a.back ⟨h.wf.holds_of_slots hback, a.fits.1, a.fits.2⟩)
    fun _ _ hattains => ⟨rfl, hattains.mono ?_⟩
  rintro t ⟨hback, hanswer⟩
  refine ⟨{ hback with
    conts := hback.conts.trans hat.conts_eq
    dyns := hback.dyns.trans h.dyns
    limit := hback.limit.trans h.limit
    records := fun k hk => (hback.records k ?_).trans (h.records k hk)
    listings := fun v hv => (hback.listings v hv).trans (h.listings v hv) }, hanswer⟩
  rw [show ((u.atPc (u.machine.pc + 1)).slid a.errand.below.length n).machine.conts = _ from
    hat.conts_eq]
  exact hk

theorem Goes.ret (hs : a.sites[pc]? = some (s.site ⟨.ret, 0, .nil⟩ k)) (hanswer : a.errand.answer v t) :
    a.Goes [] l pc v t := by
  rintro u h rfl rfl rfl
  have hat := h.goTo (u.machine.pc + 1)
  have hstep : step u = .ok false { u with
      machine := (u.machine.truncate a.errand.below.length).resume a.back } := by
    rw [h.step_eq hs]
    simp only [execute, act_bind, returnFrom_eq hat.frame?_eq]
    rfl
  have hslots : u.machine.slots
      = (l.ops ++ (a.back.words.reverse ++ l.args)) ++ a.errand.below := by
    rw [h.slots, Locals.words]
    simp
  have htruncated := Machine.slots_truncate hslots
  refine .next hstep (.here ⟨?_, hanswer⟩)
  exact
    { place := rfl
      slots := htruncated
      conts := h.conts_eq
      dyns := h.dyns
      limit := h.limit
      native := h.native
      wf := by
        refine h.wf.withMachine h.wf.holds_val (h.wf.holds_of_slots ?_)
          (fun v hv => by cases h.native.symm.trans hv)
          (fun v hv => h.wf.holds_of_slots ?_) (fun v hv => h.wf.holds_of_conts hv) rfl
        · rw [h.slots]
          simp [Locals.words, Return.words, Machine.resume]
        · rw [hslots]
          exact List.mem_append_right _ (htruncated ▸ hv)
      records := h.records
      listings := h.listings }

end Rules

/-! ## Room -/

section Room

variable {a : Activation} {ms : List Mark} {l l' : Locals} {m n : Nat} {E : List Aim}

theorem Room.mono (h : a.Room ms l n) (hm : m ≤ n) : a.Room ms l m :=
  ⟨by have := h.stack; omega, by have := h.words; omega, by have := h.conts; omega⟩

theorem Room.congr (h : a.Room ms l n) (hl : l'.ops.length = l.ops.length) : a.Room ms l' n :=
  ⟨hl ▸ h.stack, hl ▸ h.words, h.conts⟩

theorem Room.push (h : a.Room ms l (1 + n)) (v : Value) : a.Room ms (l.push v) n := by
  obtain ⟨hstack, hwords, hconts⟩ := h
  refine ⟨?_, ?_, by omega⟩ <;> rw [Locals.push, List.length_cons] <;> omega

theorem Room.open (h : a.Room ms l (n + 1)) (mark : Mark) : a.Room (mark :: ms) l n :=
  ⟨by have := h.stack; omega, by have := h.words; omega, by
    have := h.conts
    rw [List.length_cons]
    omega⟩

theorem Catches.length_eq (h : a.Catches ms E n) : E.length = ms.length := by
  induction ms generalizing E with
  | nil => cases E with
    | nil => rfl
    | cons => exact h.elim
  | cons _ _ ih => cases E with
    | nil => exact h.elim
    | cons => exact congrArg (· + 1) (ih h.2.2)

theorem Catches.mono (h : a.Catches ms E m) (hm : m ≤ n) : a.Catches ms E n := by
  induction ms generalizing E with
  | nil => cases E with
    | nil => trivial
    | cons => exact h.elim
  | cons _ _ ih => cases E with
    | nil => exact h.elim
    | cons => exact ⟨Nat.le_trans h.1 hm, h.2.1, ih h.2.2⟩

/-- What an exit to a continuation comes to. -/
theorem Catches.goes (h : a.Catches ms E n) {i : Nat} {P : Aim} (hP : E[i]? = some P) :
    ∃ us mark ms', ms = us ++ mark :: ms' ∧ us.length = i ∧ mark.ops ≤ n ∧
      ∀ v l t t', P v l t → mark.ops ≤ l.ops.length → a.errand.Later v l t t' →
        a.Goes ms' (l.drop (l.ops.length - mark.ops)) mark.pc v t' := by
  induction ms generalizing E i with
  | nil => cases E with
    | nil => cases hP
    | cons => exact h.elim
  | cons mark ms ih => cases E with
    | nil => exact h.elim
    | cons P' E =>
        cases i with
        | zero =>
            obtain rfl := Option.some.inj hP
            refine ⟨[], mark, ms, rfl, rfl, h.1, ?_⟩
            rintro v l t t' hv hle hlater u hat hpc hval rfl
            exact h.2.1 v l t u hv hle hat hpc hval hlater
        | succ i =>
            obtain ⟨us, mark', ms', rfl, rfl, hle, hgoes⟩ := ih h.2.2 hP
            exact ⟨mark :: us, mark', ms', rfl, rfl, hle, hgoes⟩

end Room

end Activation

/-! ## Forms -/

theorem Segment.length_le {l xs : List Site} {start : Nat} (h : Segment l start xs)
    (hne : 0 < xs.length) : start + xs.length ≤ l.length := by
  have hlt : xs.length - 1 < xs.length := Nat.sub_lt hne Nat.one_pos
  have hlast := (h _ hlt).trans (List.getElem?_eq_getElem hlt)
  have hle := (List.getElem?_eq_some_iff.1 hlast).1
  omega

/-- Operands that parts one behind the other leave. -/
def Core.pushed : List Post → List Core → Nat
  | p :: posts, _ :: es => p.ops.length + Core.pushed posts es
  | _, _ => 0

theorem Core.pushed_next (es : List Core) : Core.pushed (es.map fun _ => .next) es = 0 := by
  induction es with
  | nil => rfl
  | cons e es ih => simp only [List.map_cons, Core.pushed, Post.ops, List.length_nil, ih]

theorem Core.pushed_push {α : Type} {xs : List α} {es : List Core} (h : xs.length = es.length) :
    Core.pushed (xs.map fun _ => .push) es = xs.length := by
  induction xs generalizing es with
  | nil => rfl
  | cons x xs ih => cases es with
    | nil => cases h
    | cons e es =>
        simp only [List.map_cons, Core.pushed, Post.ops, List.length_cons, List.length_nil,
          ih (Nat.succ.inj h)]
        omega

section Forms

variable {a : Activation}

mutual

/-- A form whose code stands somewhere comes to what it is to come to. -/
theorem Core.fulfils {s : Scope} {start : Nat} {tail : Bool} {Q : Aim} {E : List Aim}
    {ms : List Mark} {l : Locals} {t : State} : (e : Core) →
    Segment a.sites start (e.code s start tail) → a.Room ms l e.height →
    a.Catches ms E l.ops.length → (tail = true → E = []) →
    e.wp a.errand s tail Q E l t →
    (∀ v l' t', l'.ops.length = l.ops.length → Q v l' t' →
      a.Goes ms l' (start + e.length) v t') → ∀ v, a.Goes ms l start v t
  | .const w, hcode, _, _, _, hwp, hQ, v => .const hcode.head (hQ w l t rfl hwp)
  | .ref x inlined, hcode, _, _, _, hwp, hQ, v => by
      rw [Core.code_ref] at hcode
      have hs := hcode.head
      unfold refInstr at hs
      unfold Core.wp at hwp
      cases hr : s.resolve x with
      | stack n =>
          simp only [hr] at hs hwp
          obtain ⟨w, hw, hwp⟩ := hwp
          exact .stackRef hs hw (hQ w l t rfl hwp)
      | env offset index =>
          simp only [hr] at hwp
      | global =>
          cases inlined with
          | some w =>
              simp only [hr] at hs hwp
              exact .const hs (hQ w l t rfl hwp)
          | none =>
              simp only [hr] at hs hwp
              obtain ⟨w, hw, hwp⟩ := hwp
              exact .globalRef hs hw (hQ w l t rfl hwp)
  | .assign x e, hcode, hroom, hcatch, _, hwp, hQ, v => by
      rw [Core.code_assign] at hcode
      have hs := (hcode.right rfl).head
      rw [Core.length_code] at hs
      unfold setInstr at hs
      unfold Core.wp at hwp
      cases hr : s.resolve x with
      | stack n =>
          simp only [hr] at hs hwp
          refine e.fulfils hcode.left hroom hcatch nofun hwp (fun w l' t' hl hq => ?_) v
          exact .stackSet hs hq.1 (hQ w _ t' (Locals.length_ops_set.trans hl) hq.2)
      | env offset index => simp only [hr] at hwp
      | global => simp only [hr] at hwp
  | .cond test yes no, hcode, hroom, hcatch, htail, hwp, hQ, v => by
      have hbound := hcode.length_le (by simp [Core.length])
      rw [Core.length_code, Core.length] at hbound
      have hpages := a.pages
      rw [Core.code_cond] at hcode
      have hrest := hcode.right rfl
      rw [Core.length_code] at hrest
      have hyes := hrest.tail.left
      have hjump := hrest.tail.right rfl
      rw [Core.length_code] at hjump
      have hno := hjump.tail
      rw [show start + test.length + 1 + yes.length + 1 = start + test.length + yes.length + 2 by
        omega] at hno
      unfold Core.height at hroom
      unfold Core.wp at hwp
      refine test.fulfils hcode.left (hroom.mono (Nat.le_max_left _ _)) hcatch nofun hwp
        (fun w l₁ t₁ hl hq => .jumpIfFalse hrest.head (by omega) ?_) v
      have hroom₁ := hroom.congr hl
      have hcatch₁ := hcatch.mono (Nat.le_of_eq hl.symm)
      split at hq
      · rename_i hnil
        rw [if_pos hnil]
        refine no.fulfils hno (hroom₁.mono (by omega)) hcatch₁ htail hq (fun w₂ l₂ t₂ hl₂ hq₂ => ?_) w
        rw [show start + test.length + yes.length + 2 + no.length
          = start + (Core.cond test yes no).length by rw [Core.length]; omega]
        exact hQ w₂ l₂ t₂ (hl₂.trans hl) hq₂
      · rename_i hnil
        rw [if_neg hnil]
        refine yes.fulfils hyes (hroom₁.mono (by omega)) hcatch₁ htail hq
          (fun w₂ l₂ t₂ hl₂ hq₂ => .jump hjump.head (by omega) ?_) w
        rw [show start + test.length + yes.length + 2 + no.length
          = start + (Core.cond test yes no).length by rw [Core.length]; omega]
        exact hQ w₂ l₂ t₂ (hl₂.trans hl) hq₂
  | .seq init last, hcode, hroom, hcatch, htail, hwp, hQ, v => by
      rw [Core.code_seq] at hcode
      have hlast := hcode.right rfl
      rw [Core.length_codeAll] at hlast
      unfold Core.height at hroom
      unfold Core.wp at hwp
      refine Core.fulfilsAll init hcode.left hroom hcatch hwp (fun w l₁ t₁ hl hroom₁ hq => ?_) v
      rw [Core.pushed_next, Nat.add_zero] at hl
      refine last.fulfils hlast hroom₁ (hcatch.mono (Nat.le_of_eq hl.symm)) htail hq
        (fun w₂ l₂ t₂ hl₂ hq₂ => ?_) w
      rw [Nat.add_assoc]
      exact hQ w₂ l₂ t₂ (hl₂.trans hl) hq₂
  | .bind names inits body, hcode, hroom, hcatch, htail, hwp, hQ, v => by
      rw [Core.code_bind] at hcode
      have hrest := hcode.right rfl
      rw [Core.length_codeAll] at hrest
      unfold Core.height at hroom
      unfold Core.wp at hwp
      obtain ⟨hnames, hwp⟩ := hwp
      refine Core.fulfilsAll inits hcode.left hroom hcatch hwp (fun w l₁ t₁ hl hroom₁ hq => ?_) v
      rw [Core.pushed_push hnames] at hl
      refine body.fulfils hrest.left hroom₁ (hcatch.mono (by omega)) htail hq
        (fun w₂ l₂ t₂ hl₂ hq₂ => ?_) w
      have hlen : (l₂.drop names.length).ops.length = l.ops.length := by
        simp only [Locals.drop, List.length_drop]
        omega
      have hdone := hQ w₂ _ t₂ hlen hq₂
      rw [Core.length] at hdone
      cases names with
      | nil => simpa [Nat.add_assoc, Locals.drop] using hdone
      | cons x xs =>
          have hs := (hrest.right rfl).head
          rw [Core.length_code] at hs
          refine .drop hs (by simp only [List.length_cons] at hl ⊢; omega) ?_
          simpa [Nat.add_assoc] using hdone
  | .dynBind .., _, _, _, _, hwp, _, _ | .lambda .., _, _, _, _, hwp, _, _ => hwp.elim
  | .withCont k body, hcode, hroom, hcatch, _, hwp, hQ, v => by
      have hbound := hcode.length_le (by simp [Core.length])
      rw [Core.length_code, Core.length] at hbound
      have hpages := a.pages
      rw [Core.code_withCont] at hcode
      have hpop := hcode.tail.right rfl
      rw [Core.length_code] at hpop
      have hend : start + body.length + 2 = start + (Core.withCont k body).length := by
        rw [Core.length]
        omega
      unfold Core.height at hroom
      unfold Core.wp at hwp
      refine .withCont hcode.head (by omega) (hroom.mono (by omega)) fun i t₁ hlater => ?_
      refine Core.fulfils (E := _ :: E) body hcode.tail.left (hroom.open _)
        ⟨Nat.le_refl _, ?_, hcatch⟩ nofun (hwp v t₁ hlater)
        (fun w l₂ t₂ hl₂ hq₂ => .popCont hpop.head fun t₃ hlater₃ => ?_) v
      · intro w l₂ t₂ u hq hle hat hpc hval hlater₂
        refine hQ w _ u.store ?_ (hq u.store hlater₂) u hat (hpc.trans hend) hval rfl
        simp only [Locals.drop, List.length_drop] at hle ⊢
        omega
      · rw [show start + 1 + body.length + 1 = start + (Core.withCont k body).length by
          rw [Core.length]; omega]
        exact hQ w l₂ t₃ hl₂ (hq₂ t₃ hlater₃)
  | .exit k e, hcode, hroom, hcatch, _, hwp, hQ, v => by
      rw [Core.code_exit] at hcode
      have hs := (hcode.right rfl).head
      rw [Core.length_code] at hs
      unfold exitInstr at hs
      unfold Core.wp at hwp
      split at hwp
      · rename_i i hr
        split at hwp
        · rename_i P hP
          simp only [hr] at hs
          obtain ⟨us, mark, ms', rfl, rfl, hle, hgoes⟩ := hcatch.goes hP
          refine e.fulfils hcode.left hroom hcatch nofun hwp (fun w l' t' hl hq => ?_) v
          exact .exit hs (by omega) fun t'' hlater => hgoes w l' t' t'' hq (by omega) hlater
        · exact hwp.elim
      · exact hwp.elim
  | .loop body, hcode, hroom, hcatch, _, hwp, hQ, v => by
      have hbound := hcode.length_le (by simp [Core.length])
      have hpages := a.pages
      rw [Core.code_loop] at hcode
      have hjump := (hcode.right rfl).head
      rw [Core.length_codeAll] at hjump
      unfold Core.height at hroom
      unfold Core.wp at hwp
      obtain ⟨I, ⟨n, hI⟩, hbody⟩ := hwp
      -- the invariant counts down
      have hloop : ∀ n l' t', l'.ops.length = l.ops.length → I n l' t' →
          ∀ w, a.Goes ms l' start w t' := by
        intro n
        induction n using Nat.strong_induction_on with
        | _ n ih =>
            intro l' t' hl hI w
            refine Core.fulfilsAll body hcode.left (hroom.congr hl)
              (hcatch.mono (Nat.le_of_eq hl.symm)) (hbody n l' t' hI)
              (fun w₁ l₁ t₁ hl₁ _ hm => .jump hjump (by omega) ?_) w
            obtain ⟨m, hm, hI₁⟩ := hm
            rw [Core.pushed_next, Nat.add_zero] at hl₁
            exact ih m hm l₁ t₁ (hl₁.trans hl) hI₁ w₁
      exact hloop n l t rfl hI v
  | .call args operator, hcode, hroom, hcatch, htail, hwp, hQ, v => by
      have hbound := hcode.length_le (by simp [Core.length])
      rw [Core.length_code, Core.length] at hbound
      have hpages := a.pages
      rw [Core.code_call] at hcode
      have hrest := hcode.right rfl
      rw [Core.length_codeAll] at hrest
      have hs := (hrest.right rfl).head
      rw [Core.length_code] at hs
      unfold Core.height at hroom
      unfold Core.wp at hwp
      refine Core.fulfilsAll args hcode.left hroom hcatch hwp (fun w l₁ t₁ hl hroom₁ hq => ?_) v
      rw [Core.pushed_push rfl] at hl
      refine operator.fulfils hrest.left hroom₁ (hcatch.mono (by omega)) nofun hq
        (fun f l₂ t₂ hl₂ hcall => ?_) w
      cases tail with
      | true =>
          obtain rfl := htail rfl
          obtain rfl := List.eq_nil_of_length_eq_zero hcatch.length_eq.symm
          exact .tailCall hs (by omega) hcall
      | false =>
          rw [hcatch.length_eq] at hcall
          refine .call hs (by omega) (by omega) ((hroom₁.mono (Nat.zero_le _)).congr hl₂) hcall
            fun w₃ t₃ hq₃ => ?_
          rw [Nat.add_assoc, Nat.add_assoc]
          refine hQ w₃ _ t₃ ?_ hq₃
          simp only [Locals.drop, List.length_drop]
          omega

/-- The same for parts one behind the other. -/
theorem Core.fulfilsAll {s : Scope} {start last : Nat} {posts : List Post}
    {P : Locals → State → Prop} {E : List Aim} {ms : List Mark} {l : Locals} {t : State} :
    (es : List Core) → Segment a.sites start (Core.codeAll s start posts es) →
    a.Room ms l (Core.heightAll posts last es) → a.Catches ms E l.ops.length →
    Core.wpAll a.errand s posts P E es l t →
    (∀ v l' t', l'.ops.length = l.ops.length + Core.pushed posts es → a.Room ms l' last → P l' t' →
      a.Goes ms l' (start + Core.lengthOf posts es) v t') → ∀ v, a.Goes ms l start v t
  | [], _, hroom, _, hwp, hP, v => by
      unfold Core.heightAll at hroom
      unfold Core.wpAll at hwp
      have hdone := hP v l t (by cases posts <;> rfl) hroom hwp
      rwa [Core.lengthOf, Nat.add_zero] at hdone
  | e :: es, hcode, hroom, hcatch, hwp, hP, v => by
      cases posts with
      | nil =>
          unfold Core.heightAll at hroom
          unfold Core.wpAll at hwp
          have hdone := hP v l t rfl hroom hwp
          rwa [Core.lengthOf, Nat.add_zero] at hdone
      | cons p posts =>
          rw [Core.codeAll_cons] at hcode
          have hrest := hcode.right rfl
          rw [Core.length_code] at hrest
          unfold Core.heightAll at hroom
          unfold Core.wpAll at hwp
          rw [Core.lengthOf] at hP
          refine e.fulfils hcode.left (hroom.mono (Nat.le_max_left _ _)) hcatch nofun hwp
            (fun w l₁ t₁ hl hq => ?_) v
          have hroom₁ := (hroom.congr hl).mono (Nat.le_max_right _ _)
          cases p with
          | next =>
              simp only [Post.instrs, Post.ops, List.length_nil, Nat.zero_add, Nat.add_zero,
                List.map_nil, List.nil_append, Core.pushed] at hrest hroom₁ hP hq
              refine Core.fulfilsAll es hrest hroom₁ (hcatch.mono (Nat.le_of_eq hl.symm)) hq
                (fun w₂ l₂ t₂ hl₂ hroom₂ hq₂ => ?_) w
              rw [Nat.add_assoc]
              exact hP w₂ l₂ t₂ (by omega) hroom₂ hq₂
          | push =>
              simp only [Post.instrs, Post.ops, List.length_cons, List.length_nil, Nat.zero_add,
                List.map_cons, List.map_nil, List.singleton_append, Core.pushed]
                at hrest hroom₁ hP hq
              refine .push hrest.head (hroom₁.mono (Nat.le_add_right _ _)) ?_
              refine Core.fulfilsAll es hrest.tail (hroom₁.push w) ?_ hq
                (fun w₂ l₂ t₂ hl₂ hroom₂ hq₂ => ?_) w
              · exact hcatch.mono (by simp only [Locals.push, List.length_cons]; omega)
              · rw [show start + e.length + 1 + Core.lengthOf posts es
                  = start + (e.length + 1 + Core.lengthOf posts es) by omega]
                refine hP w₂ l₂ t₂ ?_ hroom₂ hq₂
                simp only [Locals.push, List.length_cons] at hl₂
                omega
          | bind x => exact hq.elim

end

end Forms

/-! ## Procedures -/

/-- A value is compiled code. -/
def Heap.Carries (h : Heap) (v : Value) (arity : Arity) (p : Proc) : Prop :=
  v.isBytecode = true ∧ ∃ b, h.listing? v = some (b, p.instrs.toArray) ∧ b.arity = arity

/-- There is room for so many more words and continuations. -/
structure State.Spare (t : State) (words conts n : Nat) : Prop where
  stack : words + n ≤ t.machine.limit
  words : words + n < 2 ^ 32
  conts : conts + n < 2 ^ 32
  dyns : t.machine.dyns.size < 2 ^ 32

section Procedures

variable {s t : State} {procedure : Value} {args below : List Value} {arity : Arity} {p : Proc}
  {Q : Value → State → Prop} {n : Nat} {b : Bytecode} {r : Return}

theorem Heap.Carries.exists_bytecode {h : Heap} (hc : h.Carries procedure arity p) :
    ∃ b, h.bytecode? procedure = some b ∧ b.arity = arity ∧
      h.listing? procedure = some (b, p.instrs.toArray) := by
  obtain ⟨-, b, hlisting, harity⟩ := hc
  obtain ⟨b', hb, he⟩ := Option.map_eq_some_iff.1 hlisting
  obtain ⟨rfl, -⟩ := Prod.mk.inj he
  exact ⟨b', hb, harity, hlisting⟩

theorem enter_of_isBytecode (hv : procedure.isBytecode = true) (argc : Nat) (r : Return) (s : State) :
    enter procedure argc r s = enterCode procedure procedure none argc r s := by
  cases procedure with
  | ref tag i => cases tag <;> first | rfl | cases hv
  | _ => cases hv

/-- A call of a compiled procedure. -/
def State.Presents.activation (h : s.Presents (args.reverse ++ below) n t) (procedure : Value)
    (b : Bytecode) (p : Proc) (hpages : p.instrs.length < 2 ^ 32) (hr : r.Fits s)
    (hdyns : s.machine.dyns.size < 2 ^ 32) (Q : Value → State → Prop) : Activation where
  errand := ⟨below, n, Q⟩
  base := s
  code := procedure
  record := b
  sites := p.sites.map Site.drafted
  back := r
  fits := ⟨hr.pc, hr.fp⟩
  conts := h.conts
  pages := by simpa [Proc.instrs] using hpages
  dyns := hdyns

/-- Its code. -/
theorem Proc.drafted_sites (p : Proc) : p.sites.map Site.drafted = p.entry.map Site.drafted ++
    (p.body.code p.scope p.entry.length p.tail ++ [p.scope.site ⟨.ret, 0, .nil⟩ .any]) := by
  rw [sites, List.map_append, List.map_append, Core.drafted_gen_eq]
  rfl

theorem Proc.instrs_drafted (p : Proc) :
    (p.sites.map Site.drafted).map (·.instr) = p.instrs := by
  rw [List.map_map]
  rfl

/-- From where its body begins a procedure comes to what it was called for. -/
theorem Activation.At.attains {a : Activation} {args : List Value} {u : State}
    (hat : a.At [] ⟨[], args⟩ u) (hsites : a.sites = p.sites.map Site.drafted)
    (hpc : u.machine.pc = p.entry.length) (hroom : a.Room [] ⟨[], args⟩ p.body.height)
    (hwp : p.body.wp a.errand p.scope p.tail (fun v _ t => a.errand.answer v t) [] ⟨[], args⟩
      u.store) : Attains a.Done u := by
  have hsegment : Segment a.sites p.entry.length
      (p.body.code p.scope p.entry.length p.tail ++ [p.scope.site ⟨.ret, 0, .nil⟩ .any]) := by
    have hall : Segment a.sites 0 (p.sites.map Site.drafted) := by
      rw [hsites]
      intro i _
      rw [Nat.zero_add]
    rw [p.drafted_sites] at hall
    exact hall.right (by rw [List.length_map, Nat.zero_add])
  have hret := (hsegment.right rfl).head
  rw [Core.length_code] at hret
  exact p.body.fulfils hsegment.left hroom (E := []) trivial (fun _ => rfl) hwp
    (fun v l' t' _ hanswer => .ret hret hanswer) _ u hat hpc rfl rfl

theorem Heap.Carries.holds {h : Heap} (hc : h.Carries procedure arity p) : h.Holds procedure := by
  obtain ⟨b, hb, -, -⟩ := hc.exists_bytecode
  rintro tag i rfl hne
  obtain rfl : tag = .bytecode := by
    have hv := hc.1
    cases tag <;> first | rfl | cases hv
  rw [bytecode?, Value.cell?_eq_some_iff.2 ⟨_, rfl, hne⟩] at hb
  dsimp only at hb
  split at hb
  · rename_i hcell
    rw [hcell]
    exact ⟨rfl, rfl⟩
  · cases hb

theorem State.Presents.size_eq (h : s.Presents (args.reverse ++ below) n t) :
    s.machine.stack.size = args.length + below.length := by
  rw [← Machine.length_slots, h.slots, List.length_append, List.length_reverse]

theorem State.Presents.slots_entered (h : s.Presents (args.reverse ++ below) n t) (procedure : Value)
    (r : Return) : (s.machine.entered procedure none args.length r).slots
      = [.ofInt r.fp, .ofInt r.pc, r.code] ++ (args.reverse ++ below) := by
  rw [CellLisp.slots_entered, h.slots]
  rfl

/-- What has been entered refers to what is there. -/
theorem State.Presents.wellFormed_entered (h : s.Presents (args.reverse ++ below) n t)
    (hc : s.heap.Carries procedure arity p) (hr : r.Fits s) (pc : Nat) : State.WellFormed { s with
      machine := { s.machine.entered procedure none args.length r with pc } } none := by
  refine h.wf.withMachine h.wf.holds_val hc.holds (fun v hv => by cases h.native.symm.trans hv)
    (fun v hv => ?_) (fun v hv => h.wf.holds_of_conts hv) rfl
  change v ∈ (s.machine.entered procedure none args.length r).slots at hv
  rw [h.slots_entered] at hv
  simp only [List.cons_append, List.nil_append, List.mem_cons] at hv
  rcases hv with rfl | rfl | rfl | hv
  · exact Heap.holds_of_cell?_eq_none rfl
  · exact Heap.holds_of_cell?_eq_none rfl
  · exact hr.holds
  · exact h.wf.holds_of_slots (h.slots ▸ hv)

/-- Once a procedure has been entered, its frame is on the stack. -/
theorem State.Presents.at_entered (h : s.Presents (args.reverse ++ below) n t)
    (hc : s.heap.Carries procedure b.arity p)
    (hlisting : s.heap.listing? procedure = some (b, p.instrs.toArray))
    (hslots : b.arity.slots = args.length) (hpages : p.instrs.length < 2 ^ 32) (hr : r.Fits s)
    (hdyns : s.machine.dyns.size < 2 ^ 32) (Q : Value → State → Prop) :
    (h.activation procedure b p hpages hr hdyns Q).At [] ⟨[], args.reverse⟩
      { s with machine := s.machine.entered procedure none args.length r } where
  code := rfl
  fp := by
    change _ = below.length + b.arity.slots + 3
    rw [hslots, Nat.add_comm below.length, ← h.size_eq]
    simp [Machine.entered]
  slots := h.slots_entered procedure r
  args := by rw [List.length_reverse]; exact hslots.symm
  native := h.native
  wf := h.wellFormed_entered hc hr 0
  limit := rfl
  dyns := rfl
  listing := by
    change s.heap.listing? procedure = some (b, ((p.sites.map Site.drafted).map _).toArray)
    rw [p.instrs_drafted]
    exact hlisting
  escapes := rfl
  established := trivial
  records _ _ := rfl
  listings _ _ := rfl

/-- A compiled procedure with a fixed number of arguments answers a call as its body does. -/
theorem State.Presents.answers_code (h : s.Presents (args.reverse ++ below) n t)
    (hproc : s.heap.Carries procedure arity p) (hleast : p.least? = none)
    (haccepts : arity.accepts args.length = true) (hslots : arity.slots = args.length)
    (hpages : p.instrs.length < 2 ^ 32)
    (hspare : t.Spare (args.length + below.length) n (3 + p.body.height))
    (hwp : p.body.wp ⟨below, n, Q⟩ p.scope p.tail (fun v _ t => Q v t) [] ⟨[], args.reverse⟩ t) :
    s.Answers procedure args below Q := by
  intro r hr
  obtain ⟨b, hb, rfl, hlisting⟩ := hproc.exists_bytecode
  obtain rfl := h.store
  have hlimit : args.length + below.length + (3 + p.body.height) ≤ s.machine.limit := hspare.stack
  have henter : enter procedure args.length r s
      = .ok () { s with machine := s.machine.entered procedure none args.length r } := by
    refine (enter_of_isBytecode hproc.1 _ _ _).trans (enterCode_of_room hb haccepts ?_)
    rw [h.size_eq, Option.toList_none, List.length_nil]
    omega
  have hat := h.at_entered hproc hlisting hslots hpages hr hspare.dyns Q
  have hentry : p.entry = [] := by rw [Proc.entry, hleast]
  refine Gives.of_eq_ok (hat.attains rfl ?_ ?_ hwp) henter
  · rw [hentry]
    rfl
  · have hwords := hspare.words
    have hconts := hspare.conts
    have hfp : (h.activation procedure b p hpages hr hspare.dyns Q).fp
        = below.length + args.length + 3 := congrArg (below.length + · + 3) hslots
    constructor
    · rw [hfp]
      change 0 + (below.length + args.length + 3) + p.body.height ≤ s.machine.limit
      omega
    · rw [hfp]
      change 0 + (below.length + args.length + 3) + p.body.height < 2 ^ 32
      omega
    · change 0 + n + p.body.height < 2 ^ 32
      omega

end Procedures

end CellLisp
