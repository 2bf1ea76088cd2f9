import CellLisp.Proofs.Machine.Above
import CellLisp.Proofs.Machine.Retain

/-!
# `CellLisp.Proofs.Machine.Invoke` — the two instructions that call

A call and a tail call do the same with different stacks (`Invokes`):

| | below the arguments | goes back to |
| :-- | :-- | :-- |
| call | the frame that makes it, without the arguments | the instruction behind the call |
| tail call | the frames below the one that makes it | where that one goes back to |

What is below the arguments is not changed on the way into what is called (`Invokes.begun`,
`Invokes.lodged`), nor by a built-in procedure (`Invokes.serves`).
-/

namespace CellLisp

/-! ## What a call does to the state -/

section States

variable {s t u : State} {ins : Instr} {r : Return} {argc b i : Nat} {n : Native} {v : Value}
  {procedure : Value} {args lower : List Value}

theorem step_call (hins : s.heap.instr? s.machine.code s.machine.pc = some ins)
    (hop : ins.op = .call) :
    step s = (do
      enter s.machine.val ins.modifier ⟨s.machine.code, s.machine.pc + 1, s.machine.fp⟩
      return false) (s.atPc (s.machine.pc + 1)) := by
  rw [step_eq hins]
  unfold execute
  simp only [hop]
  rfl

theorem step_tailCall (hins : s.heap.instr? s.machine.code s.machine.pc = some ins)
    (hop : ins.op = .tailCall) :
    step s = (do
      tailCall ins.modifier
      return false) (s.atPc (s.machine.pc + 1)) := by
  rw [step_eq hins]
  unfold execute
  simp only [hop]

theorem currentFrame_eq (hframe : s.frame? = some (r, b)) : currentFrame s = .ok (r, b) s := by
  obtain ⟨code, hcode, hsaved⟩ := Option.bind_eq_some_iff.1 hframe
  unfold currentFrame
  simp only [act_bind, act_gets, bytecodeOf_of_some hcode, hsaved]
  rfl

theorem tailCall_eq (hframe : s.frame? = some (r, b)) (hle : b + argc ≤ s.machine.stack.size) :
    tailCall argc s = enter s.machine.val argc r (s.slid b argc) := by
  unfold tailCall
  simp only [act_bind, currentFrame_eq hframe, act_gets, if_neg (Nat.not_lt.2 hle)]
  rfl

theorem returnFrom_eq (hframe : s.frame? = some (r, b)) :
    returnFrom s = .ok () { s with machine := (s.machine.truncate b).resume r } := by
  unfold returnFrom
  rw [act_bind, currentFrame_eq hframe]
  rfl

/-- A built-in procedure gets the arguments from the stack, and they are gone from there when it has
worked on them. -/
theorem callNative_eq (hslots : s.machine.slots = args ++ lower)
    (hi : procedure.cell? = some i) (hn : s.heap.cell i = .native n)
    (haccepts : n.arity.accepts args.length = true) :
    callNative procedure args.length r s = (do
      let result ← Builtin.apply n.procedure args.reverse
      modifyMachine fun m => { m.truncate lower.length with native := none, val := result })
        { s with machine := s.machine.serving procedure r } := by
  have hsize := congrArg List.length hslots
  rw [Machine.length_slots, List.length_append] at hsize
  have hargs : (s.machine.stack.extract lower.length s.machine.stack.size).toList = args.reverse :=
    Machine.extract_of_reverse hslots
  have hbase : s.machine.stack.size - args.length = lower.length := by omega
  unfold callNative
  simp only [modifyMachine, act_bind, act_modify, act_gets, Machine.resume, hi, Option.map_some, hn,
    checkArity_of_accepts haccepts, if_neg (show ¬ s.machine.stack.size < args.length by omega), hbase,
    hargs]
  rfl

theorem callNative_ok (hslots : s.machine.slots = args ++ lower)
    (hi : procedure.cell? = some i) (hn : s.heap.cell i = .native n)
    (haccepts : n.arity.accepts args.length = true)
    (happly : Builtin.apply n.procedure args.reverse
      { s with machine := s.machine.serving procedure r } = .ok v t) :
    callNative procedure args.length r s = .ok () { t with
      machine := { t.machine.truncate lower.length with native := none, val := v } } := by
  rw [callNative_eq hslots hi hn haccepts, act_bind, happly]
  rfl

theorem State.Begins.permits {c : Callee} (h : s.Begins c u) : s.permits false = true := by
  cases h with
  | atOnce _ hnext | collecting _ hnext _ => exact hnext.permits

/-- The call at `s`, which is made on `t`, comes to the body. -/
theorem State.Begins.comes {c : Callee} (h : s.Begins c u)
    (hstep : step s = (do
      enter s.machine.val argc r
      return false) t)
    (hc : t.heap.callee? s.machine.val = some c) : Comes s.machine.val argc r t u := by
  have hvariadic := Heap.isVariadic_of_callee hc
  have henter {s₁ : State} (h₁ : step s = .ok false s₁) : enter s.machine.val argc r t = .ok () s₁ := by
    rw [hstep] at h₁
    exact ok_of_return h₁
  cases h with
  | atOnce hfixed hnext => exact .atOnce (hvariadic.trans hfixed) (henter hnext.step)
  | collecting hv hnext hcollect =>
      exact .collecting (hvariadic.trans hv) (henter hnext.step) hcollect.step

end States

/-! ## Calls of a run -/

/-- The next instruction of a run calls what is in the value register; the arguments are then on top
of some frames in the system `t`, and the call goes back to `r`. -/
structure Invokes (m : Mode) (d : Nat) (o w t : System) (fs : List Frame) (r : Return)
    (args : List Value) : Prop where
  step : step w.state = (do
    enter w.state.machine.val args.length r
    return false) t.state
  heap : t.heap = w.heap
  store : t.state.store = w.state.store
  limit : t.state.machine.limit = w.state.machine.limit
  calling : Calling t o.state.machine args fs r
  good : ∀ c, w.heap.callee? w.state.machine.val = some c → t.Good w.state.machine.val
  leads : ∀ s, CellLisp.step w.state = .ok false s → ∃ gs w', w'.state = s ∧
    Underway m d o w' (gs ++ fs) ∧ Entered w' o.state.machine fs r gs

section Invoking

variable {m : Mode} {d : Nat} {o w t : System} {pile fs : List Frame} {r : Return} {ins : Instr}
  {args : List Value} {c : Callee} {s' : State} {base : Machine}

/-- The machine has moved on, and is about to carry out the instruction. -/
theorem exists_moved_on (habove : o.state.machine.Above w.state.machine) :
    ∃ w₁, Calm m d o w w₁ ∧ w.Moves w₁ { w.state.machine with pc := w.state.machine.pc + 1 } := by
  have hleads : Leads (Calm m d o) (modifyMachine fun m => { m with pc := m.pc + 1 }) w fun _ w₁ =>
      w.Moves w₁ { w.state.machine with pc := w.state.machine.pc + 1 } :=
    leads_move rfl { w.takes with } ⟨habove.slots, habove.escapes⟩
  obtain ⟨w₁, -, hcalm, hm⟩ := hleads.of_ok rfl
  exact ⟨w₁, hcalm, hm⟩

/-- What an instruction has led to, when it is one step of a run. -/
theorem Underway.follows {w₁ w' : System} {gs : List Frame} (h : Underway m d o w pile)
    (h₁ : Calm m d o w w₁) (h' : Calm m d o w₁ w') (hentered : Entered w' o.state.machine fs r gs) :
    Underway m d o w' (gs ++ fs) :=
  ⟨Follows.trans h.ran (Follows.trans h₁.toRan h'.toRan), hentered.stands⟩

/-- A call is carried out in the newest frame. -/
theorem Underway.exists_poised (h : Underway m d o w pile) (hg : Ground m d o)
    (hins : w.heap.instr? w.state.machine.code w.state.machine.pc = some ins)
    (hop : ins.op = .call ∨ ins.op = .tailCall) :
    ∃ f fs s w₁, pile = f :: fs ∧ s.instr = ins ∧ Calm m d o w w₁ ∧
      w.Moves w₁ { w.state.machine with pc := w.state.machine.pc + 1 } ∧
      Poised w₁ o.state.machine { f with shape := s.shape } fs w.state.machine.pc s ∧
      Addressable w₁ ∧ d ≤ w₁.state.roots.size := by
  have hs := h.ran.stable
  obtain ⟨f, fs, val?, rfl, hat⟩ := h.stands.exists_at (hg.halts.stable hs hg.target) hins hop
  obtain ⟨s, hsite, hpoised⟩ := hat.poised
  obtain ⟨w₁, hcalm, hm⟩ := exists_moved_on (m := m) (d := d) hat.shows.above
  refine ⟨f, fs, s, w₁, rfl, Option.some.inj (hsite.symm.trans hins), hcalm, hm, hpoised w₁ hm,
    (hg.addressable.stable hs).moved hm rfl, ?_⟩
  rw [hm.state]
  exact hs.depth d (Nat.le_refl d) hg.depth

theorem Underway.invokes_call (h : Underway m d o w pile) (hg : Ground m d o)
    (htame : w.state.permits m.pairs = true)
    (hins : w.heap.instr? w.state.machine.code w.state.machine.pc = some ins)
    (hop : ins.op = .call) :
    ∃ f fs f' t, pile = f :: fs ∧ f.Calls ins.modifier f' ∧
      (f.ops.take ins.modifier).length = ins.modifier ∧ Invokes m d o w t (f' :: fs)
        ⟨w.state.machine.code, w.state.machine.pc + 1, w.state.machine.fp⟩
        (f.ops.take ins.modifier) := by
  obtain ⟨f, fs, s, w₁, rfl, rfl, hcalm, hm, hp, ha, hd⟩ := h.exists_poised hg hins (.inl hop)
  obtain ⟨hle, f', ⟨shape, rfl⟩, hcall⟩ := hp.calling_call ha hop
  have hlen : (f.ops.take s.instr.modifier).length = s.instr.modifier := hp.length_take hle
  have hplace : w₁.state.machine.place
      = ⟨w.state.machine.code, w.state.machine.pc + 1, w.state.machine.fp⟩ := by
    rw [hm.machine]
    rfl
  have hval : w₁.state.machine.val = w.state.machine.val := by rw [hm.machine]
  have hstep : step w.state = (do
      enter w.state.machine.val (f.ops.take s.instr.modifier).length
        ⟨w.state.machine.code, w.state.machine.pc + 1, w.state.machine.fp⟩
      return false) w₁.state := by
    rw [hlen, hm.state]
    exact step_call hins hop
  have hleads := hp.leads_call_entered hg.target hd hop
    (fun hany => hp.tame_of_permits hm rfl hins htame (.inl ⟨hop, hany⟩)) hcall
  rw [hplace] at hcall hleads
  refine ⟨f, fs, _, w₁, rfl, ⟨shape, rfl⟩, hlen, hstep, hm.heap, ?_, ?_, hcall, fun c hc => ?_,
    fun u hok => ?_⟩
  · rw [hm.state]
    rfl
  · rw [hm.machine]
  · have hentry := (Heap.callee?_eq_some hc).1
    rw [← hm.heap, ← hval] at hentry
    exact hval ▸ hp.good_of_entry (.inl hop) hentry
  · rw [hstep, hlen] at hok
    have henter := ok_of_return hok
    rw [← hval] at henter
    obtain ⟨w', rfl, hcalm', gs, hentered⟩ := hleads.of_ok henter
    exact ⟨gs, w', rfl, h.follows hcalm hcalm' hentered, hentered⟩

/-- What the saved words of the frame that makes a tail call say. -/
theorem Poised.frame?_eq {f : Frame} {i : Nat} {s : Site} (h : Poised w base f fs i s) :
    w.state.frame? = some (f.back, (slotsOf fs base).length) := by
  obtain ⟨b, hb, hargs⟩ := h.full
  have hcode : w.state.machine.code = .ref .bytecode f.cell := h.frame.code
  have hbytecode : w.state.heap.bytecode? w.state.machine.code = some b := by
    rw [hcode]
    exact Heap.bytecode?_ref h.frame.pos hb
  rw [State.frame?, hbytecode, Option.bind_some, ← hargs]
  exact h.frame.frame?_eq (h.shows.slots.trans slotsOf_cons) rfl

/-- A frame that is given up has no continuation and no dynamic binding in force. -/
theorem Poised.bare_of_tailCall {f : Frame} {i : Nat} {s : Site} (h : Poised w base f fs i s)
    (hop : s.instr.op = .tailCall) : s.shape.labels = [] ∧ s.shape.dyns = 0 := by
  have hsafe := h.safe
  unfold Site.Safe at hsafe
  simp only [hop] at hsafe
  exact hsafe.2.2.2

theorem Poised.le_size {f : Frame} {i n : Nat} {s : Site} (h : Poised w base f fs i s)
    (hn : n ≤ s.shape.ops.length) : (slotsOf fs base).length + n ≤ w.state.machine.stack.size := by
  have hops := h.kinds.length_eq
  have hslots := congrArg List.length h.shows.slots
  rw [Machine.length_slots, slotsOf_cons, List.length_append, List.length_append] at hslots
  omega

theorem Underway.invokes_tailCall (h : Underway m d o w pile) (hg : Ground m d o)
    (htame : w.state.permits m.pairs = true)
    (hins : w.heap.instr? w.state.machine.code w.state.machine.pc = some ins)
    (hop : ins.op = .tailCall) :
    ∃ f fs t, pile = f :: fs ∧
      w.state.frame? = some (f.back, (slotsOf fs o.state.machine).length) ∧
      (f.ops.take ins.modifier).length = ins.modifier ∧
      t.state = (w.state.atPc (w.state.machine.pc + 1)).slid (slotsOf fs o.state.machine).length
        ins.modifier ∧
      Invokes m d o w t fs f.back (f.ops.take ins.modifier) := by
  obtain ⟨f, fs, s, w₁, rfl, rfl, hcalm, hm, hp, ha, hd⟩ := h.exists_poised hg hins (.inr hop)
  have hle := hp.modifier_le hop
  have hlen : (f.ops.take s.instr.modifier).length = s.instr.modifier := hp.length_take hle
  have hstate : w₁.state = w.state.atPc (w.state.machine.pc + 1) := hm.state
  have hval : w₁.state.machine.val = w.state.machine.val := by rw [hm.machine]
  obtain ⟨w₂, hm₂⟩ := (hp.takes_slid hle).exists_moves
  have hframe : w₁.state.frame? = some (f.back, (slotsOf fs o.state.machine).length) := hp.frame?_eq
  have htail : tailCall s.instr.modifier w₁.state
      = enter w.state.machine.val s.instr.modifier f.back w₂.state := by
    rw [tailCall_eq hframe (hp.le_size hle), hval, hm₂.state]
    rfl
  have hstep : step w.state = (do
      enter w.state.machine.val (f.ops.take s.instr.modifier).length f.back
      return false) w₂.state := by
    rw [hlen, step_tailCall hins hop, act_bind, act_bind, ← hstate, htail]
  have hleads := hp.leads_tailCall_entered hg.target hd hop
    (hp.tame_of_permits hm rfl hins htame (.inr hop))
  obtain ⟨hlabels, hdyns⟩ := hp.bare_of_tailCall hop
  refine ⟨f, fs, w₂, rfl, ?_, hlen, ?_, hstep, hm₂.heap.trans hm.heap, ?_, ?_,
    hp.calling_slid hlabels hdyns hle hm₂, fun c hc => ?_, fun u hok => ?_⟩
  · rw [hstate] at hframe
    exact hframe
  · rw [hm₂.state, hstate]
    rfl
  · rw [hm₂.state, hstate]
    rfl
  · rw [hm₂.machine, hm.machine]
    rfl
  · have hentry := (Heap.callee?_eq_some hc).1
    rw [← hm.heap, ← hval] at hentry
    exact hm₂.good (hval ▸ hp.good_of_entry (.inr hop) hentry)
  · rw [step_tailCall hins hop, ← hstate] at hok
    obtain ⟨w', rfl, hcalm', gs, hentered⟩ := hleads.of_ok (ok_of_return hok)
    exact ⟨gs, w', rfl, h.follows hcalm hcalm' hentered, hentered⟩

theorem Invokes.callee?_eq (h : Invokes m d o w t fs r args)
    (hc : w.heap.callee? w.state.machine.val = some c) :
    t.heap.callee? w.state.machine.val = some c := by
  rw [h.heap]
  exact hc

/-- The body of what is called begins with the arguments. -/
theorem Invokes.begun (h : Invokes m d o w t fs r args)
    (hc : w.heap.callee? w.state.machine.val = some c) (hbegins : w.state.Begins c s') :
    c.Begun r (slotsOf fs o.state.machine).reverse args.reverse s' := by
  have hct := h.callee?_eq hc
  exact h.calling.begun (h.good c hc) hct (hbegins.comes h.step hct)

/-- A call that goes through leaves its arguments on what was below them. -/
theorem Invokes.entered (h : Invokes m d o w t fs r args)
    (hc : w.heap.callee? w.state.machine.val = some c) (hstep : CellLisp.step w.state = .ok false s') :
    s' = { t.state with machine := t.state.machine.entered c.code c.env? args.length r } ∧
      (slotsOf fs o.state.machine).length < s'.machine.stack.size := by
  rw [h.step] at hstep
  obtain ⟨rfl, -⟩ := Heap.entered_of_callee (h.callee?_eq hc) (ok_of_return hstep)
  refine ⟨rfl, ?_⟩
  have hwords := congrArg List.length (slots_entered t.state.machine c.code c.env? args.length r)
  rw [h.calling.slots] at hwords
  simp only [Machine.length_slots, List.length_append, List.length_cons, List.length_nil] at hwords
  change _ < (t.state.machine.entered c.code c.env? args.length r).stack.size
  omega

theorem Shows.toList_stack {m : Machine} (h : Shows m fs base) :
    m.stack.toList = (slotsOf fs base).reverse := by
  rw [← h.slots, Machine.slots, List.reverse_reverse]

/-- Where nothing has been put on the frames there is nothing on the stack besides them. -/
theorem Underway.size_eq (h : Underway m d o w fs) :
    w.state.machine.stack.size = (slotsOf fs o.state.machine).length := by
  rw [← Machine.length_slots, h.stands.shows.slots]

/-- When the body begins, the frame that goes back to `r` is there. -/
theorem Invokes.lodged (h : Invokes m d o w t fs r args) (hg : Ground m d o)
    (htame : ∀ s : State, s.permits false = true → s.Permits m o.state.machine)
    (hc : w.heap.callee? w.state.machine.val = some c) (hbegins : w.state.Begins c s') :
    ∃ w' pile', w'.state = s' ∧ Underway m d o w' pile' ∧ Lodged r fs pile' := by
  have hsize : (slotsOf fs o.state.machine).length < s'.machine.stack.size := by
    rw [(h.begun hc hbegins).size, List.length_reverse, Callee.words]
    omega
  cases hbegins with
  | atOnce _ hnext =>
      obtain ⟨gs, w', rfl, hunder, hentered⟩ := h.leads _ hnext.step
      refine ⟨w', _, rfl, hunder, hentered.lodged ?_⟩
      rintro rfl
      exact absurd hunder.size_eq (Nat.ne_of_gt hsize)
  | @collecting s₁ _ hvariadic hnext hcollect =>
      obtain ⟨gs, w₁, rfl, hunder, hentered⟩ := h.leads _ hnext.step
      obtain ⟨hw₁, hsize₁⟩ := h.entered hc hnext.step
      have hlodged : Lodged r fs (gs ++ fs) := by
        refine hentered.lodged ?_
        rintro rfl
        exact absurd hunder.size_eq (Nat.ne_of_gt hsize₁)
      obtain ⟨ins, w', pile', hins, rfl, -, hunder', hadvances⟩ :=
        hunder.next hg (htame _ hcollect.permits) hcollect.step
      refine ⟨w', pile', rfl, hunder', ?_⟩
      rcases hlodged.advances hadvances with hlodged' | ⟨-, rfl⟩ | ⟨hexits, -⟩
      · exact hlodged'
      · exact absurd hunder'.size_eq (Nat.ne_of_gt hsize)
      · -- the instruction collects arguments
        have hct := h.callee?_eq hc
        obtain ⟨hentry, b, hb, -⟩ := Heap.callee?_eq_some hct
        obtain ⟨-, p, -, -, -, hof, -⟩ := (h.good c hc).isCodeOf hentry hb
        obtain ⟨least, hleast, -⟩ := (Heap.fits_of_callee hct hof).exists_least hvariadic
        have hvarargs := hof.instr?_zero hleast
        rw [System.heap, hw₁] at hins
        obtain rfl := Option.some.inj (hins.symm.trans hvarargs)
        cases hexits

/-- With room on the stack for its frame the body begins; to collect arguments there may be too few
cells. -/
theorem Invokes.reaches (h : Invokes m d o w t fs r args) (hpermits : w.state.permits false = true)
    (hc : w.heap.callee? w.state.machine.val = some c) (haccepts : c.arity.accepts args.length = true)
    (hroom : (slotsOf fs o.state.machine).length + c.room args.length ≤ w.state.machine.limit) :
    (∃ s', w.state.Begins c s') ∨ c.arity.isVariadic = true ∧
      ∃ s₁ s', w.state.Next s₁ ∧ CellLisp.step s₁ = .error (.fatal .cellsExhausted) s' := by
  rw [← h.limit] at hroom
  obtain ⟨s₁, henter, hcollects⟩ := h.calling.enters (h.good c hc) (h.callee?_eq hc) haccepts hroom
  have hnext : w.state.Next s₁ := by
    refine ⟨hpermits, ?_⟩
    rw [h.step, act_bind, henter]
    rfl
  cases hv : c.arity.isVariadic with
  | false => exact .inl ⟨s₁, .atOnce hv hnext⟩
  | true =>
      obtain ⟨htame, ⟨s', hstep⟩ | ⟨s', hstep⟩⟩ := hcollects hv
      · exact .inl ⟨s', .collecting hv hnext ⟨htame, hstep⟩⟩
      · exact .inr ⟨rfl, s₁, s', hnext, hstep⟩

/-- A built-in procedure that works on the arguments goes back to `r`, with what is below them on the
stack. -/
theorem Invokes.serves {i : Nat} {n : Native} {v : Value} {u : State}
    (h : Invokes m d o w t fs r args) (hval : w.state.machine.val = .ref .native i)
    (hn : w.heap.cell i = .native n) (haccepts : n.arity.accepts args.length = true)
    (happly : Builtin.apply n.procedure args.reverse { t.state with
      machine := t.state.machine.serving w.state.machine.val r } = .ok v u) :
    ∃ s', CellLisp.step w.state = .ok false s' ∧
      s'.machine.stack.toList = (slotsOf fs o.state.machine).reverse ∧
      s'.machine.place = r ∧ s'.machine.val = v := by
  have hi : i ≠ 0 := by
    rintro rfl
    have hzero := w.typed.heap.wf.pool.zero
    rw [show w.state.heap.cell 0 = _ from hn] at hzero
    cases hzero
  have hcell : w.state.machine.val.cell? = some i := Value.cell?_eq_some_iff.2 ⟨_, hval, hi⟩
  rw [← h.heap] at hn
  have hserved := callNative_ok h.calling.slots hcell hn haccepts happly
  have hstep := h.step
  rw [act_bind, hval, show enter (.ref .native i) args.length r t.state = _ from hval ▸ hserved] at hstep
  obtain ⟨gs, w', hw', hunder, hentered⟩ := h.leads _ hstep
  have hsize : w'.state.machine.stack.size ≤ (slotsOf fs o.state.machine).length := by
    rw [hw']
    simp [Machine.truncate]
  obtain rfl : gs = [] := by
    refine Classical.byContradiction fun hgs => ?_
    have hlt := (hentered.lodged hgs).length_lt o.state.machine
    rw [hunder.size_eq] at hsize
    omega
  exact ⟨_, hw' ▸ hstep, hunder.stands.shows.toList_stack, hentered.place rfl, by rw [hw']⟩

end Invoking

/-! ## Runs -/

/-- A run in which programs call no procedure that is not for them has a system behind it, on which
it may go on. -/
theorem Run.exists_grounded {o : System} {procedure : Value} {args : Array Value} {s : State}
    {ss : List State} (h : Run procedure args o.state (s :: ss))
    (hl : Launch false o procedure args) (htame : ∀ u ∈ ss, u.permits false = true) :
    ∃ (m : Mode) (w : System) (pile : List Frame), w.state = s ∧ m.pairs = false ∧
      Ground m 0 o.launched ∧ Underway m 0 o.launched w pile ∧
        ∀ u : State, u.permits false = true → u.Permits m o.launched.state.machine := by
  let m : Mode := { machine := false, pairs := false }
  have hg : Ground m 0 o.launched := hl.ground rfl (Nat.zero_le _)
  have hpermits : ∀ u : State, u.permits false = true → u.Permits m o.launched.state.machine :=
    fun u hu => State.permits_of_tame hu fun _ => id
  obtain ⟨w, pile, rfl, hunder⟩ := h.underway hl hg fun u hu => hpermits u (htame u hu)
  exact ⟨m, w, pile, rfl, rfl, hg, hunder, hpermits⟩

end CellLisp
