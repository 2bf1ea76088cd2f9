import CellLisp.Proofs.Compile.Drafted
import CellLisp.Proofs.Machine.Wp

/-!
# `CellLisp.Proofs.Machine.Activation` — a call of compiled code

While compiled code works, its frame is on what was on the stack when it was called, above the
words that say where the call goes back to, and the continuations that it has established are
above those that were in force then (`Activation.At`).  Establishing, leaving and exiting to a
continuation, and a call that comes back, leave the rest as it was.

| | |
| :-- | :-- |
| `Activation` | a call of compiled code |
| `Activation.At` | the machine is in its code |
| `Activation.Established` | its continuations are in force |
| `Activation.Done` | it has come to what it was called for |
-/

namespace CellLisp

/-- A continuation that a procedure has established: where it resumes, and with how many operands. -/
structure Mark where
  value : Value
  pc : Nat
  ops : Nat

/-- A call of compiled code. -/
structure Activation where
  /-- What it is for. -/
  errand : Errand
  /-- The state that it was made in. -/
  base : State
  /-- The code, with its record and its instructions. -/
  code : Value
  record : Bytecode
  sites : List Site
  /-- Where it goes back to. -/
  back : Return
  fits : back.pc < 2 ^ 59 ∧ back.fp < 2 ^ 59
  conts : base.machine.conts.size = errand.conts
  pages : sites.length < 2 ^ 32
  dyns : base.machine.dyns.size < 2 ^ 32

namespace Activation

section Places

variable (a : Activation)

/-- Its frame pointer. -/
def fp : Nat := a.errand.below.length + a.record.arity.slots + 3

/-- What it has come to when it is over. -/
def Done (t : State) : Prop :=
  a.base.Back a.back a.errand.below t ∧ a.errand.answer t.machine.val t.store

/-- The record of a continuation of it, at a depth of the stack of continuations. -/
def recordOf (m : Mark) (depth : Nat) : Cont where
  sp := .ofNat (m.ops + a.fp)
  fp := .ofNat a.fp
  dynDepth := .ofNat a.base.machine.dyns.size
  depth := .ofNat depth
  code := a.code
  pc := .ofNat m.pc
  exited := false

/-- A continuation of it is in force, above `older`. -/
structure InForce (h : Heap) (m : Mark) (older : List Value) : Prop where
  record : h.cont? m.value = some (a.recordOf m older.length)
  object : m.value.object?.isSome
  pc : m.pc < 2 ^ 32
  ops : m.ops + a.fp < 2 ^ 32
  depth : older.length < 2 ^ 32
  /-- It has a cell of its own. -/
  apart : ∀ k ∈ older, k.cell? ≠ m.value.cell?

/-- The continuations that it has established are in force, the newest first. -/
def Established (h : Heap) : List Mark → Prop
  | [] => True
  | m :: ms => a.InForce h m (ms.map Mark.value ++ a.base.machine.escapes) ∧ Established h ms

/-- The machine is in the code of the procedure. -/
structure At (ms : List Mark) (l : Locals) (u : State) : Prop where
  code : u.machine.code = a.code
  fp : u.machine.fp = a.fp
  slots : u.machine.slots = l.words a.back.words.reverse a.errand.below
  args : l.args.length = a.record.arity.slots
  native : u.machine.native = none
  wf : u.WellFormed none
  limit : u.machine.limit = a.base.machine.limit
  dyns : u.machine.dyns = a.base.machine.dyns
  listing : u.heap.listing? a.code = some (a.record, (a.sites.map (·.instr)).toArray)
  escapes : u.machine.escapes = ms.map Mark.value ++ a.base.machine.escapes
  established : a.Established u.heap ms
  /-- What the caller goes by is as it was. -/
  records : ∀ k ∈ a.base.machine.conts.toList, u.heap.cont? k = a.base.heap.cont? k
  listings : ∀ v ∈ a.back.code :: a.errand.below, u.heap.listing? v = a.base.heap.listing? v

/-- There is room for so many more words and continuations. -/
structure Room (ms : List Mark) (l : Locals) (n : Nat) : Prop where
  stack : l.ops.length + a.fp + n ≤ a.base.machine.limit
  words : l.ops.length + a.fp + n < 2 ^ 32
  conts : ms.length + a.errand.conts + n < 2 ^ 32

end Places

section Moving

variable {a : Activation} {ms : List Mark} {l l' : Locals} {u : State} {s : Scope} {ins : Instr}
  {k : Kind}

/-- A machine that moves within its frame. -/
theorem At.withMachine (h : a.At ms l u) {m : Machine} (hcode : m.code = u.machine.code)
    (hfp : m.fp = u.machine.fp) (hnative : m.native = u.machine.native)
    (hlimit : m.limit = u.machine.limit) (hdyns : m.dyns = u.machine.dyns)
    (hconts : m.conts = u.machine.conts)
    (hslots : m.slots = l'.words a.back.words.reverse a.errand.below)
    (hargs : l'.args.length = l.args.length) (hval : u.heap.Holds m.val)
    (hvalues : ∀ v ∈ l'.values, u.heap.Holds v) : a.At ms l' { u with machine := m } where
  code := hcode.trans h.code
  fp := hfp.trans h.fp
  slots := hslots
  args := hargs.trans h.args
  native := hnative.trans h.native
  wf := by
    refine h.wf.withMachine hval (hcode ▸ h.wf.holds_code) (fun v hv => ?_) (fun v hv => ?_)
      (fun v hv => h.wf.holds_of_conts (hconts ▸ hv)) hdyns
    · rw [hnative, h.native] at hv
      cases hv
    · rw [hslots] at hv
      by_cases hmem : v ∈ l'.values
      · exact hvalues v hmem
      · refine h.wf.holds_of_slots ?_
        rw [h.slots]
        simp only [Locals.words, Locals.values, List.mem_append] at hv hmem ⊢
        grind
  limit := hlimit.trans h.limit
  dyns := hdyns.trans h.dyns
  listing := h.listing
  escapes := by
    refine Eq.trans ?_ h.escapes
    rw [Machine.escapes, Machine.escapes, hconts]
  established := h.established
  records := h.records
  listings := h.listings

theorem At.holds_values (h : a.At ms l u) : ∀ v ∈ l.values, u.heap.Holds v := by
  intro v hv
  refine h.wf.holds_of_slots ?_
  rw [h.slots]
  exact l.values_subset_words _ _ (List.mem_append_left _ hv)

/-- Somewhere else in the code. -/
theorem At.goTo (h : a.At ms l u) (pc : Nat) : a.At ms l (u.atPc pc) :=
  h.withMachine rfl rfl rfl rfl rfl rfl h.slots rfl h.wf.holds_val h.holds_values

theorem At.slots_eq (h : a.At ms l u) {n : Nat} (hn : n ≤ l.ops.length) :
    u.machine.slots = l.ops.take (l.ops.length - n) ++
        (l.drop (l.ops.length - n)).words a.back.words.reverse a.errand.below ∧
      ((l.drop (l.ops.length - n)).words a.back.words.reverse a.errand.below).length = n + a.fp := by
  constructor
  · rw [h.slots, Locals.words, Locals.words, Locals.drop,
      ← List.append_assoc (l.ops.take (l.ops.length - n)), List.take_append_drop]
  · have hargs := h.args
    simp only [Locals.words, Locals.drop, Return.words, List.length_append, List.length_drop,
      List.length_reverse, List.length_cons, List.length_nil]
    unfold Activation.fp
    omega

theorem At.size_eq (h : a.At ms l u) : u.machine.stack.size = l.ops.length + a.fp := by
  obtain ⟨hslots, hlength⟩ := h.slots_eq (Nat.le_refl _)
  have hsize := congrArg List.length hslots
  rw [List.length_append, hlength, Nat.sub_self] at hsize
  simpa using hsize

/-- The instruction at a place of the code. -/
theorem At.step_eq (h : a.At ms l u) (hs : a.sites[u.machine.pc]? = some (s.site ins k)) :
    step u = execute ins (u.atPc (u.machine.pc + 1)) := by
  refine CellLisp.step_eq ?_
  obtain ⟨b, hb, he⟩ := Option.map_eq_some_iff.1 h.listing
  obtain ⟨-, hinstrs⟩ := Prod.mk.inj he
  unfold Heap.instr?
  rw [h.code, hb]
  simp only [hinstrs, List.getElem?_toArray, List.getElem?_map, hs, Option.map_some, Scope.site]

/-- Its operand holds. -/
theorem At.holds_operand (h : a.At ms l u) (hs : a.sites[u.machine.pc]? = some (s.site ins k)) :
    u.heap.Holds ins.operand := by
  obtain ⟨j, -, hc, hmem⟩ := Heap.exists_of_listing h.listing (i := ins) (by
    simpa using ⟨_, List.mem_of_getElem? hs, rfl⟩)
  exact (h.wf.heap.sound j (by rw [hc]; rfl)).values _ hmem

end Moving

/-! ## Continuations -/

section Conts

variable {a : Activation} {ms us : List Mark} {m : Mark} {l l' : Locals} {u u' : State} {h h' : Heap}

theorem Established.congr (he : a.Established h ms)
    (hsame : ∀ m ∈ ms, h'.cont? m.value = h.cont? m.value) : a.Established h' ms := by
  induction ms with
  | nil => trivial
  | cons m ms ih =>
      obtain ⟨hm, hms⟩ := he
      exact ⟨{ hm with record := (hsame m List.mem_cons_self).trans hm.record },
        ih hms fun m' hm' => hsame m' (List.mem_cons_of_mem m hm')⟩

theorem Established.right (he : a.Established h (us ++ ms)) : a.Established h ms := by
  induction us with
  | nil => exact he
  | cons u us ih => exact ih he.2

/-- The older ones stand in other cells. -/
theorem Established.apart (he : a.Established h (us ++ ms)) :
    ∀ m ∈ us, ∀ k ∈ ms.map Mark.value ++ a.base.machine.escapes, k.cell? ≠ m.value.cell? := by
  induction us with
  | nil => nofun
  | cons u us ih =>
      intro m hm k hk
      rcases List.mem_cons.1 hm with rfl | hm
      · refine he.1.apart k ?_
        change k ∈ (us ++ ms).map Mark.value ++ a.base.machine.escapes
        rw [List.map_append, List.append_assoc]
        exact List.mem_append_right _ hk
      · exact ih he.2 m hm k hk

/-- The machine is in the code of the procedure again after something that left alone what the
procedure goes by. -/
theorem At.resumed (h : a.At ms l u) (hcode : u'.machine.code = a.code) (hfp : u'.machine.fp = a.fp)
    (hslots : u'.machine.slots = l'.words a.back.words.reverse a.errand.below)
    (hargs : l'.args.length = l.args.length) (hnative : u'.machine.native = none)
    (hwf : u'.WellFormed none) (hlimit : u'.machine.limit = u.machine.limit)
    (hdyns : u'.machine.dyns = u.machine.dyns) (hconts : u'.machine.conts = u.machine.conts)
    (hrecords : ∀ k ∈ u.machine.conts.toList, u'.heap.cont? k = u.heap.cont? k)
    (hlistings : ∀ v ∈ a.code :: a.back.code :: a.errand.below,
      u'.heap.listing? v = u.heap.listing? v) : a.At ms l' u' := by
  have hmem {k : Value} (hk : k ∈ ms.map Mark.value ++ a.base.machine.escapes) :
      k ∈ u.machine.conts.toList := by
    rw [← h.escapes] at hk
    exact List.mem_reverse.1 hk
  exact
    { code := hcode
      fp := hfp
      slots := hslots
      args := hargs.trans h.args
      native := hnative
      wf := hwf
      limit := hlimit.trans h.limit
      dyns := hdyns.trans h.dyns
      listing := (hlistings _ List.mem_cons_self).trans h.listing
      escapes := by rw [Machine.escapes, hconts]; exact h.escapes
      established := h.established.congr fun m hm =>
        hrecords _ (hmem (List.mem_append_left _ (List.mem_map_of_mem hm)))
      records := fun k hk => (hrecords k (hmem (List.mem_append_right _
        (List.mem_reverse.2 hk)))).trans (h.records k hk)
      listings := fun v hv => (hlistings v (List.mem_cons_of_mem _ hv)).trans (h.listings v hv) }

/-- The words that the caller goes by are among those of the machine. -/
theorem At.mem_values (h : a.At ms l u) {v : Value}
    (hv : v ∈ a.code :: a.back.code :: a.errand.below) : v ∈ u.machine.values := by
  rcases List.mem_cons.1 hv with rfl | hv
  · rw [← h.code]
    simp [Machine.values]
  · refine Machine.mem_values_of_slots ?_
    rw [h.slots]
    rcases List.mem_cons.1 hv with rfl | hv
    · simp [Locals.words, Return.words]
    · simp [Locals.words, hv]

/-- What the procedure has is kept when the roots are. -/
theorem At.later (h : a.At ms l u) (hw : u'.WellFormed none)
    (hr : Heap.Retains u.rootValues u.heap u'.heap)
    (hrest : ∃ heap log, u'.store = { u.store with heap, world := { u.world with log } }) :
    a.errand.Later u.machine.val l u.store u'.store := by
  refine State.aside_store_iff.2 (State.aside_of_roots hr h.wf hw hrest fun v hv => ?_)
  refine State.mem_rootValues_of_machine ?_
  rcases List.mem_cons.1 hv with rfl | hv
  · simp [Machine.values]
  · refine Machine.mem_values_of_slots ?_
    rw [h.slots]
    exact l.values_subset_words _ _ hv

/-- The newest continuations are left. -/
theorem At.dropped (h : a.At (us ++ ms) l u) :
    a.At ms l (u.dropped (ms.map Mark.value ++ a.base.machine.escapes).length) := by
  have hescapes : u.machine.conts.toList.reverse = us.map Mark.value ++
      (ms.map Mark.value ++ a.base.machine.escapes) := by
    rw [← List.append_assoc, ← List.map_append]
    exact h.escapes
  set older := ms.map Mark.value ++ a.base.machine.escapes with holder
  have hrest : (u.machine.conts.shrink older.length).toList.reverse = older :=
    Machine.shrink_of_reverse hescapes
  have hleft : (u.machine.conts.extract older.length u.machine.conts.size).toList
      = (us.map Mark.value).reverse := Machine.extract_of_reverse hescapes
  have hsame {k : Value} (hk : k ∈ older) :
      (u.dropped older.length).heap.cont? k = u.heap.cont? k := by
    unfold Heap.cont?
    cases hi : k.cell? with
    | none => rfl
    | some i =>
        have hcell : (u.dropped older.length).heap.cell i = u.heap.cell i := by
          rw [State.dropped, ← Array.foldl_toList, Heap.cell_markAll, hleft, if_neg]
          rintro ⟨v, hv, hvi⟩
          obtain ⟨m, hm, rfl⟩ := List.mem_map.1 (List.mem_reverse.1 hv)
          exact h.established.apart m hm k hk (hi.trans hvi.symm)
        rw [Option.map_some, Option.map_some, hcell]
  have hretains := State.retains_dropped u.machine.values u older.length
  have hlistings : ∀ v ∈ a.code :: a.back.code :: a.errand.below,
      (u.dropped older.length).heap.listing? v = u.heap.listing? v := fun v hv =>
    hretains.listing? (Heap.reaches_of_mem (h.mem_values hv))
  have hmarked : State.WellFormed { u with heap := (u.dropped older.length).heap } none := by
    rw [State.dropped, ← Array.foldl_toList]
    exact h.wf.markAll _
  exact
    { code := h.code
      fp := h.fp
      slots := h.slots
      args := h.args
      native := h.native
      wf := by
        refine hmarked.withMachine hmarked.holds_val hmarked.holds_code (fun v hv => ?_)
          (fun v hv => hmarked.holds_of_slots hv) (fun v hv => hmarked.holds_of_conts ?_) rfl
        · cases h.native.symm.trans hv
        · rw [← List.mem_reverse, hrest] at hv
          rw [← List.mem_reverse]
          change v ∈ u.machine.conts.toList.reverse
          rw [hescapes]
          exact List.mem_append_right _ hv
      limit := h.limit
      dyns := h.dyns
      listing := (hlistings _ List.mem_cons_self).trans h.listing
      escapes := hrest
      established := h.established.right.congr fun m hm =>
        hsame (List.mem_append_left _ (List.mem_map_of_mem hm))
      records := fun k hk => (hsame (List.mem_append_right _ (List.mem_reverse.2 hk))).trans
        (h.records k hk)
      listings := fun v hv => (hlistings v (List.mem_cons_of_mem _ hv)).trans (h.listings v hv) }

/-- A continuation has been established. -/
theorem At.opened {n : Nat} {v : Value} (h : a.At ms l u) (hroom : a.Room ms l 1) (hn : n < 2 ^ 32)
    (hsup : u.Supplied (.cont (u.machine.toCont n)) v u') (hw : u'.WellFormed none)
    (hmachine : u'.machine = u.machine) : a.At (⟨v, n, l.ops.length⟩ :: ms) l
      { u' with machine := { u.machine with conts := u.machine.conts.push v } } := by
  obtain ⟨i, rfl, hi, -, hfresh, hcell⟩ := hsup.fresh
  have hkept := hsup.kept_roots
  have hreach {w : Value} (hw : w ∈ u.machine.values) : u.heap.Reaches u.rootValues w :=
    Heap.reaches_of_mem (State.mem_rootValues_of_machine hw)
  have hescape {k : Value} (hk : k ∈ ms.map Mark.value ++ a.base.machine.escapes) :
      k ∈ u.machine.values := by
    rw [← h.escapes] at hk
    exact Machine.mem_values_of_escapes hk
  have hrecord {k : Value} (hk : k ∈ ms.map Mark.value ++ a.base.machine.escapes) :
      u'.heap.cont? k = u.heap.cont? k := hkept.cont? (hreach (hescape hk))
  have hlistings : ∀ v ∈ a.code :: a.back.code :: a.errand.below,
      u'.heap.listing? v = u.heap.listing? v := fun v hv =>
    (hkept.retains hsup.size).listing? (hreach (h.mem_values hv))
  have hci : (Value.ref (Cell.cont (u.machine.toCont n)).tag i).cell? = some i :=
    Value.cell?_eq_some_iff.2 ⟨_, rfl, hi⟩
  have holds : u'.heap.Holds (.ref (Cell.cont (u.machine.toCont n)).tag i) := by
    rintro _ _ ⟨⟩ -
    rw [hcell]
    exact ⟨rfl, rfl⟩
  have hlength : (ms.map Mark.value ++ a.base.machine.escapes).length = u.machine.conts.size := by
    rw [← h.escapes, Machine.length_escapes]
  have hforce : a.InForce u'.heap ⟨.ref (Cell.cont (u.machine.toCont n)).tag i, n, l.ops.length⟩
      (ms.map Mark.value ++ a.base.machine.escapes) :=
    { record := by
        unfold Heap.cont?
        rw [hci, Option.map_some, hcell]
        simp only [recordOf, Machine.toCont, h.size_eq, h.fp, h.dyns, h.code, hlength]
      object := rfl
      pc := hn
      ops := Nat.lt_of_succ_lt hroom.words
      depth := by
        have hconts := hroom.conts
        have hbase := a.conts
        simp only [List.length_append, List.length_map, Machine.length_escapes]
        omega
      apart := fun k hk heq => hfresh (.root (v := k) ?_ (heq.trans hci)) }
  · exact
      { code := h.code
        fp := h.fp
        slots := h.slots
        args := h.args
        native := h.native
        wf := by
          refine hw.withMachine (hmachine ▸ hw.holds_val) (hmachine ▸ hw.holds_code) (fun v hv => ?_)
            (fun v hv => hw.holds_of_slots (hmachine ▸ hv)) (fun v hv => ?_) (by rw [hmachine])
          · cases h.native.symm.trans hv
          · rw [Array.toList_push, List.mem_append, List.mem_singleton] at hv
            rcases hv with hv | rfl
            · exact hw.holds_of_conts (hmachine ▸ hv)
            · exact holds
        limit := h.limit
        dyns := h.dyns
        listing := (hlistings _ List.mem_cons_self).trans h.listing
        escapes := by
          have hescapes := h.escapes
          simp only [Machine.escapes, Array.toList_push, List.reverse_append,
            List.reverse_singleton, List.map_cons] at hescapes ⊢
          rw [hescapes]
          rfl
        established := ⟨hforce, h.established.congr fun m hm =>
          hrecord (List.mem_append_left _ (List.mem_map_of_mem hm))⟩
        records := fun k hk => (hrecord (List.mem_append_right _ (List.mem_reverse.2 hk))).trans
          (h.records k hk)
        listings := fun v hv => (hlistings v (List.mem_cons_of_mem _ hv)).trans (h.listings v hv) }
  · exact List.mem_append_right _ (State.mem_rootValues_of_machine (hescape hk))

/-- The state after an exit to a continuation of the procedure, above which there are others. -/
def left (a : Activation) (m : Mark) (older : List Value) (v : Value) (u : State) : State :=
  { u.dropped older.length with
    machine := { ((u.dropped older.length).machine.truncate (m.ops + a.fp)).resume
      ⟨a.code, m.pc, a.fp⟩ with val := v } }

theorem At.exitTo_eq (h : a.At (us ++ m :: ms) l u) (hops : m.ops ≤ l.ops.length) (v : Value) :
    exitTo m.value v u
      = .ok () (a.left m (ms.map Mark.value ++ a.base.machine.escapes) v u) := by
  have hescapes : u.machine.escapes
      = us.map Mark.value ++ m.value :: (ms.map Mark.value ++ a.base.machine.escapes) := by
    rw [h.escapes, List.map_append, List.append_assoc]
    rfl
  have hforce : a.InForce u.heap m (ms.map Mark.value ++ a.base.machine.escapes) :=
    h.established.right.1
  set older := ms.map Mark.value ++ a.base.machine.escapes
  have hsp : (UInt32.ofNat (m.ops + a.fp)).toNat = m.ops + a.fp :=
    UInt32.toNat_ofNat_of_lt' hforce.ops
  have hfp : (UInt32.ofNat a.fp).toNat = a.fp :=
    UInt32.toNat_ofNat_of_lt' (Nat.lt_of_le_of_lt (Nat.le_add_left _ _) hforce.ops)
  have hpc : (UInt32.ofNat m.pc).toNat = m.pc := UInt32.toNat_ofNat_of_lt' hforce.pc
  have hdepth : (UInt32.ofNat older.length).toNat = older.length :=
    UInt32.toNat_ofNat_of_lt' hforce.depth
  have hdyns : (UInt32.ofNat a.base.machine.dyns.size).toNat = a.base.machine.dyns.size :=
    UInt32.toNat_ofNat_of_lt' a.dyns
  have hentry : u.machine.conts[(UInt32.ofNat older.length).toNat]? = some m.value := by
    rw [hdepth]
    exact Machine.getElem?_of_reverse hescapes
  have hstack : (UInt32.ofNat (m.ops + a.fp)).toNat ≤ u.machine.stack.size := by
    rw [hsp, h.size_eq]
    omega
  -- nothing is bound dynamically since the continuation was established
  have hunwound : (u.dropped older.length).unwound a.base.machine.dyns.size
      = u.dropped older.length := State.unwound_of_le (Nat.le_of_eq (congrArg Array.size h.dyns))
  rw [exitTo_of_live hforce.object hforce.record rfl hentry hstack]
  simp only [State.exited, recordOf, left, hsp, hfp, hpc, hdepth, hdyns, hunwound]

theorem At.left (h : a.At (us ++ m :: ms) l u) (hops : m.ops ≤ l.ops.length) :
    a.At ms (l.drop (l.ops.length - m.ops))
      (a.left m (ms.map Mark.value ++ a.base.machine.escapes) u.machine.val u) := by
  have hall : a.At ((us ++ [m]) ++ ms) l u := by rwa [List.append_assoc]
  have hat := hall.dropped
  obtain ⟨hslots, hlength⟩ := hat.slots_eq hops
  refine hat.withMachine hat.code.symm hat.fp.symm rfl rfl rfl rfl ?_ rfl hat.wf.holds_val
    fun w hw => hat.holds_values w (Locals.values_drop_subset l _ hw)
  rw [← hlength]
  exact Machine.slots_truncate hslots

end Conts

end Activation

end CellLisp
