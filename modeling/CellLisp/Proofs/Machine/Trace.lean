import CellLisp.Proofs.Code.Extent
import CellLisp.Proofs.Machine.Escape
import CellLisp.Proofs.Machine.Undo

/-!
# `CellLisp.Proofs.Machine.Trace` — what one instruction leaves of the stacks

An instruction puts at most one continuation in force, or leaves the newest ones, and the same
goes for dynamic bindings (`Traced`); of the frames of a run it gives up the newest ones, or adds
one (`Advances`).  `Poised.at_next` is what an instruction has to show to go on in its frame.
-/

namespace CellLisp

/-! ## Stacks -/

/-- A stack has one element more, or has lost its newest ones. -/
def Shifted {α : Type} (New : α → Prop) (xs ys : Array α) : Prop :=
  (∃ n, ys = xs.shrink n) ∨ ∃ x, ys = xs.push x ∧ New x

theorem Shifted.refl {α : Type} {New : α → Prop} (xs : Array α) : Shifted New xs xs :=
  .inl ⟨xs.size, by rw [← Array.toList_inj, Array.toList_shrink, List.take_of_length_le (by simp)]⟩

/-- The record of a continuation says where a machine is, and that it is still in force. -/
structure Cont.Records (k : Cont) (m : Machine) (resumeAt : Nat) : Prop where
  code : k.code = m.code
  pc : k.pc.toNat = resumeAt
  fp : k.fp.toNat = m.fp
  sp : k.sp.toNat = m.stack.size
  dynDepth : k.dynDepth.toNat = m.dyns.size
  depth : k.depth.toNat = m.conts.size
  exited : k.exited = false

/-- A continuation is established by an instruction, in a cell that nothing led to. -/
def Establishes (ins : Instr) (s s' : State) (v : Value) : Prop :=
  ins.op = .withCont ∧ ∃ i k, v = .ref .object i ∧ ¬s.heap.Reachable s.rootValues i ∧
    s'.heap.cell i = .cont k ∧ k.Records s.machine ins.operand.word ∧
      s'.machine.dyns = s.machine.dyns

/-- A dynamic binding is made by an instruction, and notes the value that its symbol had. -/
def Binds (ins : Instr) (s : State) (b : DynBinding) : Prop :=
  ins.op = .dynBind ∧ ∃ i, ins.operand = .ref .symbol i ∧ i ≠ 0 ∧
    b = ⟨.ref .symbol i, s.heap.valueAt i⟩

/-- Whether an instruction undoes dynamic bindings. -/
def Opcode.unwinds : Opcode → Bool
  | .exit | .envExit | .dynUnbind => true
  | _ => false

/-- Whether an instruction goes back to where a continuation was established. -/
def Opcode.exits : Opcode → Bool
  | .exit | .envExit => true
  | _ => false

theorem Opcode.unwinds_of_exits {op : Opcode} (h : op.exits = true) : op.unwinds = true := by
  cases op <;> first | rfl | cases h

/-- What an instruction does to the continuations and dynamic bindings in force. -/
structure Traced (ins : Instr) (s s' : State) : Prop where
  conts : Shifted (Establishes ins s s') s.machine.conts s'.machine.conts
  dyns : Shifted (Binds ins s) s.machine.dyns s'.machine.dyns
  keeps : ins.op.unwinds = false → s.machine.dyns.toList <+: s'.machine.dyns.toList
  records : ∀ i k, .ref .object i ∈ s.machine.conts.toList →
    .ref .object i ∈ s'.machine.conts.toList → s.heap.cell i = .cont k → s'.heap.cell i = .cont k

/-- What lasts is the same, what a run began with can still be gone back to, and the stacks are as
an instruction leaves them. -/
structure Stepped (m : Mode) (d : Nat) (o : System) (ins : Instr) (w w' : System) : Prop extends
  Ran m d o w w', Traced ins w.state w'.state

section Traced

variable {ins : Instr} {w w₁ w' : System} {m : Mode} {d : Nat} {o : System}

theorem Quiet.traced (h : Quiet w w') : Traced ins w.state w'.state where
  conts := by rw [h.conts]; exact .refl _
  dyns := by rw [h.dyns]; exact .refl _
  keeps := fun _ => ⟨[], by rw [h.dyns, List.append_nil]⟩
  records := fun i k hi _ hk => h.records i k hi hk

theorem Calm.stepped (h : Calm m d o w w') : Stepped m d o ins w w' :=
  { h.toRan, h.toQuiet.traced with }

theorem Stepped.refl (w : System) : Stepped m d o ins w w :=
  Calm.stepped (Follows.refl w)

/-- To move on to the next instruction does not count. -/
theorem Traced.after {pc : Nat} (hm : w.Moves w₁ { w.state.machine with pc })
    (h : Traced ins w₁.state w'.state) : Traced ins w.state w'.state := by
  rw [hm.state] at h
  refine ⟨h.conts.imp_right ?_, h.dyns, h.keeps, h.records⟩
  rintro ⟨v, hv, hop, i, k, rfl, hfresh, hc, hrec, hdyns⟩
  exact ⟨_, hv, hop, i, k, rfl, hfresh, hc,
    ⟨hrec.code, hrec.pc, hrec.fp, hrec.sp, hrec.dynDepth, hrec.depth, hrec.exited⟩, hdyns⟩

end Traced

/-! ## Frames -/

/-- What an instruction that goes on at a place does to the frames of a run. -/
inductive Advances (op : Opcode) (place : Return) : List Frame → List Frame → Prop
  /-- It goes on in the newest one. -/
  | stays {fs : List Frame} {f f' : Frame} : f.Becomes f' → Advances op place (f :: fs) (f' :: fs)
  /-- It puts one on top of that. -/
  | calls {fs : List Frame} {f f' g : Frame} : f.Becomes f' → f'.dyns = f.dyns →
      Advances op place (f :: fs) (g :: f' :: fs)
  /-- It goes back to one of them, with the older part of what that has. -/
  | leaves {gs fs : List Frame} {f f' : Frame} : op.exits = true → f.Becomes f' →
      f'.dyns <:+ f.dyns → Advances op place (gs ++ f :: fs) (f' :: fs)
  /-- It gives up the newest one, for another that goes back to where that does, or goes back
  there. -/
  | givesUp {fs new : List Frame} {f : Frame} : op.givesUp = true → new.length ≤ 1 →
      (∀ g ∈ new, g.back = f.back) → (new = [] → place = f.back) →
      Advances op place (f :: fs) (new ++ fs)

theorem Advances.adds {op : Opcode} {place : Return} {gs fs : List Frame} {f f' : Frame}
    (hf : f.Becomes f') (hdyns : f'.dyns = f.dyns) (hgs : gs.length ≤ 1) :
    Advances op place (f :: fs) (gs ++ f' :: fs) := by
  cases gs with
  | nil => exact .stays hf
  | cons g gs =>
      obtain rfl : gs = [] := List.eq_nil_of_length_eq_zero (Nat.le_zero.1 (Nat.le_of_succ_le_succ hgs))
      exact .calls hf hdyns

section Next

variable {w w' : System} {mode : Mode} {d : Nat} {o : System} {base : Machine} {fs : List Frame}
  {f : Frame} {i : Nat} {s : Site}

theorem InPlace.areKinds {vs : List Value} {ks : List Kind} (h : InPlace w w')
    (hvs : w.AreKinds vs ks) : w'.AreKinds vs ks :=
  hvs.retained (h.retained vs) (List.Subset.refl _) h.known

theorem InPlace.established {code : Value} {fp below dyns older : Nat} {vs : List Value}
    {ks : List Label} (h : InPlace w w') (hvs : Established w code fp below dyns older ks vs) :
    Established w' code fp below dyns older ks vs :=
  hvs.retained (h.retained vs) (List.Subset.refl _)

theorem Poised.established (h : Poised w base f fs i s) :
    Established w w.state.machine.code w.state.machine.fp (f.below ++ slotsOf fs base).length
      (bindingsOf fs base).length (escapesOf fs base).length s.shape.labels f.conts := by
  have := h.frame.conts
  rwa [h.shape] at this

theorem Poised.kinds (h : Poised w base f fs i s) : w.AreKinds f.ops s.shape.ops := by
  have := h.frame.ops
  rwa [h.shape] at this

theorem Poised.length_dyns (h : Poised w base f fs i s) : f.dyns.length = s.shape.dyns := by
  have := h.frame.dyns
  rwa [h.shape] at this

/-- The machine goes on in the same frame. -/
theorem Poised.at_next {sh : Shape} {ops args conts : List Value} {dyns : List DynBinding}
    (h : Poised w base f fs i s) (hin : InPlace w w')
    (hcode : w'.state.machine.code = w.state.machine.code)
    (hfp : w'.state.machine.fp = w.state.machine.fp)
    (harrives : Arrives f.proc.sites w'.state.machine.pc sh)
    (hshows : Shows w'.state.machine ({ f with shape := sh, ops, args, conts, dyns } :: fs) base)
    (hops : w'.AreKinds ops sh.ops)
    (hargs : ∀ v ∈ args, w'.Good v) (hlength : args.length = f.args.length)
    (hconts : Established w' w.state.machine.code w.state.machine.fp
      (f.below ++ slotsOf fs base).length (bindingsOf fs base).length (escapesOf fs base).length
      sh.labels conts)
    (hdyns : dyns.length = sh.dyns)
    (hvalue : ∀ k, sh.val = some k → w'.IsKind w'.state.machine.val k)
    (hnative : w'.state.machine.native = none) :
    At w' base ({ f with shape := sh, ops, args, conts, dyns } :: fs) sh.val := by
  have hvs := hin.retained (w.state.machine.code :: (f.slots ++ f.conts))
  have hframe := h.frame.retained hvs hin.known (by simp) (fun _ hv => by simp [hv])
    fun _ hv => by simp [hv]
  obtain ⟨b, hb, hfull⟩ := h.full.retained h.frame hvs (by simp)
  refine ⟨hshows, ⟨?_, ⟨b, hb, hlength.trans hfull⟩, rfl, hin.chained h.chained⟩, hvalue, hnative⟩
  have hmoved := hframe.move harrives hops hconts hdyns
  rw [show w'.state.machine.place = ⟨w.state.machine.code, w'.state.machine.pc,
    w.state.machine.fp⟩ by rw [Machine.place, hcode, hfp]]
  have hbelow : ({ f with args } : Frame).below.length = f.below.length := by
    simp [Frame.below, Frame.saved, hlength]
  refine { hmoved with args := hargs, fp := ?_, conts := ?_ }
  · rw [hlength]
    exact hmoved.fp
  · have := hmoved.conts
    rw [List.length_append] at this ⊢
    rw [show ({ f with shape := sh, ops, args, conts, dyns } : Frame).below.length
      = f.below.length from hbelow]
    exact this

/-- The machine goes on in the same frame with other operands, as far as it changes registers and
operands only. -/
theorem Poised.at_moved {u : Machine} (h : Poised w base f fs i s) (sh : Shape) (ops : List Value)
    (hm : w.Moves w' u)
    (hu : u.code = w.state.machine.code ∧ u.fp = w.state.machine.fp ∧
      u.conts = w.state.machine.conts ∧ u.dyns = w.state.machine.dyns ∧
      u.native = w.state.machine.native)
    (hslots : u.slots = ops ++ (f.below ++ slotsOf fs base)) (hroom : u.stack.size ≤ u.limit)
    (harrives : Arrives f.proc.sites u.pc sh) (hops : w.AreKinds ops sh.ops)
    (hlabels : sh.labels = s.shape.labels) (hdyns : sh.dyns = s.shape.dyns)
    (hvalue : ∀ k, sh.val = some k → w.IsKind u.val k) :
    ∃ f', f.Becomes f' ∧ At w' base (f' :: fs) sh.val := by
  obtain ⟨hcode, hfp, hconts', hdyns', hnative⟩ := hu
  have hmachine := hm.machine
  have hescapes := h.shows.escapes
  have hbindings := h.shows.bindings
  refine ⟨{ f with shape := sh, ops }, ⟨rfl, rfl, rfl, rfl, .inl List.suffix_rfl⟩,
    h.at_next hm.inPlace ?_ ?_ ?_ ⟨?_, ?_, ?_, ?_⟩ (hm.inPlace.areKinds hops)
      (fun v hv => hm.good (h.frame.args v hv)) rfl ?_ ?_ ?_ ?_⟩
  · rw [hmachine, hcode]
  · rw [hmachine, hfp]
  · rw [hmachine]
    exact harrives
  · rw [hmachine, hslots, slotsOf_cons]
    rfl
  · rw [hmachine, Machine.escapes, hconts', ← Machine.escapes, hescapes, escapesOf_cons, escapesOf_cons]
  · rw [hmachine, Machine.bindings, hdyns', ← Machine.bindings, hbindings, bindingsOf_cons,
      bindingsOf_cons]
  · rw [hmachine]
    exact hroom
  · rw [hlabels]
    exact hm.inPlace.established h.established
  · rw [hdyns]
    exact h.length_dyns
  · intro k hk
    rw [hmachine]
    exact hm.isKind (hvalue k hk)
  · rw [hmachine, hnative]
    exact h.native

/-- What the machine refers to is kept by a step that leaves it alone. -/
theorem Poised.rigid (h : Poised w base f fs i s) (hs : Stable mode.rigid d w w')
    (ht : mode.target = none) : Poised w' base f fs i s := by
  have hm := hs.machine rfl
  have hr := hs.retained ht
  have hslots := h.shows.slots_subset
  have hescapes := h.shows.escapes_subset
  rw [List.flatMap_cons, List.append_subset] at hslots hescapes
  have hcode : w.state.machine.code ∈ w.state.machine.values := by simp [Machine.values]
  refine ⟨by rw [hm]; exact h.shows, ?_, h.full.retained h.frame hr hcode, ?_, h.site, h.shape,
    by rw [hm]; exact h.pc, fun k hk => ?_, by rw [hm]; exact h.native⟩
  · rw [hm]
    exact h.frame.retained hr hs.known hcode hslots.1 hescapes.1
  · exact h.chained.retained hr hs.known (hslots.1 (by simp [Frame.slots, Frame.below, Frame.saved]))
      hslots.2 hescapes.2
  · rw [hm]
    exact (h.value k hk).retained hr (by simp [Machine.values]) hs.known

/-- The value of an instruction in the value register. -/
theorem Poised.leads_setVal {v : Value} {k : Kind} (h : Poised w o.state.machine f fs i s)
    (hv : w.IsKind v k) (harrives : Arrives f.proc.sites (i + 1) (s.shape.withVal k)) :
    Leads (Calm mode d o) (setVal v) w fun _ w' =>
      ∃ f', f.Becomes f' ∧ At w' o.state.machine (f' :: fs) (some k) := by
  refine (CellLisp.leads_setVal hv.holds h.above).mono ?_
  rintro _ w' - hm
  refine h.at_moved (s.shape.withVal k) f.ops hm ⟨rfl, rfl, rfl, rfl, rfl⟩ ?_
    h.shows.room ?_ h.kinds rfl rfl ?_
  · exact h.shows.slots.trans slotsOf_cons
  · change Arrives _ w.state.machine.pc _
    rw [h.pc]
    exact harrives
  · rintro _ ⟨⟩
    exact hv

end Next

end CellLisp
