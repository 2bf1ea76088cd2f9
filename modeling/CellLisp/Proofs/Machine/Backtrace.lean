import CellLisp.Machine.Backtrace
import CellLisp.Proofs.Machine.Fault
import CellLisp.Proofs.Machine.Ending
import CellLisp.Proofs.Machine.Loading
import CellLisp.Proofs.Machine.OneShot

/-!
# `CellLisp.Proofs.Machine.Backtrace` — the procedures that await a return

A listing after a failure follows the words that each call has saved, from the frame at work
outward.  It may be asked for in the middle of an instruction, so it is shown for each way in which
an instruction fails (`Breaks`) what is on the stack then:

| | |
| :-- | :-- |
| `State.Pending` | the saved words lead through so many frames to the code that every run returns into |
| `Stands.pending` | they do so from the pile of frames that a run stands on |
| `State.Backtraced` | the listing is of the procedures that await a return |
| `Run.lists_callers` | it is so after every failure in a run, with one exception |
| `Run.backtrace_overwritten` | a tail call that does not go through has lost them |
| `invoke_reports` | the listing is kept when the run is given up |

A tail call puts its arguments in the place of the frame that it gives up before it is known whether
the call goes through.
-/

namespace CellLisp

/-! ## Saved words -/

/-- From the frame at `fp`, in which `code` is carried out, the saved words lead through the frames
of `codes` to the code that every run returns into. -/
inductive State.Pending (s : State) : Value → Nat → List Value → Prop
  | halt {code : Value} {fp : Nat} : code = s.known.halt → s.Pending code fp []
  | frame {i fp : Nat} {caller saved : Value} {codes : List Value} :
      .ref .bytecode i ≠ s.known.halt → 3 ≤ fp → s.machine.stack[fp - 3]? = some caller →
        s.machine.stack[fp - 1]? = some saved → s.Pending caller saved.word codes →
          s.Pending (.ref .bytecode i) fp (.ref .bytecode i :: codes)

section Pending

variable {s : State} {code : Value} {fp n : Nat} {codes codes' : List Value}

/-- The listing names the codes, however many more steps it is allowed. -/
theorem State.Pending.framesFrom (h : s.Pending code fp codes) (hn : codes.length ≤ n) :
    s.framesFrom n code fp = codes.map s.heap.procName := by
  induction h generalizing n with
  | halt hcode => cases n <;> simp [State.framesFrom, hcode]
  | frame hne hfp hcaller hsaved hrest ih =>
      cases n with
      | zero => simp at hn
      | succ n =>
          have htail := ih (n := n) (by simpa using hn)
          unfold State.framesFrom
          rw [if_neg (by simp [Value.isBytecode, hne]), if_neg (by omega), hcaller, hsaved]
          simp only [htail, List.map_cons]

theorem State.Pending.unique (h : s.Pending code fp codes) (h' : s.Pending code fp codes') :
    codes' = codes := by
  induction h generalizing codes' with
  | halt hcode =>
      cases h' with
      | halt => rfl
      | frame hne => exact absurd hcode hne
  | frame hne hfp hcaller hsaved hrest ih =>
      cases h' with
      | halt hcode => exact absurd hcode hne
      | frame _ _ hcaller' hsaved' hrest' =>
          obtain rfl := Option.some.inj (hcaller.symm.trans hcaller')
          obtain rfl := Option.some.inj (hsaved.symm.trans hsaved')
          rw [ih hrest']

end Pending

/-- The code of a frame. -/
def Frame.code (f : Frame) : Value := .ref .bytecode f.cell

section Frames

variable {w : System} {base : Machine} {f : Frame} {fs pile : List Frame} {r : Return}
  {val? : Option Kind} {s : State} {u codes : List Value}

/-- No frame is one of the code that every run returns into. -/
theorem FrameOk.ne_halt (h : FrameOk w base fs r f) (hhalts : w.Halts) :
    f.code ≠ w.state.known.halt := by
  obtain ⟨i, site, sites, hhalt, -, hplan⟩ := hhalts
  intro he
  rw [hhalt] at he
  obtain ⟨-, rfl⟩ := Value.ref.inj he
  rw [h.plan] at hplan
  cases hplan

theorem FrameOk.pending (h : FrameOk w base fs r f) (hhalts : w.Halts)
    (hknown : s.known = w.state.known) (hslots : s.machine.slots = u ++ (f.below ++ slotsOf fs base))
    (hrest : s.Pending f.back.code f.back.fp codes) : s.Pending r.code r.fp (f.code :: codes) := by
  obtain ⟨hfp, hcode, -, hsaved⟩ := h.getElem?_saved hslots
  have hne : f.code ≠ s.known.halt := by
    rw [hknown]
    exact h.ne_halt hhalts
  have hword : (Value.ofInt f.back.fp).word = f.back.fp := Value.word_ofInt h.fits.2
  rw [h.code]
  exact .frame hne hfp hcode hsaved (hword.symm ▸ hrest)

/-- The saved words of a pile of frames lead from one to the next, whatever is on top. -/
theorem Chained.pending (hhalts : w.Halts) (hknown : s.known = w.state.known) :
    {fs : List Frame} → {r : Return} → {val? : Option Kind} → {u : List Value} →
      Chained w base fs r val? → s.machine.slots = u ++ slotsOf fs base →
        s.Pending r.code r.fp (fs.map Frame.code)
  | [], r, _, _, h, _ => by
      exact .halt (h.1.trans (by rw [hknown]))
  | f :: fs, r, _, u, h, hslots => by
      obtain ⟨hok, -, -, hrest⟩ := h
      have hwords : s.machine.slots = (u ++ f.ops) ++ (f.below ++ slotsOf fs base) := by
        rw [hslots, slotsOf_cons, List.append_assoc]
      have hlower : s.machine.slots = (u ++ f.ops ++ f.below) ++ slotsOf fs base := by
        rw [hwords, List.append_assoc _ f.below]
      exact hok.pending hhalts hknown hwords (Chained.pending hhalts hknown hrest hlower)

theorem Stands.pending (h : Stands w base pile) (hhalts : w.Halts)
    (hknown : s.known = w.state.known) (hslots : s.machine.slots = u ++ slotsOf pile base) :
    s.Pending w.state.machine.code w.state.machine.fp (pile.map Frame.code) := by
  rcases h with ⟨val?, h⟩ | ⟨f, fs, rfl, h⟩
  · exact h.chained.pending hhalts hknown hslots
  · have hwords : s.machine.slots = (u ++ f.ops) ++ (f.below ++ slotsOf fs base) := by
      rw [hslots, slotsOf_cons, List.append_assoc]
    have hlower : s.machine.slots = (u ++ f.ops ++ f.below) ++ slotsOf fs base := by
      rw [hwords, List.append_assoc _ f.below]
    exact h.frame.pending hhalts hknown hwords (h.chained.pending hhalts hknown hlower)

/-- The words that the frames saved lead from the procedure at work to those that await a return. -/
theorem Stands.awaits (h : Stands w base (f :: fs)) (hhalts : w.Halts) :
    w.state.Pending w.state.machine.code w.state.machine.fp
      (w.state.machine.code :: fs.map Frame.code) := by
  have hcode : w.state.machine.code = f.code := h.exists_place.1.code
  have hpending := h.pending (u := []) hhalts rfl h.shows.slots
  rw [List.map_cons, ← hcode] at hpending
  exact hpending

theorem Stands.native (h : Stands w base pile) : w.state.machine.native = none := by
  rcases h with ⟨val?, h⟩ | ⟨f, fs, rfl, h⟩
  · exact h.native
  · exact h.native

theorem Stands.length_le (h : Stands w base pile) : 3 * pile.length ≤ w.state.machine.stack.size := by
  have hpile := three_mul_length_le pile base
  have hslots := congrArg List.length h.shows.slots
  rw [Machine.length_slots] at hslots
  omega

end Frames

/-! ## Calls that fail -/

/-- The state with the arguments of a tail call in the place of the frame that makes it. -/
def State.slid (s : State) (depth argc : Nat) : State :=
  { s with machine := s.machine.slide depth argc }

section Calls

variable {w : System} {base : Machine} {f : Frame} {fs : List Frame} {i n : Nat} {s : Site}

theorem Poised.length_take (h : Poised w base f fs i s) (hn : n ≤ s.shape.ops.length) :
    (f.ops.take n).length = n := by
  rw [List.length_take, h.kinds.length_eq, Nat.min_eq_left hn]

/-- The arguments of a tail call are on the stack. -/
theorem Poised.modifier_le (h : Poised w base f fs i s) (hop : s.instr.op = .tailCall) :
    s.instr.modifier ≤ s.shape.ops.length := by
  have hsafe := h.safe
  unfold Site.Safe at hsafe
  simp only [hop] at hsafe
  exact hsafe.2.1

variable {d : Nat} (mode : Mode)

theorem Poised.breaks_call (h : Poised w base f fs i s) (ha : Addressable w)
    (hd : d ≤ w.state.roots.size) (hop : s.instr.op = .call)
    (htame : s.shape.val = some .any → w.heap.isTame mode.pairs w.state.machine.val = true) :
    Breaks (execute s.instr) w.state
      (Balked w.state w.state.machine.val s.instr.modifier w.state.machine.place) := by
  have hsafe := h.safe
  unfold Site.Safe at hsafe
  unfold execute
  simp only [hop] at hsafe ⊢
  refine .bindGets (.bind ?_ fun _ _ _ => .pure)
  rcases hsafe with ⟨hval, hn, hops, harrives⟩ | ⟨hval, hm, n, ops, hops, harrives⟩
  · have hkinds : w.AreKinds (f.ops.take s.instr.modifier) (s.shape.ops.take s.instr.modifier) :=
      List.forall₂_take _ h.kinds
    have hlen := h.length_take hn
    have hcall := h.calling ha rfl harrives
    have hbreaks := breaks_enter mode d hcall (h.value _ hval).holds
      fun j n w' hj hc hm => hcall.yields_apply (hkinds.good hops) hd
        (Heap.isTame_native (htame hval) j n hj hc) hm
    rwa [hlen] at hbreaks
  · have hmaker : w.state.machine.val = w.state.known.makeClosure := h.value _ hval
    have hkinds := h.kinds
    have hcall := h.calling (n := 2) ha (by rw [hops]; rfl) harrives
    rw [hops] at hkinds
    generalize f.ops = us at hkinds hcall
    cases hkinds with
    | cons henv hrest =>
        cases hrest with
        | cons hcode hrest =>
            rw [hm]
            have hbreaks := breaks_enter mode d hcall (h.value _ hval).holds
              fun j n w' hj hc hm => yields_join henv hcode (hmaker ▸ hj) hc hm
            simp only [List.take_succ_cons, List.take_zero, List.length_cons, List.length_nil] at hbreaks
            exact hbreaks

theorem Poised.breaks_tailCall (h : Poised w base f fs i s) (hd : d ≤ w.state.roots.size)
    (hop : s.instr.op = .tailCall)
    (htame : w.heap.isTame mode.pairs w.state.machine.val = true) :
    Breaks (execute s.instr) w.state
      (Balked (w.state.slid (slotsOf fs base).length s.instr.modifier) w.state.machine.val
        s.instr.modifier f.back) := by
  have hsafe := h.safe
  unfold Site.Safe at hsafe
  unfold execute
  simp only [hop] at hsafe ⊢
  obtain ⟨hval, hn, hops, hlabels, hdyns⟩ := hsafe
  refine .bind ?_ fun _ _ _ => .pure
  unfold tailCall
  refine .bind unfailing_currentFrame.breaks fun p t ht => ?_
  obtain ⟨rfl, rfl⟩ := (looks_currentFrame h).of_ok ht
  refine .bindGets (.checkFatal fun _ => .bindMachine (.bindGets ?_))
  obtain ⟨w', hm⟩ := (h.takes_slid hn).exists_moves
  have hkinds : w.AreKinds (f.ops.take s.instr.modifier) (s.shape.ops.take s.instr.modifier) :=
    List.forall₂_take _ h.kinds
  have hlen := h.length_take hn
  have hcall := h.calling_slid hlabels hdyns hn hm
  have hbreaks := breaks_enter mode d hcall
    (hm.holds (h.value _ hval).holds) fun j n w'' hj hc hm' =>
      hcall.yields_apply (fun v hv => hm.good (hkinds.good hops v hv)) (by rw [hm.state]; exact hd)
        (Heap.isTame_native htame j n hj (by rw [← hm.heap]; exact hc)) hm'
  rw [hlen, hm.state] at hbreaks
  exact hbreaks

end Calls

/-! ## The listing after a failure -/

/-- Whether the next instruction gives up its frame for a call that does not go through. -/
def State.overwrites (s : State) : Bool :=
  match s.heap.instr? s.machine.code s.machine.pc with
  | some ⟨.tailCall, n, _⟩ => !s.heap.enters s.machine.val n
  | _ => false

/-- Whether the next instruction calls a closure when there is room for the words to save at most,
and none for the environment. -/
def State.crowds (s : State) : Bool :=
  match s.heap.instr? s.machine.code s.machine.pc with
  | some ⟨.call, _, _⟩ =>
    (s.heap.entry? s.machine.val).any (·.2.isSome) && s.machine.limit ≤ s.machine.stack.size + 3
  | _ => false

/-- After the instruction at `s` has failed in `s'`, the listing is of a built-in procedure that was
called, of `own` for the procedure at work, and of the `callers` that await a return. -/
structure State.Backtraced (s s' : State) (own callers : List Value) : Prop where
  awaits : s.Pending s.machine.code s.machine.fp (s.machine.code :: callers)
  atMost : own <+: List.replicate (if s.crowds then 2 else 1) s.machine.code
  ends : s'.Pending s'.machine.code s'.machine.fp (own ++ callers)
  names : s'.backtrace = (s'.machine.native.toList ++ (own ++ callers)).map s'.heap.procName

theorem enters_of_not_overwrites {s : State} {ins : Instr}
    (hins : s.heap.instr? s.machine.code s.machine.pc = some ins) (hop : ins.op = .tailCall)
    (h : s.overwrites = false) : s.heap.enters s.machine.val ins.modifier = true := by
  unfold State.overwrites at h
  obtain ⟨op, n, x⟩ := ins
  obtain rfl : op = .tailCall := hop
  simpa [hins] using h

section Listing

variable {w : System} {d : Nat} {base : Machine} {f : Frame} {fs pile : List Frame} {s s' : State}
  {u codes own : List Value} {cause : Error}

theorem State.Pending.backtrace (h : s.Pending s.machine.code s.machine.fp codes)
    (hn : codes.length ≤ s.machine.stack.size + 2) :
    s.backtrace = (s.machine.native.toList ++ codes).map s.heap.procName := by
  unfold State.backtrace
  dsimp only
  rw [h.framesFrom hn, List.map_append]
  cases s.machine.native <;> rfl

/-- What is left on the stack of the frames that await a return is enough to list them. -/
theorem Stands.backtraced (h : Stands w base (f :: fs)) (hhalts : w.Halts)
    (hslots : s'.machine.slots = u ++ slotsOf fs base)
    (hown : own <+: List.replicate (if w.state.crowds then 2 else 1) w.state.machine.code)
    (hends : s'.Pending s'.machine.code s'.machine.fp (own ++ fs.map Frame.code)) :
    w.state.Backtraced s' own (fs.map Frame.code) := by
  refine ⟨h.awaits hhalts, hown, hends, hends.backtrace ?_⟩
  have hle : own.length ≤ 2 := by
    refine Nat.le_trans hown.length_le ?_
    rw [List.length_replicate]
    split <;> omega
  have hpile := three_mul_length_le fs base
  have hsize := congrArg List.length hslots
  simp only [Machine.length_slots, List.length_append] at hsize
  rw [List.length_append, List.length_map]
  omega

/-- Where the machine is still in the frame that it was in, that is listed once. -/
theorem Stands.backtraced_still (h : Stands w base (f :: fs)) (hhalts : w.Halts)
    (hknown : s'.known = w.state.known) (hcode : s'.machine.code = w.state.machine.code)
    (hfp : s'.machine.fp = w.state.machine.fp)
    (hslots : s'.machine.slots = u ++ slotsOf (f :: fs) base) :
    w.state.Backtraced s' [w.state.machine.code] (fs.map Frame.code) := by
  have hframe : w.state.machine.code = f.code := h.exists_place.1.code
  have hends := h.pending hhalts hknown hslots
  have hlower : s'.machine.slots = (u ++ f.slots) ++ slotsOf fs base := by
    rw [hslots, slotsOf_cons, Frame.slots]
    simp only [List.append_assoc]
  refine h.backtraced hhalts hlower ?_ ?_
  · split <;> simp
  · rw [hcode, hfp, hframe]
    rw [hframe] at hends
    exact hends

/-- A frame of which only the words that a call saves have been pushed leads on to the one that they
say. -/
theorem State.Pending.framed {r : Return} {i : Nat}
    (hrest : (s.framed r).Pending r.code r.fp codes) (hne : .ref .bytecode i ≠ s.known.halt)
    (hfits : r.fp < 2 ^ 59) :
    (s.framed r).Pending (.ref .bytecode i) (s.framed r).machine.fp (.ref .bytecode i :: codes) := by
  have hword : (Value.ofInt r.fp).word = r.fp := Value.word_ofInt hfits
  have hfp : (s.framed r).machine.fp = s.machine.stack.size + 3 := rfl
  have hstack : (s.framed r).machine.stack = s.machine.stack ++ r.words.toArray := rfl
  rw [hfp]
  refine @Pending.frame _ _ _ r.code (.ofInt r.fp) _ hne (Nat.le_add_left 3 _) ?_ ?_ ?_
  · rw [hstack, Nat.add_sub_cancel, Array.getElem?_append_right (Nat.le_refl _)]
    simp [Return.words]
  · rw [hstack, show s.machine.stack.size + 3 - 1 = s.machine.stack.size + 2 by omega,
      Array.getElem?_append_right (Nat.le_add_right _ _)]
    simp [Return.words]
  · rw [hword]
    exact hrest

/-- A call that fails. -/
theorem Stands.backtraced_call {t : State} {ins : Instr} {argc : Nat}
    (h : Stands w base (f :: fs)) (hhalts : w.Halts)
    (hins : w.state.heap.instr? w.state.machine.code w.state.machine.pc = some ins)
    (hop : ins.op = .call) (ht : t = w.state.atPc (w.state.machine.pc + 1))
    (hfits : t.machine.fp < 2 ^ 59)
    (hbalked : Balked t w.state.machine.val argc t.machine.place s') :
    ∃ own, w.state.Backtraced s' own (fs.map Frame.code) := by
  have hknown : t.known = w.state.known := by rw [ht]; rfl
  have hcode : t.machine.code = w.state.machine.code := by rw [ht]; rfl
  have hfp : t.machine.fp = w.state.machine.fp := by rw [ht]; rfl
  have hslots : t.machine.slots = slotsOf (f :: fs) base := by
    rw [ht]
    exact h.shows.slots
  have hframe : w.state.machine.code = f.code := h.exists_place.1.code
  cases hbalked with
  | turnedDown => exact ⟨_, h.backtraced_still (u := []) hhalts hknown hcode hfp hslots⟩
  | builtIn _ hknown' hmachine =>
      refine ⟨_, h.backtraced_still (u := []) hhalts (hknown'.trans hknown) ?_ ?_ ?_⟩
      · rw [hmachine]
        exact hcode
      · rw [hmachine]
        exact hfp
      · rw [hmachine]
        exact hslots
  | @crowded code env _ hentry _ hstranded =>
      cases hstranded with
      | @saving words =>
          have hwords : (t.withWords words).machine.slots = words.reverse ++ slotsOf (f :: fs) base := by
            rw [slots_withWords, hslots]
          exact ⟨_, h.backtraced_still hhalts hknown hcode hfp hwords⟩
      | entered hsome hfull =>
          have hcrowds : w.state.crowds = true := by
            unfold State.crowds
            obtain ⟨op, n, x⟩ := ins
            obtain rfl : op = .call := hop
            rw [ht] at hentry hfull
            simp only [hins, show w.state.heap.entry? _ = _ from hentry, Option.any_some, hsome,
              Bool.true_and, decide_eq_true_eq]
            exact hfull
          have hwords : (t.framed t.machine.place).machine.slots
              = t.machine.place.words.reverse ++ slotsOf (f :: fs) base := by
            rw [slots_framed, hslots]
          have hrest := h.pending hhalts (s := t.framed t.machine.place) hknown hwords
          rw [← hcode, ← hfp, List.map_cons] at hrest
          have hne : f.code ≠ t.known.halt := by
            rw [hknown]
            exact h.exists_place.1.ne_halt hhalts
          have hends := State.Pending.framed (r := t.machine.place) hrest hne hfits
          have hlower : (t.framed t.machine.place).machine.slots
              = (t.machine.place.words.reverse ++ f.slots) ++ slotsOf fs base := by
            rw [hwords, slotsOf_cons, Frame.slots]
            simp only [List.append_assoc]
          refine ⟨[f.code, f.code], h.backtraced hhalts hlower ?_ ?_⟩
          · rw [hcrowds, hframe]
            exact List.prefix_rfl
          · rw [show (t.framed t.machine.place).machine.code = f.code from hcode.trans hframe]
            exact hends

/-- A tail call that fails although what it calls takes the call: the frame that it gives up is gone,
or what is there of the new one is listed in its place. -/
theorem Poised.ends_tailCall {i : Nat} {site : Site} (h : Poised w base f fs i site)
    (hhalts : w.Halts) (hn : site.instr.modifier ≤ site.shape.ops.length)
    (henters : w.heap.enters w.state.machine.val site.instr.modifier = true)
    (hbalked : Balked (w.state.slid (slotsOf fs base).length site.instr.modifier)
      w.state.machine.val site.instr.modifier f.back s') :
    ∃ own u, own <+: [w.state.machine.code] ∧ s'.machine.slots = u ++ slotsOf fs base ∧
      s'.Pending s'.machine.code s'.machine.fp (own ++ fs.map Frame.code) := by
  have hslid := h.slots_slid hn
  have hroom := h.size_slid hn
  have hcode : w.state.machine.code = .ref .bytecode f.cell := h.frame.code
  have hne : f.code ≠ w.state.known.halt := h.frame.ne_halt hhalts
  cases hbalked with
  | turnedDown hno => exact absurd (henters.symm.trans hno) (by decide)
  | @builtIn _ native _ hknown hmachine =>
      have hslots : s'.machine.slots = f.ops.take site.instr.modifier ++ slotsOf fs base := by
        rw [hmachine]
        exact hslid
      have hends := h.chained.pending hhalts hknown hslots
      refine ⟨[], _, List.nil_prefix, hslots, ?_⟩
      rw [hmachine]
      exact hends
  | crowded _ _ hstranded =>
      cases hstranded with
      | @saving words _ hlt hfull =>
          have hle : w.state.machine.limit
              ≤ (w.state.machine.slide (slotsOf fs base).length site.instr.modifier).stack.size
                + words.length := hfull
          omega
      | entered _ _ =>
          have hslots : ((w.state.slid (slotsOf fs base).length site.instr.modifier).framed
              f.back).machine.slots
                = (f.back.words.reverse ++ f.ops.take site.instr.modifier) ++ slotsOf fs base := by
            rw [slots_framed, List.append_assoc]
            exact congrArg _ hslid
          have hrest := h.chained.pending hhalts (s := (w.state.slid _ _).framed f.back) rfl hslots
          have hends := State.Pending.framed hrest hne h.frame.fits.2
          have hframed : ((w.state.slid (slotsOf fs base).length site.instr.modifier).framed
              f.back).machine.code = f.code := hcode
          refine ⟨[f.code], _, ?_, hslots, ?_⟩
          · rw [hcode]
            exact List.prefix_rfl
          · rw [hframed]
            exact hends

/-- Whatever instruction fails, the listing is of the procedures that await a return, unless it is
a tail call that does not go through. -/
theorem Stands.exists_backtraced (mode : Mode) (h : Stands w base (f :: fs)) (hhalts : w.Halts)
    (ha : Addressable w) (hd : d ≤ w.state.roots.size) (htame : w.state.permits mode.pairs = true)
    (hover : w.state.overwrites = false) (hstep : step w.state = .error (.error cause) s') :
    ∃ own, w.state.Backtraced s' own (fs.map Frame.code) := by
  have htakes : w.Takes { w.state.machine with pc := w.state.machine.pc + 1 } := { w.takes with }
  obtain ⟨w₁, hm⟩ := htakes.exists_moves
  have hstate : w₁.state = w.state.atPc (w.state.machine.pc + 1) := hm.state
  -- an instruction that is no call leaves the stack and the frame alone
  have hplain {ins : Instr} (hins : w.state.heap.instr? w.state.machine.code w.state.machine.pc = some ins)
      (hcall : ins.op ≠ .call) (htail : ins.op ≠ .tailCall) :
      ∃ own, w.state.Backtraced s' own (fs.map Frame.code) := by
    rw [step_eq hins] at hstep
    obtain ⟨val, rfl⟩ := breaks_execute hcall htail cause s' hstep
    exact ⟨_, h.backtraced_still (u := []) hhalts rfl rfl rfl h.shows.slots⟩
  rcases id h with ⟨val?, hat⟩ | ⟨g, gs, he, hentering⟩
  · obtain ⟨site, hins, hpoised⟩ := hat.poised
    have hp := hpoised w₁ hm
    have htamed := hp.tame_of_permits hm rfl hins htame
    have hd₁ : d ≤ w₁.state.roots.size := by
      rw [hm.state]
      exact hd
    have hval : w₁.state.machine.val = w.state.machine.val := by
      rw [hm.machine]
    by_cases hcall : site.instr.op = .call
    · have hstep' := hstep
      rw [step_eq hins, ← hstate] at hstep'
      have hbalked := hp.breaks_call mode (ha.moved hm rfl) hd₁ hcall (fun hany => htamed (.inl ⟨hcall, hany⟩))
        cause s' hstep'
      rw [hval] at hbalked
      exact h.backtraced_call hhalts hins hcall hstate (hp.fits (ha.moved hm rfl)).2 hbalked
    by_cases htail : site.instr.op = .tailCall
    · have hstep' := hstep
      rw [step_eq hins, ← hstate] at hstep'
      have hbalked := hp.breaks_tailCall mode hd₁ htail (htamed (.inr htail)) cause s' hstep'
      have hn := hp.modifier_le htail
      have henters : w₁.heap.enters w₁.state.machine.val site.instr.modifier = true := by
        rw [hm.heap, hval]
        exact enters_of_not_overwrites hins htail hover
      obtain ⟨own, u, hown, hslots, hends⟩ := hp.ends_tailCall (hhalts.moved hm) hn henters hbalked
      refine ⟨own, h.backtraced hhalts hslots (hown.trans ?_) hends⟩
      rw [hm.machine]
      split <;> simp
    · exact hplain hins hcall htail
  · obtain ⟨rfl, rfl⟩ := List.cons.inj he
    obtain ⟨least, -, hsite⟩ := hentering.exists_least
    have hins := hentering.frame.instr? hsite
    rw [← hentering.pc] at hins
    exact hplain hins nofun nofun

end Listing

/-! ## Frames that are given up in vain -/

section Overwritten

variable {w : System} {d : Nat} {base : Machine} {f : Frame} {fs : List Frame} {s' : State}
  {ins : Instr} {b : Bytecode} {cause : Error}

theorem exists_instr_of_overwrites {s : State} (h : s.overwrites = true) :
    ∃ ins, s.heap.instr? s.machine.code s.machine.pc = some ins ∧ ins.op = .tailCall ∧
      s.heap.enters s.machine.val ins.modifier = false := by
  unfold State.overwrites at h
  split at h
  · rename_i n x hins
    exact ⟨_, hins, rfl, by simpa using h⟩
  · cases h

/-- A walk that finds no saved words where they should be ends there. -/
theorem State.framesFrom_of_getElem?_eq_none {s : State} {code : Value} {fp : Nat} (n : Nat)
    (hcode : code.isBytecode = true) (hne : code ≠ s.known.halt)
    (hnone : s.machine.stack[fp - 1]? = none) :
    s.framesFrom (n + 1) code fp = [s.heap.procName code] := by
  unfold State.framesFrom
  rw [if_neg (by simp [hcode, hne])]
  split
  · rfl
  · rw [hnone]
    cases s.machine.stack[fp - 3]? <;> rfl

/-- Arguments in the place of a frame that do not reach as far as the words that it saved leave
nothing to list but the procedure at work. -/
theorem Poised.backtrace_slid {i : Nat} {site : Site} (h : Poised w base f fs i site)
    (hhalts : w.Halts) (hn : site.instr.modifier ≤ site.shape.ops.length)
    (hb : w.heap.bytecode? w.state.machine.code = some b)
    (hfew : site.instr.modifier < b.arity.slots + 3) :
    (w.state.slid (slotsOf fs base).length site.instr.modifier).backtrace
      = [w.heap.procName w.state.machine.code] := by
  have hcode : w.state.machine.code = f.code := h.frame.code
  have hfp : w.state.machine.fp = f.args.length + (slotsOf fs base).length + 3 := h.frame.fp
  have hargs : f.args.length = b.arity.slots := by
    obtain ⟨b', hb', hargs⟩ := h.full
    rw [hcode, Frame.code, Heap.bytecode?_ref h.frame.pos hb'] at hb
    rw [hargs, Option.some.inj hb]
  have hsize : (w.state.slid (slotsOf fs base).length site.instr.modifier).machine.stack.size
      = site.instr.modifier + (slotsOf fs base).length := by
    have hslots := congrArg List.length (h.slots_slid hn)
    rw [Machine.length_slots, List.length_append, h.length_take hn] at hslots
    exact hslots
  have hnone : (w.state.slid (slotsOf fs base).length site.instr.modifier).machine.stack[
      w.state.machine.fp - 1]? = none := by
    refine Array.getElem?_eq_none ?_
    rw [hsize]
    omega
  have hbytecode : w.state.machine.code.isBytecode = true := by
    rw [hcode]
    rfl
  have hne : w.state.machine.code ≠ w.state.known.halt := by
    rw [hcode]
    exact h.frame.ne_halt hhalts
  have hnative : (w.state.slid (slotsOf fs base).length site.instr.modifier).machine.native = none :=
    h.native
  unfold State.backtrace
  dsimp only
  rw [hnative]
  exact State.framesFrom_of_getElem?_eq_none _ hbytecode hne hnone

/-- A tail call that does not go through leaves nothing to list but the procedure that made it,
unless its arguments reach as far as the words that the frame saved. -/
theorem Stands.backtrace_overwritten (mode : Mode) (h : Stands w base (f :: fs)) (hhalts : w.Halts)
    (hd : d ≤ w.state.roots.size) (htame : w.state.permits mode.pairs = true)
    (hover : w.state.overwrites = true)
    (hins : w.state.heap.instr? w.state.machine.code w.state.machine.pc = some ins)
    (hb : w.heap.bytecode? w.state.machine.code = some b)
    (hfew : ins.modifier < b.arity.slots + 3)
    (hstep : step w.state = .error (.error cause) s') :
    s'.backtrace = [s'.heap.procName w.state.machine.code] := by
  obtain ⟨ins', hins', hop, hno⟩ := exists_instr_of_overwrites hover
  obtain rfl := Option.some.inj (hins.symm.trans hins')
  have htakes : w.Takes { w.state.machine with pc := w.state.machine.pc + 1 } := { w.takes with }
  obtain ⟨w₁, hm⟩ := htakes.exists_moves
  rcases h with ⟨val?, hat⟩ | ⟨g, gs, he, hentering⟩
  · obtain ⟨site, hsite, hpoised⟩ := hat.poised
    obtain rfl := Option.some.inj (hsite.symm.trans hins)
    have hp := hpoised w₁ hm
    have htamed := hp.tame_of_permits hm rfl hins htame (.inr hop)
    rw [step_eq hins, show w.state.atPc _ = w₁.state from hm.state.symm] at hstep
    have hd₁ : d ≤ w₁.state.roots.size := by
      rw [hm.state]
      exact hd
    have hno₁ : w₁.heap.enters w₁.state.machine.val site.instr.modifier = false := by
      rw [hm.heap, hm.machine]
      exact hno
    have hb₁ : w₁.heap.bytecode? w₁.state.machine.code = some b := by
      rw [hm.heap, hm.machine]
      exact hb
    have hlost := hp.backtrace_slid (hhalts.moved hm) (hp.modifier_le hop) hb₁ hfew
    rw [hm.machine] at hlost
    cases hp.breaks_tailCall mode hd₁ hop htamed cause s' hstep with
    | turnedDown => exact hlost
    | crowded _ hyes => exact absurd (hno₁.symm.trans hyes) (by decide)
    | builtIn hyes => exact absurd (hno₁.symm.trans hyes) (by decide)
  · -- a frame that is being entered collects its arguments first
    obtain ⟨rfl, rfl⟩ := List.cons.inj he
    obtain ⟨least, -, hsite⟩ := hentering.exists_least
    have hvarargs := hentering.frame.instr? hsite
    rw [← hentering.pc] at hvarargs
    obtain rfl := Option.some.inj (hvarargs.symm.trans hins)
    cases hop

end Overwritten

/-! ## A call of a number -/

/-- In a run of a call within another one the call of a number fails.  What is listed before is
listed after, unless it is in the place of its procedure. -/
theorem exists_run_calls (tail : Bool) :
    ∃ (o : System) (procedure : Value) (args : Array Value) (s : State) (ss : List State)
      (cause : Error) (s' : State), Launch false o procedure args ∧
        Run procedure args o.state (s :: ss) ∧ (∀ u ∈ s :: ss, u.permits false = true) ∧
        step s = .error (.error cause) s' ∧ s.overwrites = tail ∧
        s.backtrace = ["inner", "outer"] ∧
        s'.backtrace = if tail then ["inner"] else ["inner", "outer"] := by
  let lists (s : State) (_ : List State) : Bool :=
    match step s with
    | .error (.error _) s' => s.overwrites == tail && s.backtrace == ["inner", "outer"] &&
        s'.backtrace == if tail then ["inner"] else ["inner", "outer"]
    | _ => false
  obtain ⟨o, procedure, args, s, ss, hlaunch, hrun, htame, hlists⟩ :=
    exists_run_loadCalls tail 3 lists (by cases tail <;> decide +kernel)
  simp only [lists] at hlists
  split at hlists
  · rename_i cause s' hstep
    simp only [Bool.and_eq_true, beq_iff_eq] at hlists
    obtain ⟨⟨hover, hbefore⟩, hafter⟩ := hlists
    exact ⟨o, procedure, args, s, ss, cause, s', hlaunch, hrun, htame, hstep, hover, hbefore, hafter⟩
  · cases hlists

/-! ## Runs -/

section Runs

variable {o : System} {procedure : Value} {args : Array Value} {s s' : State} {ss : List State}
  {ins : Instr} {b : Bytecode} {cause : Error}

/-- Every state of a run in which an instruction fails stands on a pile of frames, one at least. -/
theorem Run.exists_failing_stands (h : Run procedure args o.state (s :: ss))
    (hl : Launch false o procedure args) (htame : ∀ u ∈ s :: ss, u.permits false = true)
    (hstep : step s = .error (.error cause) s') :
    ∃ w f fs, w.state = s ∧ Stands w o.launched.state.machine (f :: fs) ∧ w.Halts ∧
      Addressable w := by
  obtain ⟨w, pile, rfl, hstands, hhalts, ha, -⟩ := h.exists_stands hl (Nat.zero_le _) fun u hu =>
    htame u (List.mem_cons_of_mem _ hu)
  cases pile with
  | cons f fs => exact ⟨w, f, fs, rfl, hstands, hhalts, ha⟩
  | nil =>
      -- the code that every run returns into does not fail
      obtain ⟨ins, hins⟩ := exists_instr fun _ h => nomatch hstep.symm.trans h
      rcases hstands.exists_site hhalts hins with ⟨-, hop⟩ | ⟨_, _, _, he, -⟩
      · rw [step_eq hins] at hstep
        unfold execute at hstep
        simp only [hop] at hstep
        cases hstep
      · cases he

/-- Before the instruction that fails, the listing is of the procedure at work and of those that
await a return. -/
theorem Run.exists_callers (h : Run procedure args o.state (s :: ss))
    (hl : Launch false o procedure args) (htame : ∀ u ∈ s :: ss, u.permits false = true)
    (hstep : step s = .error (.error cause) s') :
    ∃ callers, s.Pending s.machine.code s.machine.fp (s.machine.code :: callers) ∧
      s.backtrace = (s.machine.code :: callers).map s.heap.procName := by
  obtain ⟨w, f, fs, rfl, hstands, hhalts, -⟩ := h.exists_failing_stands hl htame hstep
  have hawaits := hstands.awaits hhalts
  have hlength : (w.state.machine.code :: fs.map Frame.code).length
      ≤ w.state.machine.stack.size + 2 := by
    have hle := hstands.length_le
    rw [List.length_cons] at hle
    rw [List.length_cons, List.length_map]
    omega
  have hlisted := hawaits.backtrace hlength
  rw [hstands.native] at hlisted
  exact ⟨_, hawaits, hlisted⟩

/-- As long as compiled code alone joins code to copies, a listing after a failure is of the
procedures that await a return, and before them of the one at work and the built-in one that it
called; but for tail calls that do not go through. -/
theorem Run.lists_callers (h : Run procedure args o.state (s :: ss))
    (hl : Launch false o procedure args) (htame : ∀ u ∈ s :: ss, u.permits false = true)
    (hkept : s.overwrites = false) (hstep : step s = .error (.error cause) s') :
    ∃ own callers, s.Backtraced s' own callers := by
  obtain ⟨w, f, fs, rfl, hstands, hhalts, ha⟩ := h.exists_failing_stands hl htame hstep
  let m : Mode := { machine := false, pairs := false }
  obtain ⟨own, hown⟩ := hstands.exists_backtraced m hhalts ha (Nat.zero_le _)
    (htame w.state List.mem_cons_self) hkept hstep
  exact ⟨own, _, hown⟩

/-- The procedure that calls a number is listed, and the one that waits for it. -/
theorem Run.lists_callers_nested :
    ∃ (o : System) (procedure : Value) (args : Array Value) (s : State) (ss : List State)
      (s' : State), Run procedure args o.state (s :: ss) ∧ s'.backtrace = ["inner", "outer"] ∧
        ∃ own callers, s.Backtraced s' own callers := by
  obtain ⟨o, procedure, args, s, ss, cause, s', hl, h, htame, hstep, hover, -, hafter⟩ :=
    exists_run_calls false
  exact ⟨o, procedure, args, s, ss, s', h, hafter, h.lists_callers hl htame hover hstep⟩

/-- After a tail call that does not go through, the procedures that await a return are not listed,
unless its arguments reach as far as the words that the frame saved. -/
theorem Run.backtrace_overwritten (h : Run procedure args o.state (s :: ss))
    (hl : Launch false o procedure args) (htame : ∀ u ∈ s :: ss, u.permits false = true)
    (hover : s.overwrites = true) (hins : s.heap.instr? s.machine.code s.machine.pc = some ins)
    (hb : s.heap.bytecode? s.machine.code = some b) (hfew : ins.modifier < b.arity.slots + 3)
    (hstep : step s = .error (.error cause) s') :
    s'.backtrace = [s'.heap.procName s.machine.code] := by
  obtain ⟨w, f, fs, rfl, hstands, hhalts, -⟩ := h.exists_failing_stands hl htame hstep
  let m : Mode := { machine := false, pairs := false }
  exact hstands.backtrace_overwritten m hhalts (Nat.zero_le _) (htame _ List.mem_cons_self) hover
    hins hb hfew hstep

/-- Where the call of the number is in the place of its procedure, the one that waits is not
listed. -/
theorem Run.loses_callers :
    ∃ (o : System) (procedure : Value) (args : Array Value) (s : State) (ss : List State)
      (cause : Error) (s' : State) (callers : List Value), Launch false o procedure args ∧
        Run procedure args o.state (s :: ss) ∧ (∀ u ∈ s :: ss, u.permits false = true) ∧
        step s = .error (.error cause) s' ∧
        s.Pending s.machine.code s.machine.fp (s.machine.code :: callers) ∧
        ∀ own, s'.backtrace ≠ (own ++ callers).map s.heap.procName := by
  obtain ⟨o, procedure, args, s, ss, cause, s', hl, h, htame, hstep, -, hbefore, hafter⟩ :=
    exists_run_calls true
  obtain ⟨callers, hawaits, hlisted⟩ := h.exists_callers hl htame hstep
  refine ⟨o, procedure, args, s, ss, cause, s', callers, hl, h, htame, hstep, hawaits, ?_⟩
  have hcallers : callers.map s.heap.procName = ["outer"] := by
    rw [hbefore, List.map_cons] at hlisted
    exact (List.cons.inj hlisted).2.symm
  intro own hown
  have hlast := congrArg List.getLast? hown
  rw [hafter, List.map_append, hcallers] at hlast
  simp at hlast

end Runs

/-! ## Reports -/

section Reports

variable {procedure : Value} {args : Array Value} {s s' : State} {cause : Error}

theorem State.framesFrom_setRunning (running : Bool) (n : Nat) (code : Value) (fp : Nat) :
    (s.setRunning running).framesFrom n code fp = s.framesFrom n code fp := by
  induction n generalizing code fp with
  | zero => rfl
  | succ n ih =>
      unfold State.framesFrom
      simp only [ih]
      rfl

/-- Of a run that has failed the listing at that moment is kept. -/
theorem invoke_reports (hidle : s.machine.running = false)
    (h : invoke procedure args s = .error (.error (.aborted cause)) s') :
    ∃ ss t, Fails procedure args s cause ss t ∧ s'.failure = some (t.report cause) := by
  rcases invoke_idle procedure args hidle with
    ⟨t, -, hok⟩ | ⟨cause', t, world, hbody, herror⟩ | ⟨cause', t, -, hfatal⟩
  · rw [hok] at h
    cases h
  · obtain ⟨ss, hfails⟩ := exists_failed hbody
    have hreport : (t.setRunning false).report cause' = t.report cause' := by
      simp only [State.report, State.backtrace, State.framesFrom_setRunning]
      rfl
    rw [herror, hreport] at h
    cases h
    exact ⟨ss, t, hfails, rfl⟩
  · rw [hfatal] at h
    cases h

end Reports

end CellLisp
