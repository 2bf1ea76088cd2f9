import CellLisp.Proofs.Machine.Step

/-!
# `CellLisp.Proofs.Machine.Run` — whole runs

A run begins with its arguments on the stack and a call of its procedure, and goes on one
instruction after the other (`Run`).  As long as no instruction calls what programs may not call,
the machine stands on a pile of frames all the time (`Run.underway`), on top of what was there
before.

| | |
| :-- | :-- |
| `System.Idle` | no run is under way, and none has left anything behind |
| `Launch` | what a run takes for granted |
| `Underway` | the machine stands on a pile of frames, and can go back to where the run began |
| `Run` | the states that a run has gone through |
-/

namespace CellLisp

/-! ## How many dynamic bindings -/

section Bindings

variable {w : System} {base : Machine} {fs : List Frame} {f : Frame} {r : Return}
  {val? : Option Kind}

/-- There is code for each dynamic binding of a frame. -/
theorem FrameOk.length_dyns_le (h : FrameOk w base fs r f) :
    f.dyns.length ≤ w.heap.arena.limit / 4 := by
  obtain ⟨s, hs, hforget, -⟩ := h.at_site
  obtain ⟨-, b, hb⟩ := h.exists_bytecode
  have hextent := (Proc.extent (h.fitting hb).body _ s hs).2.1
  have hdyns : s.shape.dyns = f.shape.dyns := (Shape.mk.inj hforget).2.2.2
  have hlt := (List.getElem?_eq_some_iff.1 hs).1
  have hroom := h.length_sites_le
  have hlen := h.dyns
  omega

theorem Chained.length_dyns_le (h : Chained w base fs r val?) :
    (fs.flatMap Frame.dyns).length ≤ fs.length * (w.heap.arena.limit / 4) := by
  induction fs generalizing r val? with
  | nil => exact Nat.zero_le _
  | cons f fs ih =>
      have hf := h.1.length_dyns_le
      have hfs := ih h.2.2.2
      rw [List.flatMap_cons, List.length_append, List.length_cons, Nat.succ_mul]
      omega

/-- Each frame has its saved words on the stack. -/
theorem three_mul_length_le (fs : List Frame) (base : Machine) :
    3 * fs.length ≤ (slotsOf fs base).length := by
  induction fs with
  | nil => exact Nat.zero_le _
  | cons f fs ih =>
      simp only [slotsOf_cons, Frame.below, Frame.saved, List.length_append, List.length_cons,
        List.length_nil]
      omega

theorem Stands.shows (h : Stands w base fs) : Shows w.state.machine fs base := by
  rcases h with ⟨_, h⟩ | ⟨f, fs, rfl, h⟩
  · exact h.shows
  · exact h.shows

theorem Stands.length_dyns_le (h : Stands w base fs) :
    (fs.flatMap Frame.dyns).length ≤ fs.length * (w.heap.arena.limit / 4) := by
  rcases h with ⟨_, h⟩ | ⟨f, fs, rfl, h⟩
  · exact h.chained.length_dyns_le
  · have hf := h.frame.length_dyns_le
    have hfs := h.chained.length_dyns_le
    rw [List.flatMap_cons, List.length_append, List.length_cons, Nat.succ_mul]
    omega

/-- The dynamic bindings in force are few enough to be counted in 32 bits. -/
theorem Stands.size_dyns_lt (h : Stands w base fs) (ha : Addressable w) (hbase : base.dyns = #[]) :
    w.state.machine.dyns.size < 2 ^ 32 := by
  have hdyns := h.length_dyns_le
  have hslots := three_mul_length_le fs base
  have hroom := h.shows.room
  have hsize := congrArg List.length h.shows.slots
  have hbindings := congrArg List.length h.shows.bindings
  rw [Machine.length_slots] at hsize
  rw [Machine.length_bindings, bindingsOf, List.length_append, Machine.length_bindings, hbase] at hbindings
  have hle : fs.length * (w.heap.arena.limit / 4)
      ≤ w.state.machine.limit / 3 * (w.heap.arena.limit / 4) :=
    Nat.mul_le_mul_right _ (by omega)
  have := ha.bindings
  simp only [List.size_toArray, List.length_nil] at hbindings
  omega

end Bindings

/-! ## Under way -/

/-- No run is under way, and none has left a continuation or a dynamic binding behind. -/
structure Machine.Idle (m : Machine) : Prop where
  running : m.running = false
  native : m.native = none
  conts : m.conts = #[]
  dyns : m.dyns = #[]
  room : m.stack.size ≤ m.limit
  fp : m.fp < 2 ^ 59

/-- What a run stands on from its beginning to its end. -/
structure Ground (m : Mode) (d : Nat) (o : System) : Prop where
  target : m.target = none
  halts : o.Halts
  addressable : Addressable o
  depth : d ≤ o.state.roots.size
  conts : o.state.machine.conts = #[]
  dyns : o.state.machine.dyns = #[]

/-- A run that began on `o` is under way, with a pile of frames. -/
structure Underway (m : Mode) (d : Nat) (o w : System) (pile : List Frame) : Prop where
  ran : Ran m d o o w
  stands : Stands w o.state.machine pile

section Underway

variable {m : Mode} {d : Nat} {o w w' : System} {pile : List Frame} {ins : Instr} {s : State}

theorem Ground.escapes (hg : Ground m d o) : o.state.machine.escapes = [] := by
  rw [Machine.escapes, hg.conts]
  rfl

/-- There is code to return into as long as it is not emitted to. -/
theorem System.Halts.spared (h : o.Halts) (hs : Stable m d o w) (hw : o.Spares m.target) :
    w.Halts := by
  obtain ⟨i, site, sites, hhalt, hi, hplan⟩ := h
  refine ⟨i, site, sites, hs.known ▸ hhalt, hi, ?_⟩
  obtain ⟨b, hb⟩ := Cell.exists_of_tag_bytecode (o.typed.roots _
    (State.mem_rootValues_iff.2 (.inr (.inr (.inl rfl)))) _ _ hhalt hi).2
  have hsame := hs.same o.state.known.halt i (anchored_of_mem (by simp [State.base]))
    (Value.cell?_eq_some_iff.2 ⟨_, hhalt, hi⟩)
  unfold SameCell at hsame
  simp only [show o.heap.cell i = _ from hb] at hsame
  exact hsame.2.2 _ hplan fun ht => hw i ht hhalt

theorem System.Halts.stable (h : o.Halts) (hs : Stable m.loose d o w) (ht : m.target = none) :
    w.Halts :=
  h.spared hs fun _ he => absurd (ht.symm.trans he) (Option.some_ne_none _).symm

theorem Addressable.stable (h : Addressable o) (hs : Stable m d o w) : Addressable w where
  cells := by rw [hs.size]; exact h.cells
  words := by rw [hs.limit]; exact h.words
  slots := by rw [hs.bound]; exact h.slots
  bindings := by rw [hs.bound, hs.limit]; exact h.bindings

/-- The newest frame goes on at a place of its code. -/
theorem Stands.exists_place {base : Machine} {f : Frame} {fs : List Frame}
    (h : Stands w base (f :: fs)) :
    FrameOk w base fs w.state.machine.place f ∧ ∃ site,
      f.proc.sites[w.state.machine.pc]? = some site ∧ site.shape.dyns = f.dyns.length := by
  have hok : FrameOk w base fs w.state.machine.place f := by
    rcases h with ⟨_, h⟩ | ⟨g, gs, he, h⟩
    · exact h.chained.1
    · obtain ⟨rfl, rfl⟩ := List.cons.inj he
      have hok := h.frame
      rwa [← h.pc] at hok
  obtain ⟨site, hs, -, -, hok'⟩ := hok.at_site
  exact ⟨hok, site, hs, hok'.dyns.symm⟩

/-- The instruction that comes next is the one of its place in the code of the newest frame. -/
theorem Stands.exists_site {base : Machine} (h : Stands w base pile) (hhalts : w.Halts)
    (hins : w.heap.instr? w.state.machine.code w.state.machine.pc = some ins) :
    pile = [] ∧ ins.op = .halt ∨ ∃ f fs site, pile = f :: fs ∧
      FrameOk w base fs w.state.machine.place f ∧
        f.proc.sites[w.state.machine.pc]? = some site ∧ site.instr = ins ∧
          site.shape.dyns = f.dyns.length := by
  cases pile with
  | nil =>
      obtain ⟨_, h⟩ := h.resolve_right fun ⟨_, _, he, _⟩ => nomatch he
      obtain ⟨hcode, hpc, -⟩ := h.chained
      obtain ⟨ins', hins', hop⟩ := hhalts.instr?
      rw [show w.state.machine.code = _ from hcode, show w.state.machine.pc = 0 from hpc,
        hins'] at hins
      exact .inl ⟨rfl, Option.some.inj hins ▸ hop⟩
  | cons f fs =>
      obtain ⟨hok, site, hs, hdyns⟩ := h.exists_place
      exact .inr ⟨f, fs, site, rfl, hok, hs, Option.some.inj ((hok.instr? hs).symm.trans hins), hdyns⟩

/-- An instruction leads on, or the run has come to its end. -/
theorem Underway.leads_step (h : Underway m d o w pile) (hg : Ground m d o)
    (hpermits : w.state.Permits m o.state.machine)
    (hins : w.heap.instr? w.state.machine.code w.state.machine.pc = some ins) :
    Leads (Stepped m d o ins) step w fun stop w' =>
      stop = true ∧ pile = [] ∧ Ended w' o.state.machine ∨
        stop = false ∧ ∃ pile', Underway m d o w' pile' ∧
          Advances ins.op w'.state.machine.place pile pile' := by
  have hs := h.ran.stable
  have ha := hg.addressable.stable hs
  refine (h.stands.leads_step hg.target ha (hg.halts.stable hs hg.target) hg.escapes
    (hs.depth d (Nat.le_refl d) hg.depth) (h.stands.size_dyns_lt ha hg.dyns) hpermits hins).mono ?_
  rintro stop w' hstepped (hended | ⟨hstop, pile', hstands, hadvances⟩)
  · exact .inl hended
  · exact .inr ⟨hstop, pile', ⟨Follows.trans h.ran hstepped.toRan, hstands⟩, hadvances⟩

/-- An instruction that does not stop the machine for good is there. -/
theorem exists_instr (h : ∀ s', step s ≠ .error (.fatal .corrupt) s') :
    ∃ ins, s.heap.instr? s.machine.code s.machine.pc = some ins := by
  cases hins : s.heap.instr? s.machine.code s.machine.pc with
  | some ins => exact ⟨ins, rfl⟩
  | none =>
      refine absurd ?_ (h s)
      unfold step
      rw [act_bind, act_gets]
      simp only [hins]
      rfl

/-- The run goes on. -/
theorem Underway.next (h : Underway m d o w pile) (hg : Ground m d o)
    (hpermits : w.state.Permits m o.state.machine) (hstep : step w.state = .ok false s) :
    ∃ ins w' pile', w.heap.instr? w.state.machine.code w.state.machine.pc = some ins ∧
      w'.state = s ∧ Stepped m d o ins w w' ∧ Underway m d o w' pile' ∧
        Advances ins.op w'.state.machine.place pile pile' := by
  obtain ⟨ins, hins⟩ := exists_instr fun _ h => nomatch hstep.symm.trans h
  obtain ⟨w', hs, hstepped, hended | ⟨-, pile', hunder, hadvances⟩⟩ :=
    (h.leads_step hg hpermits hins).of_ok hstep
  · cases hended.1
  · exact ⟨ins, w', pile', hins, hs, hstepped, hunder, hadvances⟩

/-- The run ends. -/
theorem Underway.ends (h : Underway m d o w pile) (hg : Ground m d o)
    (hpermits : w.state.Permits m o.state.machine) (hstep : step w.state = .ok true s) :
    ∃ w', w'.state = s ∧ Ran m d o o w' ∧ Ended w' o.state.machine := by
  obtain ⟨ins, hins⟩ := exists_instr fun _ h => nomatch hstep.symm.trans h
  obtain ⟨w', hs, hstepped, ⟨-, -, hended⟩ | hgoes⟩ :=
    (h.leads_step hg hpermits hins).of_ok hstep
  · exact ⟨w', hs, Follows.trans h.ran hstepped.toRan, hended⟩
  · cases hgoes.1

/-- The run fails. -/
theorem Underway.fails {cause : Error} (h : Underway m d o w pile) (hg : Ground m d o)
    (hpermits : w.state.Permits m o.state.machine) (hstep : step w.state = .error (.error cause) s) :
    ∃ ins w', w.heap.instr? w.state.machine.code w.state.machine.pc = some ins ∧ w'.state = s ∧
      Stepped m d o ins w w' := by
  obtain ⟨ins, hins⟩ := exists_instr fun _ h => nomatch hstep.symm.trans h
  have hleads := h.leads_step hg hpermits hins
  unfold Leads at hleads
  rw [hstep] at hleads
  obtain ⟨w', hs, hstepped⟩ := hleads
  exact ⟨ins, w', hins, hs, hstepped⟩

end Underway

/-! ## Beginning -/

/-- Puts the arguments of a run on the stack and calls its procedure. -/
def beginRun (procedure : Value) (args : Array Value) : Act Unit := do
  args.forM push
  let fp ← gets (·.machine.fp)
  enter procedure args.size ⟨← gets (·.known.halt), 0, fp⟩

theorem runBody_eq (procedure : Value) (args : Array Value) :
    runBody procedure args = (do
      beginRun procedure args
      runSteps (← gets (·.config.stepLimit))) := by
  unfold runBody beginRun
  simp only [bind_assoc]

/-- What a run takes for granted: the machine is idle, there is code to return into, and the
procedure and its arguments are values that programs may hold. -/
structure Launch (pairs : Bool) (o : System) (procedure : Value) (args : Array Value) : Prop where
  idle : o.state.machine.Idle
  halts : o.Halts
  addressable : Addressable o
  good : o.Good procedure
  tame : o.heap.isTame pairs procedure = true
  goodArgs : ∀ v ∈ args, o.Good v

section Beginning

variable {m : Mode} {d : Nat} {o w w' : System} {procedure : Value} {args : Array Value}

theorem System.admits_running (o : System) :
    o.Admits { o.state.machine with running := true } :=
  System.Takes.admits { o.takes with }

/-- The system when a run begins. -/
def System.launched (o : System) : System := o.withMachine _ o.admits_running

theorem System.Good.launched {v : Value} (hv : o.Good v) : o.launched.Good v :=
  ⟨hv.holds, hv.proper⟩

theorem Launch.ground (h : Launch m.pairs o procedure args) (ht : m.target = none)
    (hd : d ≤ o.state.roots.size) : Ground m d o.launched :=
  ⟨ht, h.halts, ⟨h.addressable.cells, h.addressable.words, h.addressable.slots,
    h.addressable.bindings⟩, hd, h.idle.conts, h.idle.dyns⟩

/-- Values are put on the stack. -/
theorem leads_pushAll {vs : List Value} (hvs : ∀ v ∈ vs, w.heap.Holds v)
    (habove : o.state.machine.Above w.state.machine)
    (hroom : w.state.machine.stack.size ≤ w.state.machine.limit) :
    Leads (Calm m d o) (forM vs push) w fun _ w' => ∃ mach, w.Moves w' mach ∧
      mach = { w.state.machine with stack := w.state.machine.stack ++ vs.toArray } ∧
        mach.stack.size ≤ mach.limit := by
  induction vs generalizing w with
  | nil =>
      refine Leads.pure ⟨_, .refl w, ?_, hroom⟩
      simp
  | cons v vs ih =>
      rw [List.forM_cons]
      refine Leads.bind (leads_push (hvs v List.mem_cons_self) habove) ?_
      rintro _ w₁ - ⟨h₁, hlt⟩
      have hroom₁ : w₁.state.machine.stack.size ≤ w₁.state.machine.limit := by
        rw [h₁.machine]
        simpa using Nat.succ_le_of_lt hlt
      refine (ih (fun u hu => h₁.holds (hvs u (List.mem_cons_of_mem _ hu)))
        (h₁.above (habove.push v)) hroom₁).mono ?_
      rintro _ w₂ - ⟨mach, h₂, hmach, hsize⟩
      refine ⟨mach, h₁.trans h₂, ?_, hsize⟩
      rw [hmach, h₁.machine]
      simp

/-- A run begins. -/
theorem leads_beginRun (h : Launch m.pairs o procedure args) (hg : Ground m d o.launched) :
    Leads (Calm m d o.launched) (beginRun procedure args) o.launched fun _ w =>
      ∃ gs, Entered w o.launched.state.machine []
        ⟨o.launched.state.known.halt, 0, o.state.machine.fp⟩ gs := by
  unfold beginRun
  have habove : o.launched.state.machine.Above o.launched.state.machine :=
    ⟨List.suffix_rfl, List.suffix_rfl⟩
  rw [Array.forM_eq_forM, show forM args push = forM args.toList push from
    List.forM_toArray args.toList push]
  refine Leads.bindFrom (leads_pushAll (m := m) (d := d)
    (fun v hv => (h.goodArgs v (Array.mem_toList_iff.1 hv)).holds) habove h.idle.room)
    (fun _ hc => hc) ?_
  rintro _ w₁ hcalm ⟨mach, hm, hmach, hroom⟩
  have hmachine := hm.machine
  refine (Looks.gets (Q := fun n => n = o.state.machine.fp) ?_).andThen hcalm ?_
  · rw [hmachine, hmach]
    rfl
  rintro _ rfl
  refine (Looks.gets (Q := fun v => v = w₁.state.known.halt) rfl).andThen hcalm ?_
  rintro _ rfl
  have hargs : ∀ v ∈ args.toList.reverse, w₁.Good v := fun v hv =>
    hm.good (h.goodArgs v (Array.mem_toList_iff.1 (List.mem_reverse.1 hv))).launched
  have hcall : Calling w₁ o.launched.state.machine args.toList.reverse []
      ⟨w₁.state.known.halt, 0, o.state.machine.fp⟩ := by
    refine ⟨?_, ?_, ?_, ?_, ⟨rfl, rfl, rfl⟩, ?_, ⟨Nat.two_pow_pos 59, h.idle.fp⟩, ?_⟩
    · rw [hmachine, hmach]
      simp [Machine.slots, slotsOf]
    · rw [hmachine, hmach]
      rfl
    · rw [hmachine, hmach]
      rfl
    · rw [hmachine]
      exact hroom
    · exact w₁.typed.roots _ (State.mem_rootValues_iff.2 (.inr (.inr (.inl rfl))))
    · rw [hmachine, hmach]
      exact h.idle.native
  have henter := leads_enter (d := d) hg.target hcall hargs
    (hm.good h.good.launched) (hcalm.stable.depth d (Nat.le_refl d) hg.depth) ?_
  · rw [List.length_reverse, Array.length_toList] at henter
    refine Leads.mono (henter.weaken fun _ hc => Follows.trans hcalm hc) ?_
    rintro _ w' - ⟨gs, hentered⟩
    exact ⟨gs, hm.known ▸ hentered⟩
  · rw [hm.heap]
    exact Heap.isTame_native h.tame

end Beginning

/-! ## Runs -/

/-- The states that a run has gone through between instructions, the newest first. -/
inductive Run (procedure : Value) (args : Array Value) (start : State) : List State → Prop
  | begins {s : State} : beginRun procedure args (start.setRunning true) = .ok () s →
      Run procedure args start [s]
  | goesOn {s s' : State} {ss : List State} : Run procedure args start (s :: ss) →
      step s = .ok false s' → Run procedure args start (s' :: s :: ss)

section Run

variable {m : Mode} {d : Nat} {o w w' : System} {procedure : Value} {args : Array Value}
  {s : State} {ss : List State}

/-- All the time a run stands on a pile of frames. -/
theorem Run.underway (h : Run procedure args o.state (s :: ss))
    (hl : Launch m.pairs o procedure args) (hg : Ground m d o.launched)
    (hpermits : ∀ u ∈ ss, u.Permits m o.launched.state.machine) :
    ∃ w pile, w.state = s ∧ Underway m d o.launched w pile := by
  generalize he : s :: ss = all at h
  induction h generalizing s ss with
  | begins hbegin =>
      obtain ⟨rfl, rfl⟩ := List.cons.inj he
      obtain ⟨w, hw, hcalm, gs, hentered⟩ := (leads_beginRun (m := m) (d := d) hl hg).of_ok hbegin
      exact ⟨w, _, hw, hcalm.toRan, hentered.stands⟩
  | goesOn _ hstep ih =>
      obtain ⟨rfl, rfl⟩ := List.cons.inj he
      obtain ⟨w, pile, rfl, hunder⟩ := ih (fun u hu => hpermits u (List.mem_cons_of_mem _ hu)) rfl
      obtain ⟨-, w', pile', -, hw', -, hunder', -⟩ :=
        hunder.next hg (hpermits _ List.mem_cons_self) hstep
      exact ⟨w', pile', hw', hunder'⟩

end Run

end CellLisp
