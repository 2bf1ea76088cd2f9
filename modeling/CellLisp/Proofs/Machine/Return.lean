import CellLisp.Proofs.Machine.Ending

/-!
# `CellLisp.Proofs.Machine.Return` — back from a run

A call from outside the machine leaves it as it has been, whether it returns or fails: on what was
there before it, with the same registers (`yields_invoke`).  What lasts is as it was, and so is the
global value of each symbol that the run has set nowhere but under bindings of its own.
-/

namespace CellLisp

section Back

variable {m : Mode} {d : Nat} {o w w' : System} {procedure : Value} {args : Array Value}

/-- Nothing has happened yet. -/
theorem Based.refl (w : System) : Based m d w w :=
  ⟨List.suffix_rfl, List.suffix_rfl, [], rfl, fun _ _ => rfl⟩

/-- What lasts is the same when the machine is at rest again, and the symbols that are to stay have
the values they had. -/
theorem Stable.settle (hs : Stable m.loose d o w) (hm : m.machine = false)
    (hrests : m.rests = true → o.state.machine.Rests w.state.machine)
    (hvalues : ∀ i, Constant m d o i → w.heap.valueAt i = o.heap.valueAt i) : Stable m d o w := by
  have hanchored {v : Value} (hv : Anchored m d o.state v) : Anchored m.loose d o.state v := by
    obtain ⟨u, hu, hl⟩ := hv
    refine ⟨u, ?_, hl⟩
    rw [State.base, hm] at hu
    exact hu
  refine
    { known := hs.known
      config := hs.config
      bound := hs.bound
      size := hs.size
      limit := hs.limit
      machine := fun h => absurd (hm.symm.trans h) Bool.false_ne_true
      rests := hrests
      depth := hs.depth
      anchored := fun pairs machine h => hs.anchored pairs machine fun he =>
        absurd (hm.symm.trans (h he)) Bool.false_ne_true
      same := fun v i hv hi => ?_
      along := fun u hu => hs.along u (hanchored hu)
      sound := hs.sound
      below := hs.below }
  have hsame := hs.same v i (hanchored hv) hi
  obtain ⟨tag, rfl, hpos⟩ := Value.cell?_eq_some_iff.1 hi
  unfold SameCell at hsame ⊢
  cases hc : o.heap.cell i with
  | symbol s =>
      simp only [hc] at hsame ⊢
      obtain ⟨s', hcell, hnext, -⟩ := hsame
      refine ⟨s', hcell, hnext, fun hfixed => ?_⟩
      have htag := ((hanchored hv).holds tag i rfl hpos).2
      rw [hc] at htag
      obtain rfl : tag = .symbol := htag.symm
      have hvalue := hvalues i ⟨hfixed, hpos, hanchored hv⟩
      unfold Heap.valueAt at hvalue
      simpa only [hc, hcell] using hvalue
  | cont k =>
      simp only [hc] at hsame ⊢
      obtain ⟨exited, hcell, -⟩ := hsame
      exact ⟨exited, hcell, fun h => absurd (hm.symm.trans h) Bool.false_ne_true⟩
  | free | pair | bytecode | native | closure | array | string | stringStream | fileStream =>
      simp only [hc] at hsame ⊢
      exact hsame

/-- After a failure the machine goes back to where the run began. -/
theorem leads_abortTo (hb : Based m d o w) (hcode : w.heap.Holds o.state.machine.code) :
    Leads (Ran m d o) (abortTo o.state.machine.checkpoint) w fun _ w' =>
      w'.state.machine = { o.state.machine with
        val := .nil, argc := w.state.machine.argc, running := w.state.machine.running
        native := none, limit := w.state.machine.limit } := by
  obtain ⟨bs, hbindings, -⟩ := hb.bindings
  obtain ⟨vs, hescapes⟩ := hb.escapes
  obtain ⟨us, hslots⟩ := hb.slots
  have hdyns : o.state.machine.checkpoint.dynDepth = o.state.machine.bindings.length :=
    (Machine.length_bindings _).symm
  have hconts : o.state.machine.checkpoint.conts = o.state.machine.escapes.length :=
    (Machine.length_escapes _).symm
  have hsp : o.state.machine.checkpoint.sp = o.state.machine.slots.length :=
    (Machine.length_slots _).symm
  unfold abortTo
  rw [hdyns, hconts, hsp]
  refine Leads.bind (leads_unwind hbindings List.suffix_rfl) ?_
  rintro _ w₁ - ⟨h₁, hm₁⟩
  have hescapes₁ : w₁.state.machine.escapes = vs ++ o.state.machine.escapes := by
    rw [hm₁]
    exact hescapes.symm
  refine Leads.bind (leads_dropConts hescapes₁ (by rw [hm₁]; exact hb.slots) List.suffix_rfl) ?_
  rintro _ w₂ - ⟨h₂, hm₂⟩
  rw [hm₁] at hm₂
  have hslots₂ : w₂.state.machine.slots = us ++ o.state.machine.slots := by
    rw [hm₂]
    exact hslots.symm
  have hlower := Machine.slots_truncate hslots₂
  refine Leads.bind ((leads_move rfl
    { w₂.takes with
      val := holds_nil _
      code := SameCell.holds (fun j _ => (h₁.trans h₂).same j) hcode
      native := by rintro p ⟨⟩
      slots := fun v hv => w₂.takes.slots v ?_ } ⟨?_, ?_⟩).weaken fun _ => Calm.toRan) ?_
  · change v ∈ (w₂.state.machine.truncate _).slots at hv
    rw [hlower] at hv
    rw [hslots₂]
    exact List.mem_append_right _ hv
  · exact ⟨[], hlower.symm⟩
  · have hescapes₂ : w₂.state.machine.escapes = o.state.machine.escapes := by
      rw [hm₂, escapes_left]
    exact ⟨[], hescapes₂.symm⟩
  rintro _ w₃ - hm₃
  have hlog : Leads (Calm m d o) (logLine .debug ("aborted to depth "
      ++ toString o.state.machine.slots.length)) w₃ _ := (leads_logLine w₃ _ _).stable.rigid
  refine (hlog.weaken fun _ => Calm.toRan).mono ?_
  rintro _ w₄ - ⟨hs, -, -⟩
  have hstack : (w₂.state.machine.truncate o.state.machine.slots.length).stack
      = o.state.machine.stack := Array.toList_inj.1 (List.reverse_injective hlower)
  rw [hs.machine rfl, hm₃.machine, Machine.resume, hstack, hm₂]
  simp [Machine.truncate, Machine.left, Machine.unwound, Machine.bindings, Machine.escapes,
    Machine.checkpoint]

/-- At rest again, the machine and what lasts are as they were. -/
theorem Stable.rested (hran : Ran m d o.launched o.launched w) (hm : m.machine = false)
    (hrests : o.state.machine.Rests w.state.machine) : Stable m d o w := by
  have hlaunched : Stable m.loose d o o.launched := System.stable_withMachine _ rfl rfl
  refine (Follows.trans hlaunched hran.stable).settle hm (fun _ => hrests) fun i hi => ?_
  obtain ⟨bs, hbs, hvalues⟩ := (hran.based (Follows.refl _) (.refl _)).bindings
  have hdyns : w.state.machine.bindings = o.state.machine.bindings := by
    obtain ⟨_, _, hmachine⟩ := hrests
    rw [hmachine]
    rfl
  obtain rfl : bs = [] := by
    have hlength := congrArg List.length (hdyns.symm.trans hbs)
    rw [List.length_append] at hlength
    exact List.eq_nil_of_length_eq_zero (Nat.left_eq_add.1 (by rw [Nat.add_comm]; exact hlength))
  exact hvalues i ⟨hi.fixed, hi.pos, hlaunched.anchors hi.anchored⟩

/-- A run that has failed can go back. -/
theorem Fails.exists_ran {cause : Error} {ss : List State} {s : State}
    (h : Fails procedure args o.state cause ss s) (hl : Launch m.pairs o procedure args)
    (hg : Ground m d o.launched) (hpermits : ∀ u ∈ ss, u.Permits m o.launched.state.machine) :
    ∃ w, w.state = s ∧ Ran m d o.launched o.launched w := by
  cases h with
  | early hbegin =>
      have hleads := leads_beginRun (m := m) (d := d) hl hg
      unfold Leads at hleads
      rw [show beginRun procedure args o.launched.state = _ from hbegin] at hleads
      obtain ⟨w, rfl, hcalm⟩ := hleads
      exact ⟨w, rfl, hcalm.toRan⟩
  | late hrun hstep =>
      obtain ⟨w, pile, rfl, hunder⟩ := hrun.underway hl hg fun u hu =>
        hpermits u (List.mem_cons_of_mem _ hu)
      obtain ⟨ins, w', -, rfl, hstepped⟩ := hunder.fails hg (hpermits _ List.mem_cons_self) hstep
      exact ⟨w', rfl, Follows.trans hunder.ran hstepped.toRan⟩

/-- A call from outside the machine leaves it at rest, with what lasts as it was. -/
theorem yields_invoke (hl : Launch m.pairs o procedure args) (hm : m.machine = false)
    (ht : m.target = none) (hd : d ≤ o.state.roots.size) (hcode : o.state.machine.code = .nil)
    (hpermits : ∀ ss, Run procedure args o.state ss →
      ∀ u ∈ ss, u.Permits m o.launched.state.machine) :
    Yields m d (invoke procedure args) o := by
  have hg : Ground m d o.launched := hl.ground ht hd
  have hheld (w : System) : w.heap.Holds o.state.machine.code := by
    rw [hcode]
    exact holds_nil _
  unfold Yields Leads
  rcases invoke_idle procedure args hl.idle.running with
    ⟨t, hbody, hinvoke⟩ | ⟨cause, t, world, hbody, hinvoke⟩ | ⟨cause, t, -, hinvoke⟩
  · rw [hinvoke]
    obtain ⟨u, us, hrun, hstep⟩ := exists_last hbody
    obtain ⟨w, pile, rfl, hunder⟩ := hrun.underway hl hg fun v hv =>
      hpermits _ hrun v (List.mem_cons_of_mem _ hv)
    obtain ⟨w', rfl, hran, hended⟩ := hunder.ends hg (hpermits _ hrun _ List.mem_cons_self) hstep
    have hstack : w'.state.machine.stack = o.state.machine.stack :=
      Array.toList_inj.1 (List.reverse_injective hended.shows.slots)
    have hconts : w'.state.machine.conts = o.state.machine.conts :=
      Array.toList_inj.1 (List.reverse_injective hended.shows.escapes)
    have hdyns : w'.state.machine.dyns = o.state.machine.dyns :=
      Array.toList_inj.1 (List.reverse_injective hended.shows.bindings)
    have hlimit : w'.state.machine.limit = o.state.machine.limit := hran.stable.bound
    have hmachine : ((w'.state.setRunning false).returned o.state.machine.checkpoint).machine
        = { o.state.machine with
          val := w'.state.machine.val, argc := w'.state.machine.argc } := by
      simp [State.returned, State.setRunning, Machine.truncate, Machine.resume, Machine.checkpoint,
        hstack, hconts, hdyns, hlimit, hended.native, hl.idle.native, hl.idle.running]
    have htakes : w'.Takes ((w'.state.setRunning false).returned o.state.machine.checkpoint).machine := by
      rw [hmachine]
      exact
        { w'.takes with
          code := hheld w'
          native := by
            rw [hl.idle.native]
            rintro p ⟨⟩
          slots := fun v hv => w'.takes.slots v (by rw [Machine.slots, hstack]; exact hv)
          dyns := hdyns.symm
          conts := hconts.symm
          limit := hlimit.symm }
    have hback : Ran m d o.launched w' (w'.withMachine _ htakes.admits) :=
      .of_machine htakes.admits ⟨by rw [hmachine]; exact List.suffix_rfl,
        by rw [hmachine]; exact List.suffix_rfl⟩ htakes.dyns
    exact ⟨w'.withMachine _ htakes.admits, rfl, .rested (Follows.trans hran hback) hm
      ⟨_, _, hmachine⟩, hended.value.holds, hended.value.proper⟩
  · rw [hinvoke]
    obtain ⟨ss, hfails⟩ := exists_failed hbody
    obtain ⟨w, rfl, hran⟩ := hfails.exists_ran hl hg fun u hu => by
      cases hfails with
      | early _ => cases hu
      | late hrun _ => exact hpermits _ hrun u hu
    have hbased : Based m d o.launched w := hran.based (Follows.refl _) (.refl _)
    -- the machine is marked as idle, and the failure is noted
    have hstop : w.Takes { w.state.machine with running := false } := { w.takes with }
    have hstopped : Ran m d o.launched w (w.withMachine _ hstop.admits) :=
      .of_machine hstop.admits ⟨hbased.slots, hbased.escapes⟩ rfl
    have hnote : (w.withMachine _ hstop.admits).state.Quiet
        { w.state.setRunning false with failure := some ((w.state.setRunning false).report cause) } :=
      ⟨rfl, rfl, rfl, rfl, rfl, rfl⟩
    have hnoted := Follows.trans (Follows.trans hran hstopped)
      (.of_rigid (System.grown_quieted hnote []).stable)
    -- what it has left behind is undone
    obtain ⟨world', habort⟩ := abortTo_eq o.state.machine.checkpoint
      ((w.withMachine _ hstop.admits).quieted hnote).state
    obtain ⟨w₂, hw₂, hback, hmachine⟩ := (leads_abortTo (hnoted.based (Follows.refl _) (.refl _))
      (hheld _)).of_ok habort
    have hworld : w₂.state.Quiet { (w.state.setRunning false).aborted o.state.machine.checkpoint with
        world, failure := some ((w.state.setRunning false).report cause) } := by
      rw [hw₂]
      exact ⟨rfl, rfl, rfl, rfl, rfl, rfl⟩
    refine ⟨w₂.quieted hworld, rfl, .rested (Follows.trans (Follows.trans hnoted hback)
      (.of_rigid (System.grown_quieted hworld []).stable)) hm
      ⟨.nil, w.state.machine.argc, (hworld.machine.trans hmachine).trans ?_⟩⟩
    have hlimit : w.state.machine.limit = o.state.machine.limit := hran.stable.bound
    change { o.state.machine with
      val := .nil, argc := w.state.machine.argc, running := false, native := none
      limit := w.state.machine.limit } = _
    rw [hlimit, ← hl.idle.running, ← hl.idle.native]
  · rw [hinvoke]
    trivial

end Back

end CellLisp
