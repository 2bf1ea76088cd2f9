import CellLisp.Proofs.Machine.Entry

/-!
# `CellLisp.Proofs.Machine.Call` — built-in procedures, tail calls, returns

A built-in procedure is called with its arguments on the stack, so that they are held while it
works; what it leads to is known if it is tame, or if it joins compiled code to its copies.  A
tail call and a return give up the current frame.
-/

namespace CellLisp

section Natives

variable {w : System} {mode : Mode} {d : Nat} {o : System} {fs : List Frame} {r : Return}
  {args : List Value} {procedure : Value}

/-- The machine while a built-in procedure works. -/
def Machine.serving (m : Machine) (procedure : Value) (r : Return) : Machine :=
  { m with code := r.code, pc := r.pc, fp := r.fp, native := some procedure }

/-- The end of a call of a built-in procedure. -/
theorem leads_served {v : Value} (hslots : w.state.machine.slots = args ++ slotsOf fs o.state.machine)
    (hescapes : w.state.machine.escapes = escapesOf fs o.state.machine)
    (hbindings : w.state.machine.bindings = bindingsOf fs o.state.machine)
    (hroom : w.state.machine.stack.size ≤ w.state.machine.limit)
    (hplace : w.state.machine.place = r)
    (hchained : Chained w o.state.machine fs r (some .any)) (hv : w.Good v) :
    Leads (Calm mode d o) (modifyMachine fun m =>
        { m.truncate (slotsOf fs o.state.machine).length with native := none, val := v }) w
      fun _ w' => At w' o.state.machine fs (some .any) ∧ w'.state.machine.place = r := by
  have hlower := Machine.slots_truncate hslots
  refine (leads_move (u := { w.state.machine.truncate (slotsOf fs o.state.machine).length with
    native := none, val := v }) rfl
    { w.takes with val := hv.holds, native := nofun, slots := fun u hu => ?_ } ⟨?_, ?_⟩).mono ?_
  · change u ∈ (w.state.machine.truncate _).slots at hu
    rw [hlower] at hu
    exact w.takes.slots u (by rw [hslots]; exact List.mem_append_right _ hu)
  · change _ <:+ (w.state.machine.truncate _).slots
    rw [hlower]
    exact List.suffix_append _ _
  · change _ <:+ w.state.machine.escapes
    rw [hescapes]
    exact List.suffix_append _ _
  · rintro _ w' - h
    have hm := h.machine
    have hback : w'.state.machine.place = r := by
      rw [hm]
      exact hplace
    refine ⟨⟨⟨?_, ?_, ?_, ?_⟩, ?_, ?_, by rw [hm]⟩, hback⟩
    · rw [hm]
      exact hlower
    · rw [hm]
      exact hescapes
    · rw [hm]
      exact hbindings
    · rw [hm]
      exact Nat.le_trans (Machine.size_truncate_le _ _) hroom
    · rw [hback]
      exact h.chained hchained
    · rintro k hk
      obtain rfl := Option.some.inj hk
      rw [hm]
      exact h.good hv

/-- A call of a built-in procedure. -/
theorem leads_callNative (ht : mode.target = none) (hcall : Calling w o.state.machine args fs r)
    (hproc : w.heap.Holds procedure)
    (happly : ∀ i n w', procedure.cell? = some i → w.heap.cell i = .native n →
      w.Moves w' (w.state.machine.serving procedure r) →
      Leads (Stable mode.rigid d) (Builtin.apply n.procedure args.reverse) w' fun v u => u.Good v) :
    Leads (Calm mode d o) (callNative procedure args.length r) w fun _ w' =>
      At w' o.state.machine fs (some .any) ∧ w'.state.machine.place = r := by
  unfold callNative
  have habove := hcall.above
  refine Leads.bind (leads_move (u := w.state.machine.resume r) rfl
    { w.takes with code := hcall.holds } ⟨habove.slots, habove.escapes⟩) ?_
  rintro _ w₁ - h₁
  have habove₁ := h₁.above ⟨habove.slots, habove.escapes⟩
  refine Leads.bind (Leads.gets (Q := fun c? w' => w₁ = w' ∧ c? = procedure.cell?.map w₁.heap.cell)
    ⟨rfl, rfl⟩) ?_
  rintro c? _ - ⟨rfl, hc⟩
  have hnot : Leads (Calm mode d o) (notProcedure procedure : Act Unit) w₁ fun _ w' =>
      At w' o.state.machine fs (some .any) ∧ w'.state.machine.place = r :=
    Leads.bind (Leads.gets (Q := fun _ _ => True) trivial) fun _ _ _ _ => Leads.fail _
  split
  · rename_i n
    obtain ⟨i, hi, hcell⟩ := Option.map_eq_some_iff.1 hc.symm
    rw [h₁.heap] at hcell
    refine Leads.bind (looks_checkArity n.arity args.length _).leads ?_
    rintro _ _ - ⟨rfl, -⟩
    refine Leads.bind (Leads.gets (Q := fun size w' => w₁ = w' ∧ size = w₁.state.machine.stack.size)
      ⟨rfl, rfl⟩) ?_
    rintro _ _ - ⟨rfl, rfl⟩
    have hslots₁ : w₁.state.machine.slots = args ++ slotsOf fs o.state.machine := by
      rw [h₁.machine]
      exact hcall.slots
    have hsize := congrArg List.length hslots₁
    rw [Machine.length_slots, List.length_append] at hsize
    split
    · exact trivial
    dsimp only
    refine Leads.bind (Leads.gets (Q := fun (xs : Array Value) w' => w₁ = w' ∧ xs.toList = args.reverse) ⟨rfl, ?_⟩) ?_
    · rw [hsize, Nat.add_sub_cancel_left, ← hsize]
      exact Machine.extract_of_reverse hslots₁
    rintro xs _ - ⟨rfl, hxs⟩
    refine Leads.bind (leads_move (u := w.state.machine.serving procedure r) ?_ ?_
      ⟨habove.slots, habove.escapes⟩) ?_
    · rw [h₁.machine]
      rfl
    · have hserving : w.state.machine.serving procedure r
          = { w₁.state.machine with native := some procedure } := by
        rw [h₁.machine]
        rfl
      rw [hserving]
      refine { w₁.takes with native := fun p hp => ?_ }
      obtain rfl := Option.some.inj hp
      exact h₁.holds hproc
    rintro _ w₂ - h₂
    have h₁₂ := h₁.trans h₂
    rw [hxs]
    refine Leads.bind (happly i n w₂ hi hcell h₁₂).rigid ?_
    rintro v w₃ - ⟨hs, hv⟩
    have hm₃ : w₃.state.machine = w.state.machine.serving procedure r :=
      (hs.machine rfl).trans h₁₂.machine
    have hsize' : w₁.state.machine.stack.size - args.length = (slotsOf fs o.state.machine).length := by
      omega
    rw [hsize']
    have hin : r.code ∈ w₂.state.machine.values := by
      rw [h₁₂.machine]
      simp [Machine.serving, Machine.values]
    have hvalues : fs.flatMap Frame.slots ⊆ w₂.state.machine.values := by
      intro u hu
      refine Machine.mem_values_of_slots ?_
      rw [h₁₂.machine]
      change u ∈ w.state.machine.slots
      rw [hcall.slots]
      exact List.mem_append_right _ (List.mem_append_left _ hu)
    have hconts : fs.flatMap Frame.conts ⊆ w₂.state.machine.values := by
      intro u hu
      refine Machine.mem_values_of_escapes ?_
      rw [h₁₂.machine]
      change u ∈ w.state.machine.escapes
      rw [hcall.escapes]
      exact List.mem_append_left _ hu
    have hslots₃ : w₃.state.machine.slots = args ++ slotsOf fs o.state.machine := by
      rw [hm₃]
      exact hcall.slots
    refine leads_served (r := r) hslots₃ ?_ ?_ ?_ ?_ ?_ hv
    · rw [hm₃]
      exact hcall.escapes
    · rw [hm₃]
      exact hcall.bindings
    · rw [hm₃]
      exact hcall.room
    · rw [hm₃]
      rfl
    · exact (h₁₂.chained hcall.chained).retained (hs.retained ht) hs.known hin hvalues hconts
  · exact hnot

/-- Values on the stack are held by a step that leaves the machine alone. -/
theorem System.held_of_slots {v : Value} (hv : w.Good v) (hm : v ∈ w.state.machine.slots) :
    w.Held mode.rigid d v :=
  ⟨hv, fun _ _ => System.anchored_of_machine rfl (Machine.mem_values_of_slots hm)⟩

/-- What a closure joins may be entered. -/
theorem enterable_closure {i : Nat} {code env : Value} (hc : w.heap.cell i = .closure code env) :
    Enterable w code (some env) := by
  have ht := w.typed.cells i
  unfold CellTyped ContentsOk at ht
  rw [hc] at ht
  obtain ⟨n, hn, ⟨j, p, rfl, hj, hp, rfl⟩, harray⟩ := ht
  have hsound := (w.typed.heap.wf.sound i (by rw [hc]; rfl)).values
  rw [hc] at hsound
  have hcode := hsound (.ref .bytecode j) (by simp [Heap.references, Cell.block?, Cell.values])
  have henv := hsound env (by simp [Heap.references, Cell.block?, Cell.values])
  refine ⟨hcode, j, p, rfl, hj, hp, ?_⟩
  rw [if_neg hn]
  exact .cons ⟨henv, harray⟩ .nil

/-- A tame built-in procedure works on its arguments. -/
theorem Calling.yields_apply {base : Machine} {w' : System} {n : Native}
    (hcall : Calling w base args fs r) (hargs : ∀ v ∈ args, w.Good v) (hd : d ≤ w.state.roots.size)
    (htame : n.procedure.isTame mode.pairs = true)
    (hm : w.Moves w' (w.state.machine.serving procedure r)) :
    Yields mode.rigid d (Builtin.apply n.procedure args.reverse) w' := by
  have hdepth : d ≤ w'.state.roots.size := by
    rw [hm.state]
    exact hd
  refine CellLisp.yields_apply htame hdepth fun v hv => ?_
  have hin := List.mem_reverse.1 hv
  refine System.held_of_slots (hm.good (hargs v hin)) ?_
  rw [hm.machine]
  change v ∈ w.state.machine.slots
  rw [hcall.slots]
  exact List.mem_append_left _ hin

/-- A call of a procedure that a program may hold, built-in procedures being tame. -/
theorem leads_enter (ht : mode.target = none) (hcall : Calling w o.state.machine args fs r)
    (hargs : ∀ v ∈ args, w.Good v) (hproc : w.Good procedure) (hd : d ≤ w.state.roots.size)
    (htame : ∀ i n, procedure.cell? = some i → w.heap.cell i = .native n →
      n.procedure.isTame mode.pairs = true) :
    Leads (Calm mode d o) (enter procedure args.length r) w fun _ w' =>
      ∃ gs, Entered w' o.state.machine fs r gs := by
  unfold enter
  have hnot : Leads (Calm mode d o) (notProcedure procedure : Act Unit) w fun _ w' =>
      ∃ gs, Entered w' o.state.machine fs r gs :=
    Leads.bind (Leads.gets (Q := fun _ _ => True) trivial) fun _ _ _ _ => Leads.fail _
  split
  · rename_i i
    rcases Nat.eq_zero_or_pos i with rfl | hi
    · refine Leads.bind (looks_bytecodeOf (s := w.state) _).leads ?_
      rintro b _ - ⟨-, hb⟩
      cases hb
    · obtain ⟨p, hp, hcopies⟩ := hproc.proper.code i rfl (by omega)
      refine leads_enterCode hcall hargs ⟨hproc.holds, i, p, rfl, by omega, hp, ?_⟩
      rw [if_pos hcopies]
      exact .nil
  · rename_i i
    refine Leads.bind (Leads.gets (Q := fun c w' => w = w' ∧ c = w.heap.cell i) ⟨rfl, rfl⟩) ?_
    rintro c _ - ⟨rfl, hc⟩
    split
    · exact leads_enterCode hcall hargs (enterable_closure hc.symm)
    · exact hnot
  · rename_i i
    refine (leads_callNative ht hcall hproc.holds ?_).mono
      fun _ _ _ h => ⟨[], Entered.atOnce h.1 h.2⟩
    intro j n w' hj hn hm
    exact hcall.yields_apply hargs hd (htame j n hj hn) hm
  · exact hnot

theorem yields_makeClosure {env code : Value} {n : Nat} (hcode : w.IsKind code (.code n))
    (henv : w.IsKind env (.env n)) : Yields mode d (Builtin.makeClosure code env) w := by
  have hs : w.Storable none (.closure code env) := by
    refine ⟨Heap.placeable_of_values rfl rfl fun v hv => ?_, n, hcode.2.1, hcode.2.2, henv.2⟩
    simp only [Cell.values, List.mem_cons, List.not_mem_nil, or_false] at hv
    rcases hv with rfl | rfl
    · exact henv.1
    · exact hcode.1
  have halloc : Yields mode d (allocCell (.closure code env)) w := by
    have hplaced : Leads (Grown (w.heap.references (.closure code env)))
        (allocCell (.closure code env)) w fun v w' => w'.Good v := by
      refine (leads_allocCell hs rfl).mono fun v w' _ hplaced => ?_
      obtain ⟨i, -, rfl, hcell, hplan, -⟩ := hplaced.exists_index
      exact System.good_ref hcell rfl (by rintro ⟨⟩) hplan
    exact hplaced.stable.mono fun _ _ _ h => h.2
  unfold Builtin.makeClosure
  split
  · exact Yields.look (Q := fun _ => False) (looks_typeError _ _) fun _ h => h.elim
  · exact Yields.look (looks_arrayOf env) fun _ _ => halloc

/-- The procedure that joins compiled code to its copies works on them. -/
theorem yields_join {env code : Value} {n : Nat} {w' : System} {m : Machine}
    (henv : w.IsKind env (.env n)) (hcode : w.IsKind code (.code n)) {j : Nat} {nat : Native}
    (hj : w.state.known.makeClosure.cell? = some j) (hnat : w.heap.cell j = .native nat)
    (hm : w.Moves w' m) :
    Yields mode d (Builtin.apply nat.procedure [code, env]) w' := by
  rcases w.typed.known.maker with hmaker | ⟨i, nat', hmaker, hi, hcell, hprimitive⟩
  · rw [hmaker] at hj
    cases hj
  rw [hmaker, Value.cell?_eq_some_iff.2 ⟨_, rfl, hi⟩] at hj
  obtain rfl := Option.some.inj hj
  obtain rfl := Cell.native.inj (hnat.symm.trans hcell)
  rw [hprimitive]
  exact yields_makeClosure (hm.isKind hcode) (hm.isKind henv)

/-- A call that joins compiled code to its copies. -/
theorem leads_join {env code : Value} {n : Nat} (ht : mode.target = none)
    (hcall : Calling w o.state.machine [env, code] fs r) (henv : w.IsKind env (.env n))
    (hcode : w.IsKind code (.code n)) :
    Leads (Calm mode d o) (enter w.state.known.makeClosure 2 r) w fun _ w' =>
      Entered w' o.state.machine fs r [] := by
  have hholds : w.heap.Holds w.state.known.makeClosure := System.IsKind.holds (k := .maker) rfl
  have happly : ∀ j nat w', w.state.known.makeClosure.cell? = some j → w.heap.cell j = .native nat →
      w.Moves w' (w.state.machine.serving w.state.known.makeClosure r) →
      Leads (Stable mode.rigid d) (Builtin.apply nat.procedure [env, code].reverse) w'
        fun v u => u.Good v :=
    fun _ _ _ hj hnat hm => yields_join henv hcode hj hnat hm
  have hnative := leads_callNative ht hcall hholds happly
  rcases w.typed.known.maker with hmaker | ⟨i, nat, hmaker, -⟩
  · rw [hmaker]
    exact Leads.bind (Leads.gets (Q := fun _ _ => True) trivial) fun _ _ _ _ => Leads.fail _
  · rw [hmaker] at hnative ⊢
    exact hnative.mono fun _ _ _ h => .atOnce h.1 h.2

end Natives

/-! ## Carrying out an instruction -/

/-- The machine carries out an instruction of its top frame; the program counter is past it. -/
structure Poised (w : System) (o : Machine) (f : Frame) (fs : List Frame) (i : Nat) (s : Site) :
    Prop where
  shows : Shows w.state.machine (f :: fs) o
  frame : FrameOk w o fs ⟨w.state.machine.code, i, w.state.machine.fp⟩ f
  full : f.Full w
  chained : Chained w o fs f.back (some .any)
  site : f.proc.sites[i]? = some s
  shape : f.shape = s.shape
  pc : w.state.machine.pc = i + 1
  value : ∀ k, s.shape.val = some k → w.IsKind w.state.machine.val k
  native : w.state.machine.native = none

section Frames

variable {w w' : System} {mode : Mode} {d : Nat} {o : System} {fs : List Frame} {f : Frame}
  {val? : Option Kind} {i : Nat} {s : Site} {base : Machine}

/-- The listing of a frame's procedure is safe. -/
theorem FrameOk.verified {r : Return} (h : FrameOk w base fs r f) :
    Verified f.proc.fixed f.proc.least?.isSome f.proc.sites := by
  obtain ⟨-, b, hb⟩ := h.exists_bytecode
  have hfits := h.fitting hb
  exact Proc.verified hfits.conts hfits.body

theorem Poised.safe (h : Poised w base f fs i s) : Site.Safe f.proc.fixed f.proc.sites i s :=
  h.frame.verified.safe i s h.site

theorem Poised.nested (h : Poised w base f fs i s) :
    Nested f.proc.sites s.shape.ops s.shape.dyns s.shape.labels :=
  h.frame.verified.nested s (List.mem_of_getElem? h.site)

theorem Poised.above (h : Poised w base f fs i s) : base.Above w.state.machine := h.shows.above

/-- A frame goes on at another place of its code. -/
theorem FrameOk.move {r : Return} (h : FrameOk w base fs r f) {pc : Nat} {sh : Shape}
    {ops conts : List Value} {dyns : List DynBinding} (harrives : Arrives f.proc.sites pc sh)
    (hops : w.AreKinds ops sh.ops)
    (hconts : Established w r.code r.fp (f.below ++ slotsOf fs base).length
      (bindingsOf fs base).length (escapesOf fs base).length sh.labels conts)
    (hdyns : dyns.length = sh.dyns) :
    FrameOk w base fs { r with pc } { f with shape := sh, ops, conts, dyns } :=
  ⟨h.pos, h.plan, h.code, h.holds, harrives, hops, h.env, h.args, h.fits, h.fp, hconts, hdyns⟩

/-- The frame of a machine that stands at a place, with what is known at the site there. -/
theorem FrameOk.at_site {r : Return} (h : FrameOk w base fs r f) :
    ∃ s, f.proc.sites[r.pc]? = some s ∧ s.shape.forget = f.shape.forget ∧
      (∀ k, s.shape.val = some k → f.shape.val = some k) ∧
      FrameOk w base fs r { f with shape := s.shape } := by
  obtain ⟨s, hs, hforget, hval⟩ := h.arrives
  obtain ⟨-, hops, hlabels, hdyns⟩ := Shape.mk.inj hforget
  refine ⟨s, hs, hforget, hval, h.move ⟨s, hs, rfl, fun _ hk => hk⟩ ?_ ?_ ?_⟩
  · rw [hops]
    exact h.ops
  · rw [hlabels]
    exact h.conts
  · rw [hdyns]
    exact h.dyns

/-- The code of a frame is that of its procedure. -/
theorem FrameOk.instrs_eq {r : Return} (h : FrameOk w base fs r f) :
    ∃ b, w.heap.bytecode? r.code = some b ∧ w.heap.instrs b = f.proc.instrs.toArray := by
  obtain ⟨-, b, hb⟩ := h.exists_bytecode
  obtain ⟨-, hinstrs⟩ := System.code_of_plan h.plan hb
  exact ⟨b, by rw [h.code, Heap.bytecode?_ref h.pos hb], hinstrs⟩

/-- The instruction at a place of a frame's code is that of the site. -/
theorem FrameOk.instr? {r : Return} {n : Nat} (h : FrameOk w base fs r f)
    (hs : f.proc.sites[n]? = some s) : w.heap.instr? r.code n = some s.instr := by
  obtain ⟨-, b, hb⟩ := h.exists_bytecode
  rw [h.code]
  exact System.instr?_of_plan h.pos h.plan hb hs

/-- The words that a call saves are where the frame pointer says, whatever is on top of them. -/
theorem Machine.getElem?_saved {m : Machine} {r : Return} {u lower : List Value}
    (hslots : m.slots = u ++ ([.ofInt r.fp, .ofInt r.pc, r.code] ++ lower)) :
    m.stack[lower.length]? = some r.code ∧ m.stack[lower.length + 1]? = some (.ofInt r.pc) ∧
      m.stack[lower.length + 2]? = some (.ofInt r.fp) := by
  refine ⟨?_, ?_, ?_⟩
  · refine Machine.getElem?_of_reverse (u := u ++ [.ofInt r.fp, .ofInt r.pc]) ?_
    rw [← Machine.slots, hslots]
    simp
  · refine Machine.getElem?_of_reverse (u := u ++ [.ofInt r.fp]) (l := r.code :: lower) ?_
    rw [← Machine.slots, hslots]
    simp
  · refine Machine.getElem?_of_reverse (u := u) (l := .ofInt r.pc :: r.code :: lower) ?_
    rw [← Machine.slots, hslots]
    simp

/-- They say where the frame goes back to. -/
theorem Machine.frame?_of_slots {m : Machine} {r : Return} {u args lower : List Value}
    (hslots : m.slots = u ++ ([.ofInt r.fp, .ofInt r.pc, r.code] ++ (args ++ lower)))
    (hfp : m.fp = args.length + lower.length + 3) (hfits : r.pc < 2 ^ 59 ∧ r.fp < 2 ^ 59) :
    m.frame? args.length = some (r, lower.length) := by
  obtain ⟨hcode, hpc, hsaved⟩ := Machine.getElem?_saved hslots
  rw [List.length_append] at hcode hpc hsaved
  unfold Machine.frame?
  rw [if_neg (by omega), show m.fp - 3 = args.length + lower.length by omega,
    show m.fp - 2 = args.length + lower.length + 1 by omega,
    show m.fp - 1 = args.length + lower.length + 2 by omega, hcode, hpc, hsaved]
  simp only [Value.word_ofInt hfits.1, Value.word_ofInt hfits.2, Nat.add_sub_cancel_left]

/-- The saved words of a frame are where its frame pointer says. -/
theorem FrameOk.getElem?_saved {r : Return} {m : Machine} {u : List Value}
    (h : FrameOk w base fs r f) (hslots : m.slots = u ++ (f.below ++ slotsOf fs base)) :
    3 ≤ r.fp ∧ m.stack[r.fp - 3]? = some f.back.code ∧
      m.stack[r.fp - 2]? = some (.ofInt f.back.pc) ∧
        m.stack[r.fp - 1]? = some (.ofInt f.back.fp) := by
  have hfp := h.fp
  have hwords : m.slots = (u ++ f.env) ++ ([.ofInt f.back.fp, .ofInt f.back.pc, f.back.code] ++
      (f.args ++ slotsOf fs base)) := by
    rw [hslots, Frame.below, Frame.saved]
    simp
  obtain ⟨hcode, hpc, hsaved⟩ := Machine.getElem?_saved hwords
  rw [List.length_append] at hcode hpc hsaved
  refine ⟨by omega, ?_, ?_, ?_⟩
  · rwa [show r.fp - 3 = f.args.length + (slotsOf fs base).length by omega]
  · rwa [show r.fp - 2 = f.args.length + (slotsOf fs base).length + 1 by omega]
  · rwa [show r.fp - 1 = f.args.length + (slotsOf fs base).length + 2 by omega]

/-- They say where it goes back to. -/
theorem FrameOk.frame?_eq {r : Return} {m : Machine} {u : List Value}
    (h : FrameOk w base fs r f) (hslots : m.slots = u ++ (f.below ++ slotsOf fs base))
    (hfp : m.fp = r.fp) : m.frame? f.args.length = some (f.back, (slotsOf fs base).length) := by
  refine Machine.frame?_of_slots (u := u ++ f.env) ?_ (hfp.trans h.fp) h.fits
  rw [hslots, Frame.below, Frame.saved]
  simp

/-- The saved words of the current frame say where it goes back to. -/
theorem looks_currentFrame (h : Poised w base f fs i s) :
    Looks currentFrame w.state fun p => p = (f.back, (slotsOf fs base).length) := by
  have hok := h.frame
  obtain ⟨b, hb, hargs⟩ := h.full
  unfold currentFrame
  refine Looks.bind (Looks.gets (Q := fun c => c = w.state.machine.code) rfl) ?_
  rintro _ rfl
  refine Looks.bind (looks_bytecodeOf (s := w.state) _) ?_
  intro b' hb'
  have hcode : w.state.machine.code = .ref .bytecode f.cell := hok.code
  rw [hcode, Heap.bytecode?_ref hok.pos hb] at hb'
  obtain rfl := Option.some.inj hb'
  refine Looks.bind (Looks.gets (Q := fun p? => p? = some (f.back, (slotsOf fs base).length)) ?_) ?_
  · rw [← hargs]
    exact hok.frame?_eq (h.shows.slots.trans slotsOf_cons) rfl
  · rintro _ rfl
    exact Looks.pure rfl

/-- The machine that stands at a place is about to carry out the instruction there. -/
theorem At.poised (h : At w base (f :: fs) val?) :
    ∃ s, w.heap.instr? w.state.machine.code w.state.machine.pc = some s.instr ∧
      ∀ w', w.Moves w' { w.state.machine with pc := w.state.machine.pc + 1 } →
        Poised w' base { f with shape := s.shape } fs w.state.machine.pc s := by
  obtain ⟨hok, hfull, hval, hrest⟩ := h.chained
  obtain ⟨s, hs, -, hsval, hok'⟩ := hok.at_site
  refine ⟨s, hok.instr? hs, fun w' hm => ?_⟩
  have hmachine := hm.machine
  have hchained : Chained w' base ({ f with shape := s.shape } :: fs) w.state.machine.place
      s.shape.val := hm.chained ⟨hok', hfull, rfl, hrest⟩
  obtain ⟨hok'', hfull', -, hrest'⟩ := hchained
  refine ⟨?_, ?_, hfull', hrest', hs, rfl, by rw [hmachine], fun k hk => ?_, by rw [hmachine]; exact h.native⟩
  · rw [hmachine]
    exact ⟨h.shows.slots, h.shows.escapes, h.shows.bindings, h.shows.room⟩
  · rw [hmachine]
    exact hok''
  · rw [hmachine]
    exact hm.isKind (h.value k (hval ▸ hsval k hk))

theorem established_nil {code : Value} {fp below dyns older : Nat} {vs : List Value}
    (h : Established w code fp below dyns older [] vs) : vs = [] := by
  cases vs with
  | nil => rfl
  | cons v vs => exact h.elim

/-- A frame without continuations and dynamic bindings leaves those of the older ones. -/
theorem Poised.bare (h : Poised w base f fs i s) (hlabels : s.shape.labels = [])
    (hdyns : s.shape.dyns = 0) :
    w.state.machine.escapes = escapesOf fs base ∧ w.state.machine.bindings = bindingsOf fs base := by
  have hconts := h.frame.conts
  rw [h.shape, hlabels] at hconts
  have hlen := h.frame.dyns
  rw [h.shape, hdyns] at hlen
  rw [h.shows.escapes, h.shows.bindings, escapesOf_cons, bindingsOf_cons, established_nil hconts,
    List.eq_nil_of_length_eq_zero hlen]
  exact ⟨rfl, rfl⟩

/-- Where a frame goes back to holds, as a word of the stack. -/
theorem Poised.holds_back (h : Poised w base f fs i s) : w.heap.Holds f.back.code := by
  refine w.takes.slots _ ?_
  rw [h.shows.slots, slotsOf_cons, Frame.below, Frame.saved]
  simp

/-- A return. -/
theorem leads_returnFrom (h : Poised w o.state.machine f fs i s) (hval : s.shape.val = some .any)
    (hlabels : s.shape.labels = []) (hdyns : s.shape.dyns = 0) :
    Leads (Calm mode d o) returnFrom w fun _ w' => Entered w' o.state.machine fs f.back [] := by
  unfold returnFrom
  refine Leads.bind (looks_currentFrame h).leads ?_
  rintro _ _ - ⟨rfl, rfl⟩
  obtain ⟨hescapes, hbindings⟩ := h.bare hlabels hdyns
  have hslots : (w.state.machine.truncate (slotsOf fs o.state.machine).length).slots
      = slotsOf fs o.state.machine := by
    refine Machine.slots_truncate (u := f.ops ++ f.below) ?_
    rw [h.shows.slots, slotsOf_cons, List.append_assoc]
  refine (leads_move (u := (w.state.machine.truncate (slotsOf fs o.state.machine).length).resume
    f.back) rfl { w.takes with code := h.holds_back, slots := fun v hv => ?_ }
    ⟨?_, h.above.escapes⟩).mono ?_
  · change v ∈ (w.state.machine.truncate _).slots at hv
    rw [hslots] at hv
    refine w.takes.slots v ?_
    rw [h.shows.slots, slotsOf_cons]
    simp [hv]
  · change _ <:+ (w.state.machine.truncate _).slots
    rw [hslots]
    exact List.suffix_append _ _
  · rintro _ w' - hm
    refine @Entered.atOnce _ _ _ _ (some .any) ⟨?_, ?_, ?_, ?_⟩ (by rw [hm.machine]; rfl)
    · rw [hm.machine]
      exact ⟨hslots, hescapes, hbindings, Nat.le_trans (Machine.size_truncate_le _ _) h.shows.room⟩
    · rw [hm.machine]
      exact hm.chained h.chained
    · intro k hk
      obtain rfl := Option.some.inj hk
      rw [hm.machine]
      exact hm.isKind (h.value _ hval)
    · rw [hm.machine]
      exact h.native

theorem slots_slide {m : Machine} {args ops lower : List Value}
    (h : m.slots = args ++ (ops ++ lower)) :
    (m.slide lower.length args.length).slots = args ++ lower := by
  have hsize := congrArg List.length h
  simp only [Machine.length_slots, List.length_append] at hsize
  have hargs : (m.stack.extract (m.stack.size - args.length) m.stack.size).toList = args.reverse := by
    rw [show m.stack.size - args.length = (ops ++ lower).length by
      rw [List.length_append]
      omega]
    exact Machine.extract_of_reverse h
  have hlower : (m.stack.shrink lower.length).toList.reverse = lower := by
    refine Machine.shrink_of_reverse (u := args ++ ops) ?_
    rw [List.append_assoc]
    exact h
  rw [Machine.slots, Machine.slide, Array.toList_append, List.reverse_append, hargs, hlower,
    List.reverse_reverse]

/-- Arguments of a tail call take the place of the frame that makes it. -/
theorem Poised.slots_slid {n : Nat} (h : Poised w base f fs i s) (hn : n ≤ s.shape.ops.length) :
    (w.state.machine.slide (slotsOf fs base).length n).slots = f.ops.take n ++ slotsOf fs base := by
  have hlen : (f.ops.take n).length = n := by
    rw [List.length_take, h.frame.length_ops, h.shape]
    omega
  have hslots : w.state.machine.slots
      = f.ops.take n ++ ((f.ops.drop n ++ f.below) ++ slotsOf fs base) := by
    rw [h.shows.slots, slotsOf_cons]
    conv_lhs => rw [← List.take_append_drop n f.ops]
    simp only [List.append_assoc]
  have hslid := slots_slide hslots
  rwa [hlen] at hslid

/-- They leave room for the words that a call saves. -/
theorem Poised.size_slid {n : Nat} (h : Poised w base f fs i s) (hn : n ≤ s.shape.ops.length) :
    (w.state.machine.slide (slotsOf fs base).length n).stack.size + 3 ≤ w.state.machine.limit := by
  have hslid := congrArg List.length (h.slots_slid hn)
  have hslots := congrArg List.length h.shows.slots
  have hroom := h.shows.room
  rw [slotsOf_cons] at hslots
  simp only [Machine.length_slots, List.length_append, List.length_take, Frame.below, Frame.saved,
    List.length_cons, List.length_nil] at hslid hslots
  omega

theorem Poised.takes_slid {n : Nat} (h : Poised w base f fs i s) (hn : n ≤ s.shape.ops.length) :
    w.Takes (w.state.machine.slide (slotsOf fs base).length n) := by
  refine { w.takes with slots := fun v hv => w.takes.slots v ?_ }
  rw [h.slots_slid hn, List.mem_append] at hv
  rw [h.shows.slots, slotsOf_cons, List.mem_append, List.mem_append]
  exact hv.imp List.mem_of_mem_take .inr

/-- They are on the stack for a call that goes back to where the frame does. -/
theorem Poised.calling_slid {n : Nat} (h : Poised w base f fs i s) (hlabels : s.shape.labels = [])
    (hdyns : s.shape.dyns = 0) (hn : n ≤ s.shape.ops.length)
    (hm : w.Moves w' (w.state.machine.slide (slotsOf fs base).length n)) :
    Calling w' base (f.ops.take n) fs f.back := by
  obtain ⟨hescapes, hbindings⟩ := h.bare hlabels hdyns
  have hroom := h.size_slid hn
  refine ⟨?_, ?_, ?_, ?_, hm.chained h.chained, hm.holds h.holds_back, h.frame.fits, ?_⟩
  · rw [hm.machine]
    exact h.slots_slid hn
  · rw [hm.machine]
    exact hescapes
  · rw [hm.machine]
    exact hbindings
  · rw [hm.machine]
    exact Nat.le_trans (Nat.le_add_right _ 3) hroom
  · rw [hm.machine]
    exact h.native

/-- A tail call. -/
theorem leads_tailCall {n : Nat} (ht : mode.target = none)
    (h : Poised w o.state.machine f fs i s) (hval : s.shape.val = some .any)
    (hlabels : s.shape.labels = []) (hdyns : s.shape.dyns = 0) (hn : n ≤ s.shape.ops.length)
    (hops : ∀ k ∈ s.shape.ops.take n, k = .any) (hd : d ≤ w.state.roots.size)
    (htame : ∀ i n, w.state.machine.val.cell? = some i → w.heap.cell i = .native n →
      n.procedure.isTame mode.pairs = true) :
    Leads (Calm mode d o) (tailCall n) w fun _ w' =>
      ∃ gs, Entered w' o.state.machine fs f.back gs := by
  unfold tailCall
  refine Leads.bind (looks_currentFrame h).leads ?_
  rintro _ _ - ⟨rfl, rfl⟩
  refine Leads.bind (Leads.gets (Q := fun size w' => w = w') rfl) ?_
  rintro size _ - rfl
  split
  · exact trivial
  dsimp only
  refine Leads.bind (leads_move (u := w.state.machine.slide (slotsOf fs o.state.machine).length n)
    rfl (h.takes_slid hn) ⟨?_, h.above.escapes⟩) ?_
  · rw [h.slots_slid hn, slotsOf, ← List.append_assoc]
    exact List.suffix_append _ _
  intro _ w₁ _ hm
  refine Leads.bind (Leads.gets (Q := fun v w' => w₁ = w' ∧ v = w₁.state.machine.val) ⟨rfl, rfl⟩) ?_
  rintro _ _ - ⟨rfl, rfl⟩
  have hval₁ : w₁.state.machine.val = w.state.machine.val := by
    rw [hm.machine]
    rfl
  have hkinds : w.AreKinds (f.ops.take n) (s.shape.ops.take n) := by
    rw [← h.shape]
    exact List.forall₂_take n h.frame.ops
  have hargs : ∀ v ∈ f.ops.take n, w₁.Good v := fun v hv => hm.good (hkinds.good hops v hv)
  have hproc : w₁.Good w₁.state.machine.val := by
    rw [hval₁]
    exact hm.good (h.value _ hval)
  have henter := leads_enter (d := d) ht (h.calling_slid hlabels hdyns hn hm) hargs hproc
    (by rw [hm.state]; exact hd) (by rw [hval₁, hm.heap]; exact htame)
  rwa [List.length_take, h.frame.length_ops, h.shape, Nat.min_eq_left hn] at henter

/-- Cells, offsets of words, operands and dynamic bindings fit the 32 bits that values, headers of
blocks and records of continuations have for them.  A frame takes three operands and more, and
there is room in the arena for the code of a quarter as many bindings as it has words. -/
structure Addressable (w : System) : Prop where
  cells : w.heap.cells.size ≤ 2 ^ 32
  words : w.heap.arena.limit < 2 ^ 29
  slots : w.state.machine.limit < 2 ^ 32
  bindings : w.state.machine.limit / 3 * (w.heap.arena.limit / 4) < 2 ^ 32

/-- The code of a frame fits the arena. -/
theorem FrameOk.length_sites_le {r : Return} (h : FrameOk w base fs r f) :
    2 * f.proc.sites.length ≤ w.heap.arena.limit := by
  change _ ≤ w.state.heap.arena.limit
  obtain ⟨-, b, hb⟩ := h.exists_bytecode
  have ht := w.typed.cells f.cell
  unfold CellTyped ContentsOk at ht
  rw [hb] at ht
  obtain ⟨plan, hplan, hpayload, -⟩ := ht
  rw [h.plan] at hplan
  obtain rfl := Option.some.inj hplan
  have hfits := w.typed.heap.fits f.cell b.code (by rw [hb]; rfl)
  rw [hpayload] at hfits
  have hroom := w.typed.heap.wf.capacity_le b.code
  simp only [Payload.size, Instr.bytes, List.size_toArray, List.length_map, Plan.sites] at hfits
  omega

theorem FrameOk.length_sites {r : Return} (h : FrameOk w base fs r f) (ha : Addressable w) :
    f.proc.sites.length < 2 ^ 28 := by
  have := h.length_sites_le
  have := ha.words
  omega

/-- The words that a call saves fit. -/
theorem Poised.fits (h : Poised w base f fs i s) (ha : Addressable w) :
    w.state.machine.pc < 2 ^ 59 ∧ w.state.machine.fp < 2 ^ 59 := by
  have hlt := (List.getElem?_eq_some_iff.1 h.site).1
  have hlen := h.frame.length_sites ha
  have hpc := h.pc
  have hfp : w.state.machine.fp = _ := h.frame.fp
  have hroom := h.shows.room
  have hslots := congrArg List.length h.shows.slots
  rw [slotsOf_cons] at hslots
  simp only [Machine.length_slots, List.length_append, Frame.below, Frame.saved, List.length_cons,
    List.length_nil] at hslots
  have := ha.slots
  omega

/-- Operands on top of a frame are the arguments of a call that goes back to it. -/
theorem Poised.calling {n : Nat} {ops : List Kind} (h : Poised w base f fs i s)
    (ha : Addressable w) (hops : ops = s.shape.ops.drop n)
    (harrives : Arrives f.proc.sites (i + 1) ⟨some .any, ops, s.shape.labels, s.shape.dyns⟩) :
    Calling w base (f.ops.take n) ({ f with
      shape := ⟨some .any, ops, s.shape.labels, s.shape.dyns⟩, ops := f.ops.drop n } :: fs)
      w.state.machine.place := by
  subst hops
  have hslots := h.shows.slots
  have hescapes := h.shows.escapes
  have hbindings := h.shows.bindings
  refine ⟨?_, ?_, ?_, h.shows.room, ⟨?_, h.full, rfl, h.chained⟩, h.frame.holds, h.fits ha, h.native⟩
  · rw [hslots, slotsOf_cons, slotsOf_cons]
    conv_lhs => rw [← List.take_append_drop n f.ops]
    rw [List.append_assoc]
    rfl
  · rw [hescapes, escapesOf_cons, escapesOf_cons]
  · rw [hbindings, bindingsOf_cons, bindingsOf_cons]
  · have hconts := h.frame.conts
    have hdyns := h.frame.dyns
    have hops := h.frame.ops
    rw [h.shape] at hconts hdyns hops
    have hmoved := h.frame.move harrives
      (List.forall₂_drop n hops) hconts hdyns
    rwa [show w.state.machine.place = ⟨w.state.machine.code, i + 1, w.state.machine.fp⟩ by
      rw [Machine.place, h.pc]]

/-- The frame of a call gives up the arguments and goes on behind it. -/
def Frame.Calls (f : Frame) (n : Nat) (f' : Frame) : Prop :=
  ∃ shape, f' = { f with shape, ops := f.ops.drop n }

theorem Frame.Calls.becomes {f f' : Frame} {n : Nat} (h : f.Calls n f') :
    f.Becomes f' ∧ f'.dyns = f.dyns := by
  obtain ⟨shape, rfl⟩ := h
  exact ⟨⟨rfl, rfl, rfl, rfl, .inl List.suffix_rfl⟩, rfl⟩

/-- A call of a procedure that a program may hold. -/
theorem leads_call {n : Nat} {gs : List Frame} (ht : mode.target = none)
    (h : Poised w o.state.machine f fs i s)
    (hcall : Calling w o.state.machine (f.ops.take n) gs w.state.machine.place)
    (hval : s.shape.val = some .any) (hn : n ≤ s.shape.ops.length)
    (hops : ∀ k ∈ s.shape.ops.take n, k = .any) (hd : d ≤ w.state.roots.size)
    (htame : ∀ i n, w.state.machine.val.cell? = some i → w.heap.cell i = .native n →
      n.procedure.isTame mode.pairs = true) :
    Leads (Calm mode d o) (enter w.state.machine.val n w.state.machine.place) w fun _ w' =>
      ∃ hs, Entered w' o.state.machine gs w.state.machine.place hs := by
  have hkinds : w.AreKinds (f.ops.take n) (s.shape.ops.take n) := by
    rw [← h.shape]
    exact List.forall₂_take n h.frame.ops
  have henter := leads_enter (d := d) ht hcall (hkinds.good hops) (h.value _ hval) hd htame
  rwa [List.length_take, h.frame.length_ops, h.shape, Nat.min_eq_left hn] at henter

/-- A call of the procedure that joins compiled code to its copies. -/
theorem leads_joinCall {n : Nat} {ops : List Kind} {gs : List Frame} (ht : mode.target = none)
    (h : Poised w o.state.machine f fs i s)
    (hcall : Calling w o.state.machine (f.ops.take 2) gs w.state.machine.place)
    (hval : s.shape.val = some .maker) (hops : s.shape.ops = .env n :: .code n :: ops) :
    Leads (Calm mode d o) (enter w.state.machine.val 2 w.state.machine.place) w fun _ w' =>
      Entered w' o.state.machine gs w.state.machine.place [] := by
  have hmaker : w.state.machine.val = w.state.known.makeClosure := h.value _ hval
  have hkinds := h.frame.ops
  rw [h.shape, hops] at hkinds
  generalize f.ops = us at hkinds hcall
  cases hkinds with
  | cons henv hrest =>
      cases hrest with
      | cons hcode hrest =>
          rw [hmaker]
          exact leads_join ht hcall henv hcode

/-! ## Arguments past the required ones -/

/-- Values on the stack are put in front of a list. -/
theorem leads_consArgs {n first pc : Nat} (ht : mode.target = none)
    (h : Entering w o.state.machine f fs pc) (hval : w.Good w.state.machine.val)
    (hwords : ∀ k < n, ∃ v ∈ f.args, w.state.machine.stack[first + k]? = some v) :
    Leads (Calm mode d o) (consArgs first n) w fun _ w' =>
      Entering w' o.state.machine f fs pc ∧ w'.Good w'.state.machine.val ∧
        ∃ v, w'.state.machine = { w.state.machine with val := v } := by
  induction n generalizing w with
  | zero => exact Leads.pure ⟨h, hval, _, rfl⟩
  | succ n ih =>
      obtain ⟨v, hv, hword⟩ := hwords n (Nat.lt_succ_self n)
      rw [consArgs]
      refine Leads.bind (Leads.gets (Q := fun v? w' => w = w' ∧ v? = some v) ⟨rfl, hword⟩) ?_
      rintro _ _ - ⟨rfl, rfl⟩
      refine Leads.bind (Q := fun u w' => w = w' ∧ u = v) (Leads.pure ⟨rfl, rfl⟩) ?_
      rintro v _ - ⟨rfl, rfl⟩
      refine Leads.bind (Leads.gets (Q := fun u w' => w = w' ∧ u = w.state.machine.val) ⟨rfl, rfl⟩) ?_
      rintro _ _ - ⟨rfl, rfl⟩
      refine Leads.bind (leads_cons (h.frame.args v hv) hval).stable.rigid ?_
      rintro list w₁ - ⟨hs, -, hlist, -⟩
      have h₁ := h.rigid hs ht
      refine Leads.bind (leads_setVal hlist.holds h₁.shows.above) ?_
      rintro _ w₂ - hm
      have hmachine : w₁.state.machine = w.state.machine := hs.machine rfl
      have h₂ := h₁.moved hm rfl
      rw [h₁.pc] at h₂
      refine (ih h₂ ?_ fun k hk => ?_).mono ?_
      · rw [hm.machine]
        exact hm.good hlist
      · obtain ⟨u, hu, hword⟩ := hwords k (Nat.lt_succ_of_lt hk)
        refine ⟨u, hu, ?_⟩
        rw [hm.machine, hmachine]
        exact hword
      · rintro _ w' - ⟨h', hval', u, hu⟩
        refine ⟨h', hval', u, ?_⟩
        rw [hu, hm.machine, hmachine]

theorem slots_replaceRest {m : Machine} {above extra lower : List Value} {v : Value}
    (h : m.slots = above ++ (extra ++ lower)) (hfp : m.fp - 3 = (extra ++ lower).length) :
    (m.replaceRest lower.length v).slots = above ++ v :: lower := by
  have habove : (m.stack.extract (m.fp - 3) m.stack.size).toList = above.reverse := by
    rw [hfp]
    exact Machine.extract_of_reverse h
  have hlower : (m.stack.shrink lower.length).toList.reverse = lower := by
    refine Machine.shrink_of_reverse (u := above ++ extra) ?_
    rw [List.append_assoc]
    exact h
  have hlower' := congrArg List.reverse hlower
  rw [List.reverse_reverse] at hlower'
  rw [Machine.slots, Machine.replaceRest, Array.toList_append, List.reverse_append, habove,
    Array.toList_push, hlower']
  simp

/-- The machine goes on at the body once the arguments past the required ones are in a list. -/
theorem leads_collectRest {least : Nat} (ht : mode.target = none)
    (h : Entering w o.state.machine f fs 1) (hleast : f.proc.least? = some least) :
    Leads (Calm mode d o) (collectRest least) w fun _ w' =>
      ∃ f', f'.back = f.back ∧ Stands w' o.state.machine (f' :: fs) := by
  obtain ⟨b, hb, hvariadic, hle⟩ := h.arity
  obtain ⟨-, hrequired⟩ := (h.frame.fitting hb).least least hleast
  rw [hrequired] at hle
  have hargc := h.argc
  have hfp : w.state.machine.fp = f.args.length + (slotsOf fs o.state.machine).length + 3 :=
    h.frame.fp
  have hops : f.ops = [] := by
    have hops := h.frame.ops
    rw [h.shape] at hops
    exact List.forall₂_nil_right_iff.1 hops
  -- the arguments past the required ones lie above the others
  have hslots : w.state.machine.slots = (f.env ++ f.saved) ++ (f.args.take (f.args.length - least) ++
      (f.args.drop (f.args.length - least) ++ slotsOf fs o.state.machine)) := by
    rw [h.shows.slots, slotsOf_cons, hops, Frame.below]
    conv_lhs => rw [← List.take_append_drop (f.args.length - least) f.args]
    simp only [List.nil_append, List.append_assoc]
  have hlower : (f.args.drop (f.args.length - least) ++ slotsOf fs o.state.machine).length
      = w.state.machine.fp - 3 - (w.state.machine.argc - least) := by
    rw [List.length_append, List.length_drop]
    omega
  unfold collectRest
  refine Leads.bind (Leads.gets (Q := fun m w' => w = w' ∧ m = w.state.machine) ⟨rfl, rfl⟩) ?_
  rintro _ _ - ⟨rfl, rfl⟩
  split
  · exact trivial
  dsimp only
  refine Leads.bind (leads_setVal (holds_nil _) h.shows.above) ?_
  rintro _ w₁ - hm
  have h₁ := h.moved hm rfl
  rw [h.pc] at h₁
  have hnil : w₁.Good w₁.state.machine.val := by
    rw [hm.machine]
    exact w₁.good_nil
  refine Leads.bind (leads_consArgs ht h₁ hnil fun k hk => ?_) ?_
  · have hk' : k < (f.args.take (f.args.length - least)).length := by
      rw [List.length_take]
      omega
    have hword : w.state.machine.stack[w.state.machine.fp - 3 - (w.state.machine.argc - least) + k]?
        = (f.args.take (f.args.length - least)).reverse[k]? := by
      have hlist : w.state.machine.stack.toList = (f.args.drop (f.args.length - least) ++
          slotsOf fs o.state.machine).reverse ++ ((f.args.take (f.args.length - least)).reverse ++
            (f.env ++ f.saved).reverse) := by
        rw [← List.reverse_reverse w.state.machine.stack.toList, ← Machine.slots, hslots]
        simp only [List.reverse_append, List.append_assoc]
      rw [← Array.getElem?_toList, hlist, List.getElem?_append_right (by
        rw [List.length_reverse, hlower]
        omega), List.length_reverse, hlower, Nat.add_sub_cancel_left,
        List.getElem?_append_left (by simpa using hk')]
    refine ⟨(f.args.take (f.args.length - least)).reverse.get ⟨k, by simpa using hk'⟩, ?_, ?_⟩
    · exact List.mem_of_mem_take (List.mem_reverse.1 (List.getElem_mem _))
    · rw [hm.machine]
      exact hword.trans (List.getElem?_eq_getElem _)
  rintro _ w₂ - ⟨h₂, hlist, v, hv⟩
  rw [hm.machine] at hv
  refine Leads.bind (Leads.gets (Q := fun full w' => w₂ = w' ∧ full = w₂.state.machine.isFull)
    ⟨rfl, rfl⟩) ?_
  rintro _ _ - ⟨rfl, rfl⟩
  split
  · exact Leads.fail _
  rename_i hroom
  have hslots₂ : w₂.state.machine.slots = _ := (congrArg Machine.slots hv).trans hslots
  have hfp₂ : w₂.state.machine.fp = w.state.machine.fp := by rw [hv]
  have hnew := slots_replaceRest (v := w₂.state.machine.val) hslots₂ (by
    rw [List.length_append, List.length_take, hlower, hfp₂]
    omega)
  rw [hlower] at hnew
  have hsize := congrArg List.length hslots₂
  have hsize' := congrArg List.length hnew
  simp only [Machine.length_slots, List.length_append, List.length_cons, hlower] at hsize hsize'
  refine (leads_move (u := w₂.state.machine.replaceRest
    (w.state.machine.fp - 3 - (w.state.machine.argc - least)) w₂.state.machine.val) rfl
    { w₂.takes with slots := fun u hu => ?_ } ⟨?_, h₂.shows.above.escapes⟩).mono ?_
  · rw [hnew] at hu
    rw [List.mem_append, List.mem_cons] at hu
    have hold := w₂.takes.slots u
    rw [hslots₂] at hold
    rcases hu with hu | rfl | hu
    · exact hold (List.mem_append_left _ hu)
    · exact hlist.holds
    · exact hold (List.mem_append_right _ (List.mem_append_right _ hu))
  · rw [hnew, slotsOf]
    exact ⟨(f.env ++ f.saved) ++ w₂.state.machine.val ::
      (f.args.drop (f.args.length - least) ++ fs.flatMap Frame.slots), by simp⟩
  · rintro _ w₃ - hm₃
    have hmachine := hm₃.machine
    have harrives : Arrives f.proc.sites 1 ⟨none, [], [], 0⟩ :=
      (h.frame.verified.safe 0 _ (Proc.sites_zero hleast)).2.2.2
    refine ⟨{ f with
      shape := ⟨none, [], [], 0⟩
      args := w₂.state.machine.val :: f.args.drop (f.args.length - least) }, rfl, .inl ⟨none,
      ⟨?_, ?_, ?_, ?_⟩, ⟨?_, ?_, rfl, hm₃.chained h₂.chained⟩, by simp, ?_⟩⟩
    · rw [hmachine, hnew, slotsOf_cons, hops, Frame.below]
      simp [Frame.saved]
    · rw [hmachine]
      exact h₂.shows.escapes
    · rw [hmachine]
      exact h₂.shows.bindings
    · rw [hmachine]
      have := h₂.shows.room
      have hlimit : (w₂.state.machine.replaceRest (w.state.machine.fp - 3
        - (w.state.machine.argc - least)) w₂.state.machine.val).limit = w₂.state.machine.limit := rfl
      rw [hsize', hlimit]
      simp only [Machine.isFull, Bool.and_eq_true, decide_eq_true_eq, not_and, Nat.not_le] at hroom
      rw [List.length_take] at hsize
      omega
    · have hok := h₂.frame
      have hconts : f.conts = [] := by
        have hconts := hok.conts
        rw [h.shape] at hconts
        exact established_nil hconts
      have hdyns : f.dyns = [] := by
        have hdyns := hok.dyns
        rw [h.shape] at hdyns
        exact List.eq_nil_of_length_eq_zero hdyns
      have hplace : w₃.state.machine.place = ⟨w₂.state.machine.code, 1,
          w.state.machine.fp - 3 - (w.state.machine.argc - least) + 4⟩ := by
        rw [hmachine, Machine.place]
        exact congrArg₂ _ h₂.pc rfl
      rw [hplace]
      refine ⟨hok.pos, by rw [hm₃.plans]; exact hok.plan, hok.code, hm₃.holds hok.holds, harrives,
        by rw [hops]; exact .nil, hok.env.imp fun _ _ => hm₃.isKind, fun u hu => ?_, hok.fits, ?_,
        by rw [hconts]; trivial, by rw [hdyns]; rfl⟩
      · rcases List.mem_cons.1 hu with rfl | hu
        · exact hm₃.good hlist
        · exact hm₃.good (hok.args u (List.mem_of_mem_drop hu))
      · simp only [List.length_cons, List.length_drop]
        omega
    · obtain ⟨b', hb', hvariadic', hle'⟩ := h₂.arity
      obtain ⟨-, hrequired'⟩ := (h₂.frame.fitting hb').least least hleast
      refine ⟨b', by rw [hm₃.heap]; exact hb', ?_⟩
      rw [List.length_cons, List.length_drop, Arity.slots]
      unfold Arity.isVariadic at hvariadic'
      rw [if_pos (by simpa using hvariadic'), hrequired']
      omega
    · rw [hmachine]
      exact h₂.native

end Frames

end CellLisp
