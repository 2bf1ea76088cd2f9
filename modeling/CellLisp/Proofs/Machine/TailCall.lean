import CellLisp.Proofs.Machine.Invoke

/-!
# `CellLisp.Proofs.Machine.TailCall` — tail calls in the place of the frame that makes them

A tail call moves its arguments down over the frame that makes it, and what it calls has its frame
there (`State.InPlace`): on the same words, with the same place to go back to.  However many tail
calls follow each other, and whatever is called in between and comes back, the frame stays where it
is, and it has as many words as the procedure called last wants (`State.TailChain`).  So much holds
for every tail call of a run (`Run.tailCall_inPlace`).
-/

namespace CellLisp

/-- The body of `c` begins after `n + 1` tail calls: the first of them at `s`, and each other one in
the frame on `b` words in which the procedure called before it works. -/
inductive State.TailChain (s : State) (b : Nat) : Nat → Callee → State → Prop
  | one {c : Callee} {s' : State} : s.heap.callee? s.machine.val = some c → s.Begins c s' →
      TailChain s b 0 c s'
  | more {n : Nat} {c c' : Callee} {s₁ s₂ s' : State} {ins : Instr} {r : Return} :
      TailChain s b n c s₁ → State.Climbs b s₁ s₂ →
      s₂.heap.instr? s₂.machine.code s₂.machine.pc = some ins → ins.op = .tailCall →
      s₂.frame? = some (r, b) → s₂.heap.callee? s₂.machine.val = some c' → s₂.Begins c' s' →
      TailChain s b (n + 1) c' s'

/-- The tail call at `s` gives up a frame on the words `below` that goes back to `r`. -/
structure State.InPlace (s : State) (r : Return) (below args : List Value) : Prop where
  frame : s.frame? = some (r, below.length)
  stack : ∃ own, s.machine.stack.toList = below ++ (own ++ args)
  /-- The body of what is called begins in its place. -/
  begins : ∀ c s', s.heap.callee? s.machine.val = some c → s.Begins c s' → c.Begun r below args s'
  /-- It does begin if there is room for its frame; to collect arguments there may be too few cells. -/
  reaches : ∀ c, s.heap.callee? s.machine.val = some c → c.arity.accepts args.length = true →
    below.length + c.room args.length ≤ s.machine.limit →
      (∃ s', s.Begins c s') ∨ c.arity.isVariadic = true ∧
        ∃ s₁ s', s.Next s₁ ∧ step s₁ = .error (.fatal .cellsExhausted) s'
  /-- A built-in procedure that works on the arguments goes back to `r`. -/
  serves : ∀ i n v t, s.machine.val = .ref .native i → s.heap.cell i = .native n →
    n.arity.accepts args.length = true →
    Builtin.apply n.procedure args { s with machine :=
      (s.machine.slide below.length args.length).serving s.machine.val r } = .ok v t →
      ∃ s', s.Next s' ∧ s'.machine.stack.toList = below ∧ s'.machine.place = r ∧
        s'.machine.val = v
  /-- It is in its place after any number of tail calls. -/
  chain : ∀ n c s', s.TailChain below.length n c s' → ∃ args', c.Begun r below args' s'

section Chains

variable {m : Mode} {d : Nat} {o w t : System} {pile fs : List Frame} {r : Return} {n : Nat}
  {args : List Value} {c : Callee} {s' : State} {ins : Instr}

/-- The frame at work is the one that goes back to `r` if there are no other words below it. -/
theorem Lodged.head {f : Frame} {gs : List Frame} {o : Machine} (h : Lodged r fs (f :: gs))
    (hlength : (slotsOf gs o).length = (slotsOf fs o).length) : gs = fs ∧ f.back = r := by
  obtain ⟨hs, g, he, hback⟩ := h
  cases hs with
  | nil =>
      obtain ⟨rfl, rfl⟩ := List.cons.inj he
      exact ⟨rfl, hback⟩
  | cons h hs =>
      obtain ⟨rfl, rfl⟩ := List.cons.inj he
      have hlodged : Lodged r fs (hs ++ g :: fs) := ⟨hs, g, rfl, hback⟩
      exact absurd hlength (Nat.ne_of_gt (hlodged.length_lt o))

/-- After each tail call the frame that goes back to `r` is there, on the same words. -/
theorem Invokes.chain (h : Invokes m d o w t fs r args) (hg : Ground m d o)
    (htame : ∀ s : State, s.permits false = true → s.Permits m o.state.machine)
    (hchain : w.state.TailChain (slotsOf fs o.state.machine).length n c s') :
    ∃ w' pile' args', w'.state = s' ∧ Underway m d o w' pile' ∧ Lodged r fs pile' ∧
      c.Begun r (slotsOf fs o.state.machine).reverse args' s' := by
  induction hchain with
  | one hc hbegins =>
      obtain ⟨w', pile', hw', hunder, hlodged⟩ := h.lodged hg htame hc hbegins
      exact ⟨w', pile', _, hw', hunder, hlodged, h.begun hc hbegins⟩
  | more _ hclimbs hins hop hframe hc hbegins ih =>
      obtain ⟨w₁, pile₁, _, rfl, hunder₁, hlodged₁, -⟩ := ih
      obtain ⟨w₂, pile₂, rfl, hunder₂, hlodged₂⟩ := hunder₁.climbs hg htame hlodged₁ hclimbs
      obtain ⟨f, gs, t₂, rfl, hframe₂, -, -, h₂⟩ :=
        hunder₂.invokes_tailCall hg (htame _ hbegins.permits).tame hins hop
      have hlength := (Prod.mk.inj (Option.some.inj (hframe₂.symm.trans hframe))).2
      -- the tail call gives up the frame that the ones before it have led to
      have hlodged : Lodged r fs (f :: gs) := hlodged₂.resolve_right nofun
      obtain ⟨rfl, rfl⟩ := hlodged.head hlength
      obtain ⟨w', pile', hw', hunder, hlodged'⟩ := h₂.lodged hg htame hc hbegins
      exact ⟨w', pile', _, hw', hunder, hlodged', h₂.begun hc hbegins⟩

end Chains

section Runs

variable {o : System} {procedure : Value} {args : Array Value} {s : State} {ss : List State}
  {ins : Instr}

/-- Each tail call of a run has what it calls take the place of the frame that makes it, with the
arguments that are on top of the stack. -/
theorem Run.tailCall_inPlace (h : Run procedure args o.state (s :: ss))
    (hl : Launch false o procedure args) (htame : ∀ u ∈ s :: ss, u.permits false = true)
    (hins : s.heap.instr? s.machine.code s.machine.pc = some ins) (hop : ins.op = .tailCall) :
    ∃ r below vs, vs.length = ins.modifier ∧ s.InPlace r below vs := by
  have hs := htame s List.mem_cons_self
  obtain ⟨m, w, pile, rfl, hm, hg, hunder, hpermits⟩ :=
    h.exists_grounded hl fun u hu => htame u (List.mem_cons_of_mem _ hu)
  obtain ⟨f, fs, t, rfl, hframe, hlen, ht, hinvokes⟩ :=
    hunder.invokes_tailCall hg (hm ▸ hs) hins hop
  have hbase : (slotsOf fs o.launched.state.machine).reverse.length
      = (slotsOf fs o.launched.state.machine).length := List.length_reverse
  have hargs : (f.ops.take ins.modifier).reverse.length = ins.modifier := by
    rw [List.length_reverse, hlen]
  refine ⟨f.back, (slotsOf fs o.launched.state.machine).reverse, (f.ops.take ins.modifier).reverse,
    hargs, ?_⟩
  refine ⟨?_, ?_, fun c s' => hinvokes.begun, fun c hc haccepts hroom => ?_,
    fun i n v u hval hn haccepts happly => ?_, fun n c s' hchain => ?_⟩
  · rw [hbase]
    exact hframe
  · refine ⟨f.below.reverse ++ (f.ops.drop ins.modifier).reverse, ?_⟩
    rw [hunder.stands.shows.toList_stack, slotsOf_cons]
    conv_lhs => rw [← List.take_append_drop ins.modifier f.ops]
    simp only [List.reverse_append, List.append_assoc]
  · rw [List.length_reverse] at haccepts hroom
    rw [List.length_reverse] at hroom
    exact hinvokes.reaches hs hc haccepts hroom
  · rw [List.length_reverse] at haccepts
    obtain ⟨s', hstep, hstack, hplace, hv⟩ := hinvokes.serves hval hn haccepts (by
      rw [ht]
      rw [hbase, hargs] at happly
      exact happly)
    exact ⟨s', ⟨hs, hstep⟩, hstack, hplace, hv⟩
  · rw [hbase] at hchain
    obtain ⟨-, -, args', -, -, -, hbegun⟩ := hinvokes.chain hg hpermits hchain
    exact ⟨args', hbegun⟩

/-- A procedure that takes one argument and more is called with two of them in the place of another
one, and collects the second. -/
theorem Run.tailCall_inPlace_collecting :
    ∃ (o : System) (procedure : Value) (args : Array Value) (s : State) (ss : List State)
      (r : Return) (below vs : List Value) (c : Callee) (s' : State),
      Run procedure args o.state (s :: ss) ∧ s.InPlace r below vs ∧ vs.length = 2 ∧
        s.heap.callee? s.machine.val = some c ∧ c.arity.isVariadic = true ∧ s.Begins c s' ∧
        c.Begun r below vs s' := by
  let collects (s : State) (_ : List State) : Bool :=
    s.heap.instr? s.machine.code s.machine.pc == some ⟨.tailCall, 2, .nil⟩ &&
      (s.heap.callee? s.machine.val).any (·.arity.isVariadic) &&
      s.next?.any fun s₁ => s₁.permits false && s₁.next?.any fun _ => true
  obtain ⟨o, procedure, args, s, ss, hlaunch, hrun, htame, hcollects⟩ :=
    exists_run_loadPair Proc.loadable_gathering Proc.loadable_passing 5 collects (by decide +kernel)
  simp only [collects, Bool.and_eq_true, beq_iff_eq, Option.any_eq_true,
    State.next?_eq_some] at hcollects
  obtain ⟨⟨hins, c, hc, hvariadic⟩, s₁, hstep, hpermits, s', hcollect, -⟩ := hcollects
  have hbegins : s.Begins c s' :=
    .collecting hvariadic ⟨htame s List.mem_cons_self, hstep⟩ ⟨hpermits, hcollect⟩
  obtain ⟨r, below, vs, hlen, hplace⟩ := Run.tailCall_inPlace hrun hlaunch htame hins rfl
  exact ⟨o, procedure, args, s, ss, r, below, vs, c, s', hrun, hplace, hlen, hc, hvariadic, hbegins,
    hplace.begins c s' hc hbegins⟩

end Runs

end CellLisp
