import CellLisp.Proofs.Machine.Invoke

/-!
# `CellLisp.Proofs.Machine.Neutral` — calls leave the frame that makes them alone

Whatever a procedure does that is called, be it calls of its own, tail calls, assignments or exits,
the words below its arguments are out of its reach.  As long as the frame at work is above them, one
of the frames on them goes back to the instruction behind the call (`Lodged`), and so, when control
is back there and not by an exit, the stacks are as the call has found them, but for the arguments
(`Run.call_neutral`).
-/

namespace CellLisp

/-- The call at `s` with `b` words below its arguments has come back: up to now the frame at work has
been above these words, and it is by no exit that it no longer is. -/
def State.Returns (s : State) (b : Nat) (s' : State) : Prop :=
  ∃ u, State.Climbs b s u ∧ u.Next s' ∧ s'.machine.fp ≤ b ∧
    ∀ ins, u.heap.instr? u.machine.code u.machine.pc = some ins → ins.op.exits = false

/-- The instruction behind the one that is to come next. -/
def Machine.behind (m : Machine) : Return := ⟨m.code, m.pc + 1, m.fp⟩

/-- The call at `s`, of what is in the value register, has its arguments on the words `below`. -/
structure State.Neutral (s : State) (below args : List Value) : Prop where
  stack : s.machine.stack.toList = below ++ args
  /-- The body of what is called begins on these words, with the arguments. -/
  begins : ∀ c s', s.heap.callee? s.machine.val = some c → s.Begins c s' →
    c.Begun s.machine.behind below args s'
  /-- They are there all the time. -/
  keeps : ∀ u, State.Climbs below.length s u → below <+: u.machine.stack.toList
  /-- When the call has come back they are all there is, and it goes on behind the call. -/
  returns : ∀ s', s.Returns below.length s' → s'.machine.stack.toList = below ∧
    s'.machine.place = s.machine.behind ∧ s'.machine.conts = s.machine.conts ∧
      s'.machine.dyns = s.machine.dyns

section Returning

variable {m : Mode} {d : Nat} {o w t : System} {pile fs : List Frame} {f : Frame} {r : Return}
  {args : List Value} {s' u : State}

/-- A frame that goes back to `r`, and is no longer above the others, has gone back there. -/
theorem Underway.returns (h : Underway m d o w pile) (hg : Ground m d o)
    (htame : ∀ s : State, s.permits false = true → s.Permits m o.state.machine)
    (hlodged : Lodged r (f :: fs) pile) (hnext : w.state.Next s')
    (hfp : s'.machine.fp ≤ (slotsOf (f :: fs) o.state.machine).length)
    (hexits : ∀ ins, w.heap.instr? w.state.machine.code w.state.machine.pc = some ins →
      ins.op.exits = false) :
    ∃ w', w'.state = s' ∧ Stands w' o.state.machine (f :: fs) ∧ w'.state.machine.place = r := by
  obtain ⟨ins, w', pile', hins, rfl, -, hunder, hadvances⟩ := h.next hg (htame _ hnext.permits) hnext.step
  rcases hlodged.advances hadvances with hstill | ⟨hplace, rfl⟩ | ⟨hexit, -⟩
  · exact absurd (hstill.lt_fp hunder.stands) (Nat.not_lt.2 hfp)
  · exact ⟨w', rfl, hunder.stands, hplace⟩
  · exact absurd (hexit.symm.trans (hexits ins hins)) (by decide)

/-- Where a frame is on top of others, their words are at the bottom of the stack. -/
theorem Lodged.isPrefix {base : Machine} (h : Lodged r fs pile) (hstands : Stands w base pile) :
    (slotsOf fs base).reverse <+: w.state.machine.stack.toList := by
  obtain ⟨gs, g, rfl, -⟩ := h
  rw [hstands.shows.toList_stack, slotsOf_append, slotsOf_cons, ← List.append_assoc,
    ← List.append_assoc, List.reverse_append]
  exact List.prefix_append _ _

/-- As long as the frame at work is above the older ones, the one that goes back to `r` is there. -/
theorem Invokes.climbs {s₁ : State} (h : Invokes m d o w t (f :: fs) r args) (hg : Ground m d o)
    (htame : ∀ s : State, s.permits false = true → s.Permits m o.state.machine)
    (hfirst : w.state.Next s₁) (habove : (slotsOf (f :: fs) o.state.machine).length < s₁.machine.fp)
    (hrest : State.Climbs (slotsOf (f :: fs) o.state.machine).length s₁ u) :
    ∃ w' pile', w'.state = u ∧ Underway m d o w' pile' ∧ Lodged r (f :: fs) pile' := by
  obtain ⟨gs, w₁, rfl, hunder, hentered⟩ := h.leads _ hfirst.step
  have hlodged : Lodged r (f :: fs) (gs ++ f :: fs) := by
    refine hentered.lodged ?_
    rintro rfl
    exact absurd habove (Nat.not_lt.2 hunder.stands.fp_le)
  obtain ⟨w', pile', hw', hunder', hlodged'⟩ := hunder.climbs hg htame hlodged hrest
  exact ⟨w', pile', hw', hunder', hlodged'.resolve_right nofun⟩

/-- A call that comes back does so to `r`, on the frames that have been there. -/
theorem Invokes.returns (h : Invokes m d o w t (f :: fs) r args) (hg : Ground m d o)
    (htame : ∀ s : State, s.permits false = true → s.Permits m o.state.machine)
    (hreturns : w.state.Returns (slotsOf (f :: fs) o.state.machine).length s') :
    ∃ w', w'.state = s' ∧ Stands w' o.state.machine (f :: fs) ∧ w'.state.machine.place = r := by
  obtain ⟨u, hclimbs, hnext, hfp, hexits⟩ := hreturns
  rcases Relation.ReflTransGen.cases_head hclimbs with rfl | ⟨s₁, ⟨hfirst, habove⟩, hrest⟩
  · -- it has come back at once
    obtain ⟨gs, w', rfl, hunder, hentered⟩ := h.leads _ hnext.step
    obtain rfl : gs = [] := by
      refine Classical.byContradiction fun hgs => ?_
      exact absurd ((hentered.lodged hgs).lt_fp hunder.stands) (Nat.not_lt.2 hfp)
    exact ⟨w', rfl, hentered.stands, hentered.place rfl⟩
  · obtain ⟨w', pile', rfl, hunder, hlodged⟩ := h.climbs hg htame hfirst habove hrest
    exact hunder.returns hg htame hlodged hnext hfp hexits

end Returning

section Runs

variable {o : System} {procedure : Value} {args : Array Value} {s : State} {ss : List State}
  {ins : Instr}

/-- Each call of a run leaves alone what is below its arguments. -/
theorem Run.call_neutral (h : Run procedure args o.state (s :: ss))
    (hl : Launch false o procedure args) (htame : ∀ u ∈ s :: ss, u.permits false = true)
    (hins : s.heap.instr? s.machine.code s.machine.pc = some ins) (hop : ins.op = .call) :
    ∃ below vs, vs.length = ins.modifier ∧ s.Neutral below vs := by
  have hs := htame s List.mem_cons_self
  obtain ⟨m, w, pile, rfl, hm, hg, hunder, hpermits⟩ :=
    h.exists_grounded hl fun u hu => htame u (List.mem_cons_of_mem _ hu)
  obtain ⟨f, fs, f', t, rfl, ⟨shape, rfl⟩, hlen, hinvokes⟩ :=
    hunder.invokes_call hg (hm ▸ hs) hins hop
  have hshows := hunder.stands.shows
  have hstack : w.state.machine.stack.toList
      = (slotsOf ({ f with shape, ops := f.ops.drop ins.modifier } :: fs) o.launched.state.machine).reverse
        ++ (f.ops.take ins.modifier).reverse := by
    rw [hshows.toList_stack, slotsOf_cons, slotsOf_cons, ← List.reverse_append]
    conv_lhs => rw [← List.take_append_drop ins.modifier f.ops]
    rw [List.append_assoc]
    rfl
  refine ⟨_, _, by rw [List.length_reverse, hlen], hstack, fun c s' => hinvokes.begun,
    fun u hclimbs => ?_, fun s' hreturns => ?_⟩
  · rw [List.length_reverse] at hclimbs
    rcases Relation.ReflTransGen.cases_head hclimbs with rfl | ⟨s₁, ⟨hfirst, habove⟩, hrest⟩
    · rw [hstack]
      exact List.prefix_append _ _
    · obtain ⟨w', pile', rfl, hunder', hlodged⟩ := hinvokes.climbs hg hpermits hfirst habove hrest
      exact hlodged.isPrefix hunder'.stands
  · rw [List.length_reverse] at hreturns
    obtain ⟨w', rfl, hstands, hplace⟩ := hinvokes.returns hg hpermits hreturns
    refine ⟨hstands.shows.toList_stack, hplace, ?_, ?_⟩
    · have hescapes := hstands.shows.escapes.trans hshows.escapes.symm
      exact Array.toList_inj.1 (List.reverse_injective hescapes)
    · have hbindings := hstands.shows.bindings.trans hshows.bindings.symm
      exact Array.toList_inj.1 (List.reverse_injective hbindings)

/-- A procedure calls another one that returns a number; what is on the stack for the first is there
again. -/
theorem Run.call_neutral_answered :
    ∃ (o : System) (procedure : Value) (args : Array Value) (s : State) (ss : List State)
      (below vs : List Value) (s' : State), Run procedure args o.state (s :: ss) ∧
        s.Neutral below vs ∧ s.Returns below.length s' ∧ s'.machine.val = .int 5 ∧
          s'.machine.stack = s.machine.stack := by
  let returns (s : State) (_ : List State) : Bool :=
    s.heap.instr? s.machine.code s.machine.pc == some ⟨.call, 0, .nil⟩ &&
      s.next?.any fun s₁ => s₁.permits false && decide (s.machine.stack.size < s₁.machine.fp) &&
        s₁.next?.any fun s₂ => s₂.permits false && decide (s.machine.stack.size < s₂.machine.fp) &&
          s₂.heap.instr? s₂.machine.code s₂.machine.pc == some ⟨.ret, 0, .nil⟩ &&
          s₂.next?.any fun s₃ => decide (s₃.machine.fp ≤ s.machine.stack.size) &&
            s₃.machine.val == .int 5
  obtain ⟨o, procedure, args, s, ss, hlaunch, hrun, htame, hreturns⟩ :=
    exists_run_loadPair Proc.loadable_answering Proc.loadable_applying 1 returns (by decide +kernel)
  simp only [returns, Bool.and_eq_true, beq_iff_eq, decide_eq_true_eq, Option.any_eq_true,
    State.next?_eq_some] at hreturns
  obtain ⟨hins, s₁, h₁, ⟨hp₁, hfp₁⟩, s₂, h₂, ⟨⟨hp₂, hfp₂⟩, hret⟩, s₃, h₃, hfp₃, hval⟩ := hreturns
  obtain ⟨below, vs, hlen, hneutral⟩ := Run.call_neutral hrun hlaunch htame hins rfl
  obtain rfl : vs = [] := List.eq_nil_of_length_eq_zero hlen
  have hstack : s.machine.stack.toList = below := by
    rw [hneutral.stack, List.append_nil]
  have hbelow : below.length = s.machine.stack.size := by
    rw [← hstack, Array.length_toList]
  have hback : s.Returns below.length s₃ := by
    rw [hbelow]
    refine ⟨s₂, .tail (.single ⟨⟨htame s List.mem_cons_self, h₁⟩, hfp₁⟩) ⟨⟨hp₁, h₂⟩, hfp₂⟩,
      ⟨hp₂, h₃⟩, hfp₃, fun ins hins' => ?_⟩
    obtain rfl := Option.some.inj (hret.symm.trans hins')
    rfl
  have hsame := (hneutral.returns s₃ hback).1
  exact ⟨o, procedure, args, s, ss, below, [], s₃, hrun, hneutral, hback, hval,
    Array.toList_inj.1 (hsame.trans hstack.symm)⟩

end Runs

end CellLisp
