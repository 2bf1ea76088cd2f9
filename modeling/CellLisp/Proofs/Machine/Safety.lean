import CellLisp.Proofs.Code.Depth
import CellLisp.Proofs.Machine.Answer
import CellLisp.Proofs.Machine.Owned

/-!
# `CellLisp.Proofs.Machine.Safety` — compiled code is stack safe

In every state of a run the newest frame is laid out as the scope says that the compiler had when it
emitted the instruction that comes next (`State.InFrame`), and so the instruction finds what it
takes (`State.Finds`):

| instruction | finds |
| :-- | :-- |
| `stackRef`, `stackSet` | a slot of the frame |
| `envRef`, `envSet`, `envExit` | an array in a slot of the frame, longer than the index |
| `drop`, `makeArray`, `call`, `tailCall` | so many operands |
| `contRef`, `exit` | a continuation that the frame has established |
| `dynUnbind` | so many bindings that the frame has made |

The frame begins at its arguments, `argSlots` of them and three saved words below the frame pointer.
Those of a unit have no place in its scope, so its frame begins at the saved words.
-/

namespace CellLisp

/-- Arguments that the scope of a procedure has places for. -/
def Proc.argSlots (p : Proc) : Nat := p.fixed.count .any

/-- Where the frame at work begins, if it is one of a procedure. -/
def Machine.frameBase (m : Machine) (p : Proc) : Int := m.fp - 3 - p.argSlots

/-- What an instruction takes is there, in a frame of so many slots of which `fixed` lie below its
operands. -/
def State.Finds (s : State) (past : List State) (fixed slots : Nat) (ins : Instr) : Prop :=
  match ins.op with
  | .stackRef | .stackSet => ins.modifier < slots
  | .envRef | .envSet | .envExit => ins.modifier < slots ∧ ∃ (env : Value) (size index : Nat),
      s.machine.top? ins.modifier = some env ∧ s.heap.IsArray env size ∧
        ins.operand = .ofInt index ∧ index < size
  | .drop | .makeArray | .call | .tailCall => fixed + ins.modifier ≤ slots
  | .contRef | .exit => ∃ n, n + ins.modifier + 1 = s.machine.conts.size ∧
      s.Owns past (·.machine.conts) .withCont n
  | .dynUnbind => ins.modifier ≤ s.machine.dyns.size ∧ ∀ n, s.machine.dyns.size ≤ n + ins.modifier →
      n < s.machine.dyns.size → s.Owns past (·.machine.dyns) .dynBind n
  | _ => True

/-- The frame at work is one of the procedure `p`, about to carry out the instruction of a site. -/
structure State.InFrame (s : State) (past : List State) (record : Bytecode) (p : Proc) (site : Site) :
    Prop where
  /-- The code at work is that of the procedure. -/
  listing : s.heap.listing? s.machine.code = some (record, p.instrs.toArray)
  fits : p.Fits record.arity
  /-- Its arguments have places in the scope, but for those of a unit. -/
  args : p.argSlots = record.arity.slots ∨ p.argSlots = 0 ∧ p.least? = none
  /-- The program counter is inside the code. -/
  comes : p.sites[s.machine.pc]? = some site
  /-- The frame has as many slots as the scope says. -/
  depth : s.machine.stack.size - s.machine.frameBase p = site.scope.depth
  finds : s.Finds past p.scope.depth site.scope.depth site.instr

/-- How many slots the frame has follows from its procedure's arguments and copies, and from the
instructions in front of the one that comes next. -/
theorem State.InFrame.depth_eq {s : State} {past : List State} {record : Bytecode} {p : Proc}
    {site : Site} (h : s.InFrame past record p site) :
    s.machine.stack.size - s.machine.frameBase p
      = ((p.instrs.take s.machine.pc).foldl (fun slots ins => ins.leaves slots) p.scope.depth : Nat) := by
  rw [h.depth, Proc.depth_eq h.fits.body h.comes]

/-- The operand stack is within its limit, and a frame is as its code expects it, unless the run
has come back to the code that every run returns into. -/
structure State.StackSafe (s : State) (past : List State) : Prop where
  room : s.machine.stack.size ≤ s.machine.limit
  framed : (s.machine.code = s.known.halt ∧ s.machine.pc = 0 ∧ ∃ ins,
      s.heap.instr? s.machine.code 0 = some ins ∧ ins.op = .halt) ∨
    ∃ record p site, s.InFrame past record p site

/-! ## Frames -/

section Frames

variable {w : System} {o : Machine} {fs : List Frame} {f : Frame} {r : Return} {site : Site}
  {m n : Nat} {a : Arity} {p : Proc}

theorem Proc.depth_scope (p : Proc) : p.scope.depth = p.fixed.length :=
  (models_flatMap_kinds p.scope.copies p.scope.entries).depth

/-- The words below the operands of a frame: the environment, if there is one, three saved words and
the arguments. -/
theorem Proc.Fits.argSlots_eq (h : p.Fits a) :
    p.fixed.length = (if p.copies = 0 then 0 else 1) + 3 + p.argSlots ∧
      (p.argSlots = a.slots ∨ p.argSlots = 0 ∧ p.least? = none) := by
  obtain ⟨n, hfixed, hn⟩ := h.fixed
  have hslots : p.argSlots = n := by
    unfold Proc.argSlots
    rw [hfixed, frameKinds]
    split <;> simp
  rw [hslots, hfixed, frameKinds]
  refine ⟨?_, hn⟩
  split <;> simp <;> omega

/-- The slots of the newest frame above its frame pointer are its operands and its environment. -/
theorem Stands.size_eq (h : Stands w o (f :: fs)) :
    w.state.machine.stack.size = f.ops.length + f.env.length + w.state.machine.fp := by
  have hsize := congrArg List.length h.shows.slots
  have hfp := h.fp_eq
  rw [Machine.length_slots, slotsOf_cons] at hsize
  simp only [Frame.below, Frame.saved, Frame.base, List.length_append, List.length_cons,
    List.length_nil] at hsize hfp
  omega

/-- The newest frame has as many slots as the scope says of the instruction that comes next. -/
theorem Stands.depth_eq (h : Stands w o (f :: fs)) (hs : f.proc.sites[w.state.machine.pc]? = some site) :
    w.state.machine.stack.size - w.state.machine.frameBase f.proc = site.scope.depth := by
  have hok := h.exists_place.1
  obtain ⟨-, b, hb⟩ := hok.exists_bytecode
  obtain ⟨s, hs', hforget, -⟩ := hok.at_site
  obtain rfl := Option.some.inj (hs.symm.trans hs')
  have hops : site.shape.ops = f.shape.ops := (Shape.mk.inj hforget).2.1
  have hdepth := hok.verified.depth site (List.mem_of_getElem? hs)
  have henv := hok.env.length_eq
  have hsize := h.size_eq
  have hfixed := (hok.fitting hb).argSlots_eq.1
  rw [hops, ← hok.length_ops, hfixed] at hdepth
  unfold Machine.frameBase
  split at henv <;> split at hdepth <;> simp_all <;> omega

/-- A slot of the newest frame that its code counts on. -/
theorem FrameOk.exists_top (h : FrameOk w o fs r f) (hfull : f.Full w)
    (hshows : Shows w.state.machine (f :: fs) o) {k : Kind}
    (hk : (f.shape.ops ++ f.proc.fixed)[m]? = some k) (hne : k ≠ .saved) :
    ∃ v, w.state.machine.top? m = some v ∧ w.IsKind v k := by
  obtain ⟨v, hv, hkind⟩ := h.exists_slot hfull hk hne
  refine ⟨v, ?_, hkind⟩
  rw [Machine.top?_eq, hshows.slots, slotsOf, List.flatMap_cons, List.append_assoc,
    List.getElem?_append_left (List.getElem?_eq_some_iff.1 hv).1]
  exact hv

end Frames

/-! ## Runs -/

section Run

variable {m : Mode} {d : Nat} {o w : System} {fs pile : List Frame} {f : Frame} {site : Site}
  {procedure : Value} {args : Array Value} {s : State} {ss : List State} {n : Nat}

/-- A continuation that the newest frame has established is its own. -/
theorem Run.owns_newest (h : Run procedure args o.state (w.state :: ss))
    (hl : Launch m.pairs o procedure args) (hg : Ground m d o.launched)
    (hpermits : ∀ u ∈ ss, u.Permits m o.launched.state.machine)
    (hunder : Underway m d o.launched w (f :: fs)) (hn : n < f.shape.labels.length) :
    ∃ k, k + n + 1 = w.state.machine.conts.size ∧ w.state.Owns ss (·.machine.conts) .withCont k := by
  have hok := hunder.stands.exists_place.1
  obtain ⟨v, i, k, hv, rfl, hcell, hcode, hfp⟩ := hok.conts.exists_cont hn
  have hescapes : w.state.machine.cont? n = some (.ref .object i) := by
    rw [Machine.cont?_eq, hunder.stands.shows.escapes, escapesOf_cons,
      List.getElem?_append_left (List.getElem?_eq_some_iff.1 hv).1]
    exact hv
  unfold Machine.cont? at hescapes
  split at hescapes
  · rename_i hlt
    exact ⟨_, by omega, h.owns_cont hl hg hpermits hescapes hcell hcode hfp⟩
  · cases hescapes

/-- The newest frame has made all the dynamic bindings that its code undoes. -/
theorem Underway.modifier_le_dyns {ins : Instr} (h : Underway m d o w (f :: fs)) (hg : Ground m d o)
    (hins : w.heap.instr? w.state.machine.code w.state.machine.pc = some ins)
    (hop : ins.op = .dynUnbind) : ins.modifier ≤ f.dyns.length := by
  rcases h.stands.exists_site (hg.halts.stable h.ran.stable hg.target) hins with
    ⟨he, -⟩ | ⟨_, _, site, he, hok, hsite, rfl, hdyns⟩
  · cases he
  obtain ⟨rfl, rfl⟩ := List.cons.inj he
  have hsafe := hok.verified.safe _ site hsite
  unfold Site.Safe at hsafe
  simp only [hop] at hsafe
  exact hdyns ▸ hsafe.1

theorem Shows.size_dyns {machine base : Machine} (h : Shows machine (f :: fs) base) :
    machine.dyns.size = f.dyns.length + (bindingsOf fs base).length := by
  rw [← Machine.length_bindings, h.bindings, bindingsOf_cons, List.length_append]

/-- The instruction that comes next finds what it takes. -/
theorem Run.finds (h : Run procedure args o.state (w.state :: ss))
    (hl : Launch m.pairs o procedure args) (hg : Ground m d o.launched)
    (hpermits : ∀ u ∈ ss, u.Permits m o.launched.state.machine)
    (hunder : Underway m d o.launched w (f :: fs))
    (hsite : f.proc.sites[w.state.machine.pc]? = some site) :
    w.state.Finds ss f.proc.scope.depth site.scope.depth site.instr := by
  have hok := hunder.stands.exists_place.1
  obtain ⟨s, hs, hforget, -⟩ := hok.at_site
  obtain rfl := Option.some.inj (hsite.symm.trans hs)
  obtain ⟨-, hops, hlabels, hdyns⟩ := Shape.mk.inj hforget
  have hsafe := hok.verified.safe _ site hsite
  have hdepth := hok.verified.depth site (List.mem_of_getElem? hsite)
  have hslot {k : Kind} {x : Nat} (hk : (site.shape.ops ++ f.proc.fixed)[x]? = some k) :
      x < site.scope.depth := by
    rw [hdepth, ← List.length_append]
    exact (List.getElem?_eq_some_iff.1 hk).1
  rcases hunder.stands with ⟨val?, hat⟩ | ⟨g, gs, he, hentering⟩
  · have harray {n x : Nat} (hk : (site.shape.ops ++ f.proc.fixed)[x]? = some (.env n)) :
        ∃ env, w.state.machine.top? x = some env ∧ w.heap.IsArray env n := by
      rw [hops] at hk
      obtain ⟨env, htop, -, henv⟩ := hok.exists_top hat.chained.2.1 hat.shows hk nofun
      exact ⟨env, htop, henv⟩
    unfold Site.Safe at hsafe
    unfold State.Finds
    cases hop : site.instr.op with
    | stackRef | stackSet =>
        simp only [hop] at hsafe
        exact hslot hsafe.1
    | envRef | envSet | envExit =>
        simp only [hop] at hsafe
        obtain ⟨⟨n, j, hk, hx, hj⟩, -⟩ := hsafe
        obtain ⟨env, htop, henv⟩ := harray hk
        exact ⟨hslot hk, env, n, j, htop, henv, hx, hj⟩
    | drop | makeArray =>
        simp only [hop] at hsafe
        have := hsafe.1
        simp only [Proc.depth_scope]
        omega
    | tailCall =>
        simp only [hop] at hsafe
        have := hsafe.2.1
        simp only [Proc.depth_scope]
        omega
    | call =>
        simp only [hop] at hsafe
        simp only [Proc.depth_scope]
        rcases hsafe with ⟨-, hle, -⟩ | ⟨-, htwo, _, _, hmaker, -⟩
        · omega
        · rw [hmaker] at hdepth
          simp only [List.length_cons] at hdepth
          omega
    | contRef | exit =>
        simp only [hop] at hsafe
        exact h.owns_newest hl hg hpermits hunder (hlabels ▸ hsafe.1)
    | dynUnbind =>
        have hins := hok.instr? hsite
        have hbelow {v : System} {g : Frame} {gs : List Frame} (hv : v.state = w.state)
            (hunder : Underway m d o.launched v (g :: gs)) : site.instr.modifier ≤ g.dyns.length :=
          hunder.modifier_le_dyns hg (by rw [System.heap, hv]; exact hins) hop
        have hsize := hunder.stands.shows.size_dyns
        refine ⟨by have := hbelow rfl hunder; omega, fun n hlow hn => ?_⟩
        refine h.owns_binding hl hg hpermits hn fun v g gs hv hunder' => ?_
        have hsize' := hunder'.stands.shows.size_dyns
        have := hbelow hv hunder'
        rw [hv] at hsize'
        omega
    | _ => trivial
  · obtain ⟨rfl, rfl⟩ := List.cons.inj he
    obtain ⟨least, -, hfirst⟩ := hentering.exists_least
    rw [hentering.pc] at hsite
    obtain rfl := Option.some.inj (hsite.symm.trans hfirst)
    trivial

/-- Every state of a run is stack safe, as long as compiled code alone joins code to copies. -/
theorem Run.stackSafe (h : Run procedure args o.state (s :: ss))
    (hl : Launch false o procedure args) (htame : ∀ u ∈ ss, u.permits false = true) :
    s.StackSafe ss ∧ s.machine.limit = o.state.machine.limit := by
  obtain ⟨m, w, pile, rfl, hm, hg, hunder, hpermits⟩ := h.exists_grounded hl htame
  have hs := hunder.ran.stable
  refine ⟨⟨hunder.stands.shows.room, ?_⟩, hs.bound⟩
  cases pile with
  | nil =>
      obtain ⟨_, hat⟩ := hunder.stands.resolve_right fun ⟨_, _, he, _⟩ => nomatch he
      obtain ⟨hcode, hpc, -⟩ := hat.chained
      obtain ⟨ins, hins, hop⟩ := (hg.halts.stable hs hg.target).instr?
      refine .inl ⟨hcode, hpc, ins, ?_, hop⟩
      rw [show w.state.machine.code = _ from hcode]
      exact hins
  | cons f fs =>
      obtain ⟨hok, site, hsite, -⟩ := hunder.stands.exists_place
      obtain ⟨hcell, b, hb⟩ := hok.exists_bytecode
      obtain ⟨hfits, hinstrs⟩ := System.code_of_plan hok.plan hb
      refine .inr ⟨b, f.proc, site, ?_, hfits, hfits.argSlots_eq.2, hsite,
        hunder.stands.depth_eq hsite,
        h.finds (hm ▸ hl) hg (fun u hu => hpermits u (htame u hu)) hunder hsite⟩
      unfold Heap.listing? Heap.bytecode?
      simp only [show w.state.machine.code.cell? = _ from hcell,
        show w.state.heap.cell f.cell = _ from hb, Option.map_some]
      rw [show w.state.heap.instrs b = _ from hinstrs]

end Run

end CellLisp
