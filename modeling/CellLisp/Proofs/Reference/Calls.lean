import CellLisp.Proofs.Machine.Invoke
import CellLisp.Proofs.Reference.Continuations

/-!
# `CellLisp.Proofs.Reference.Calls` — calls and returns

A call and a tail call differ in what waits while the procedure that has been called is at work
(`Stage.Waits`): the frame that the call is made in, or those below it.  In both cases
(`Stage.Calls`)

| the value that is called | |
| :-- | :-- |
| a procedure that takes the arguments | is at work in a frame of its own, with what it gets |
| a built-in procedure that takes them | has done its work |
| anything else | the call fails |

and where the procedure returns, what has waited goes on.
-/

namespace CellLisp

/-! ## Room for a frame -/

section Room

variable {s : State} {procedure code : Value} {env? : Option Value} {b : Bytecode} {argc : Nat}
  {r : Return}

theorem gives_pushed (v : Value) (s : State) :
    Gives (· = .stackExhausted) (push v) s fun _ s' => s' = s.withWords [v] := by
  cases hfull : s.machine.isFull with
  | false => exact .of_eq_ok rfl (push_of_room hfull)
  | true =>
      have hfails : push v s = (fail .stackExhausted : Act Unit) s := by
        unfold push
        rw [act_bind, act_gets]
        simp only [hfull]
        rfl
      exact .congr (Gives.fail rfl) hfails

/-- Compiled code that takes the arguments is entered, unless the stack is full. -/
theorem gives_enterCode (hb : s.heap.bytecode? code = some b)
    (haccepts : b.arity.accepts argc = true) :
    Gives (· = .stackExhausted) (enterCode procedure code env? argc r) s fun _ s' =>
      s' = { s with machine := s.machine.entered code env? argc r } := by
  have hends : Gives (· = .stackExhausted) (enterCode procedure code env? argc r) s fun _ _ =>
      True := by
    unfold enterCode
    have hcode : Gives (· = .stackExhausted) (bytecodeOf code) s fun b' s' => b' = b ∧ s' = s :=
      .of_eq_ok ⟨rfl, rfl⟩ (bytecodeOf_of_some hb)
    refine .bind hcode ?_
    rintro b' s' ⟨rfl, rfl⟩
    have harity : Gives (· = .stackExhausted) (checkArity b'.arity argc (·.procName procedure)) s'
        fun _ _ => True := .of_eq_ok trivial (checkArity_of_accepts haccepts _)
    refine .bind harity fun _ t _ => ?_
    refine .bind (gives_pushed r.code t) fun _ t _ => .bind (gives_pushed (.ofInt r.pc) t) fun _ t _ =>
      .bind (gives_pushed (.ofInt r.fp) t) fun _ t _ =>
        .bind (.modify (Q := fun _ _ => True) trivial) fun _ t _ => ?_
    cases env? with
    | none => exact .modify trivial
    | some e => exact .bind (gives_pushed e t) fun _ t _ => .modify trivial
  exact hends.with_ok.mono fun _ s' h => (enterCode_ok h.2).1

/-- As many arguments as are required. -/
theorem Comp.ArityFor.le_of_accepts {arity : Arity} {fixed : Nat} {variadic : Bool}
    (h : Comp.ArityFor arity fixed variadic) (haccepts : arity.accepts argc = true) : fixed ≤ argc := by
  cases variadic with
  | false => exact Nat.le_of_eq (h.slots.symm.trans (Arity.slots_of_fixed h.isVariadic haccepts).symm)
  | true =>
      rw [← h.required]
      exact (Arity.slots_of_variadic h.isVariadic haccepts).1

/-- The arguments past the required ones are put in a list, unless a store or the stack is full. -/
theorem gives_collectRest {A above args lower : List Value} {least : Nat} (hw : s.WellFormed none)
    (hcollects : s.machine.Collects above args lower) (hleast : least ≤ args.length)
    (hA : ∀ w, A ⊆ (s.withVal w).rootValues) :
    Gives (· = .stackExhausted) (collectRest least) s fun _ s' =>
      ∃ w s₁, (s.withVal .nil).Gathered A { s.machine with val := w }
          (args.take (args.length - least)).reverse w s₁ ∧
        s' = { s₁ with machine :=
          s₁.machine.replaceRest (s.machine.fp - 3 - (s.machine.argc - least)) s₁.machine.val } := by
  by_cases hroom : args.length = least → s.machine.stack.size < s.machine.limit
  · have hends := hw.gives_collectRest hcollects hleast hroom hA
    unfold Gives at hends ⊢
    split at hends
    · exact hends
    · exact hends.elim
    · exact hends
  · obtain ⟨rfl, hfull⟩ := Classical.not_imp.1 hroom
    obtain ⟨hslots, hargc, hfp⟩ := hcollects
    have hsize := congrArg List.length hslots
    simp only [Machine.length_slots, List.length_append] at hsize hfp
    have hchecks : (s.machine.argc < args.length || s.machine.fp < 3 + (s.machine.argc - args.length)
        || s.machine.stack.size + 3 < s.machine.fp) = false := by
      simp only [Bool.or_eq_false_iff, decide_eq_false_iff_not]
      omega
    have hfails : collectRest args.length s
        = (fail .stackExhausted : Act Unit) (s.withVal .nil) := by
      have hno : s.machine.argc - args.length = 0 := by omega
      have hisFull : (s.withVal .nil).machine.isFull = true := decide_eq_true (Nat.not_lt.1 hfull)
      unfold collectRest
      rw [act_bind, act_gets]
      simp only [hchecks, Bool.false_eq_true, if_false]
      simp only [hno, consArgs, setVal, modifyMachine, act_bind, act_modify]
      change (if (decide True && (s.withVal .nil).machine.isFull) = true then do
          fail .stackExhausted
          _
        else _ : Act Unit) (s.withVal .nil) = _
      rw [hisFull]
      rfl
    exact .of_eq (Gives.fail rfl) hfails

end Room

namespace Reference

namespace Env

theorem frame_eq (E : Env) (n : Nat) (array : Option Value) (saved : List Value) :
    E.frame array saved = E.operands n ++ (E.drop n).frame array saved := by
  rw [frame, frame, E.words_eq n, List.append_assoc]
  rfl

end Env

/-- A step that goes back below the newest frame leaves the frames below it. -/
theorem Lodged.goes_back {op : Opcode} {place r : Return} {fs pile pile' : List Frame} {o : Machine}
    (h : Lodged r fs pile) (hadvances : Advances op place pile pile') (hexits : op.exits = false)
    (hsize : (slotsOf pile' o).length ≤ (slotsOf fs o).length) : pile' = fs ∧ place = r := by
  rcases h.advances hadvances with hlodged | ⟨hplace, hpile⟩ | ⟨hop, -⟩
  · exact absurd (hlodged.length_lt o) (Nat.not_lt.2 hsize)
  · exact ⟨hpile, hplace⟩
  · rw [hexits] at hop
    cases hop

theorem Course.Comes.booked {C : Course} {w : System} {pile : List Frame} {book book' : Book}
    {s : State} (h : C.Comes w pile) (hb : Booked w.state book) (hpermits : w.state.permits false = true)
    (hstep : step w.state = .ok false s) (hescapes : s.machine.escapes = book'.map (·.1))
    (hbook : book' ⊆ book) : Booked s book' := by
  obtain ⟨ins, w', pile', -, rfl, hstepped, -, -⟩ := h.next C.ground (C.tame _ hpermits) hstep
  exact hb.cont (fun v hv => w.wellFormed.holds_of_conts hv) hstepped.toTraced hescapes
    fun p hp => .inl (hbook hp)

namespace Stage

variable {C : Course} {S S' : Stage C} {book : Book} {E E' : Env} {s : Scope} {k : Kind}
  {pc n : Nat} {f v c : Value} {t : State} {w u : System} {fs : List Frame} {r : Return} {tail : Bool}

/-! ## What waits -/

/-- Where a procedure comes back to, the run finishes. -/
def Returns (S : Stage C) (book : Book) (v : Value) (t : State) : Prop :=
  ∀ w, C.Comes w S.frames → w.state.machine.place = S.back → Booked w.state book →
    w.state.machine.val = v → w.state.store = t → C.Finishes w.state

/-- What waits for a procedure that is called at a place in the code, and where that comes back to:
the frame with what is left in `E`, or what the frame itself goes back to. -/
def Waits (S : Stage C) (tail : Bool) (E : Env) (pc : Nat) (fs : List Frame) (r : Return) : Prop :=
  if tail then fs = S.frames ∧ r = S.back ∧ E.conts = []
  else ∃ f, fs = f :: S.frames ∧ r.code = S.self.code ∧ r.pc = pc ∧ S.Has E f

theorem Waits.live (h : S.Waits tail E pc fs r) : S.self.liveBelow tail E = C.escapes fs := by
  cases tail with
  | true =>
      obtain ⟨rfl, -, -⟩ := h
      exact S.live
  | false =>
      obtain ⟨f, rfl, -, -, hhas⟩ := h
      change E.conts.map (·.2) ++ S.self.live = escapesOf _ _
      rw [escapesOf_cons, hhas.conts, S.live]

theorem Has.keeps_subset {f : Frame} (h : S.Has E f) :
    S.self.keeps E ⊆ S.self.code :: (C.words (f :: S.frames) ++ C.escapes (f :: S.frames)) := by
  have hslots : C.words (f :: S.frames) = E.frame S.self.array f.saved ++ C.words S.frames := by
    rw [Course.words, slotsOf, List.flatMap_cons, h.slots, List.append_assoc]
    rfl
  have hback : S.back.code ∈ f.saved := by
    rw [← h.back]
    simp [Frame.saved]
  rw [hslots, Course.escapes, escapesOf_cons, h.conts]
  intro u hu
  simp only [Self.keeps, Env.values, Env.frame, List.mem_append, List.mem_cons] at hu ⊢
  rcases hu with ((hu | hu) | hu) | rfl | hu | hu | hu
  · tauto
  · tauto
  · tauto
  · exact .inl rfl
  · tauto
  · rw [S.live] at hu
    tauto
  · have hheld := S.held hu
    simp only [List.mem_cons, List.mem_append] at hheld
    rcases hheld with rfl | hu | hu <;> tauto

theorem Waits.held (h : S.Waits tail E pc fs r) :
    S.self.below tail E ⊆ r.code :: (C.words fs ++ C.escapes fs) := by
  cases tail with
  | true =>
      obtain ⟨rfl, rfl, -⟩ := h
      exact S.held
  | false =>
      obtain ⟨f, rfl, hcode, -, hhas⟩ := h
      rw [hcode]
      exact hhas.keeps_subset

/-- Where the procedure that has been called comes back, what waits goes on. -/
theorem Waits.goes_on (h : S.Waits tail E pc fs r) (hcomes : C.Comes w fs)
    (hplace : w.state.machine.place = r) (hbooked : Booked w.state book)
    (hval : tail = false → S.Goes book E pc w.state.machine.val w.state.store)
    (hret : tail = true → S.Returns book w.state.machine.val w.state.store) :
    C.Finishes w.state := by
  cases tail with
  | true =>
      obtain ⟨rfl, rfl, -⟩ := h
      exact hret rfl w hcomes hplace hbooked rfl rfl
  | false =>
      obtain ⟨f, rfl, hcode, hpc, hhas⟩ := h
      exact hval rfl w f ⟨hcomes, hhas, (congrArg Return.code hplace).trans hcode, hbooked⟩
        ((congrArg Return.pc hplace).trans hpc) rfl rfl

theorem Waits.returns (h : S.Waits tail E pc fs r) (hframes : S'.frames = fs) (hback : S'.back = r)
    (hval : tail = false → S.Goes book E pc v t) (hret : tail = true → S.Returns book v t) :
    S'.Returns book v t := by
  rintro w hcomes hplace hbooked rfl rfl
  exact h.goes_on (hframes ▸ hcomes) (hplace.trans hback) hbooked hval hret

/-- An exit out of it leads below what waits. -/
theorem Waits.escapes {tail' : Bool} (h : S.Waits tail E pc fs r) (hframes : S'.frames = fs)
    (hexit : S.Escapes tail book E c v t) : S'.Escapes tail' book E' c v t := by
  intro w pile newer ins hcomes hheld
  refine hexit w pile newer ins hcomes ?_
  obtain ⟨gs, rfl⟩ := hheld.frames
  rw [hframes]
  cases tail with
  | true =>
      obtain ⟨rfl, -, -⟩ := h
      exact ⟨gs, rfl⟩
  | false =>
      obtain ⟨f, rfl, -, -, hhas⟩ := h
      exact ⟨gs, f, E, rfl, hhas, .refl E⟩

/-! ## Returns -/

theorem Goes.ret (hs : S.sites[pc]? = some (s.site ⟨.ret, 0, .nil⟩ k))
    (hret : S.Returns book v t) : S.Goes book E pc v t := by
  rintro w f h rfl rfl rfl
  have hins := h.instr? hs
  obtain ⟨val?, hat⟩ := h.comes.stands.exists_top hins (ne_of_beq_false rfl)
  obtain ⟨site, -, hpoised⟩ := hat.poised
  obtain ⟨w₁, -, hm⟩ := exists_moved_on (m := C.mode) (d := C.depth) hat.shows.above
  have hframe := (hpoised w₁ hm).frame?_eq
  have hstate : w₁.state = w.state.atPc (w.state.machine.pc + 1) := hm.state
  rw [hstate] at hframe
  have hstep : step w.state = .ok false { w.state with machine := (Machine.truncate
      { w.state.machine with pc := w.state.machine.pc + 1 } (C.words S.frames).length).resume f.back } := by
    rw [h.step_eq hs]
    simp only [execute, act_bind, returnFrom_eq hframe]
    rfl
  have hpermits := permits_of_ne hins (ne_of_beq_false rfl) (ne_of_beq_false rfl)
  obtain ⟨ins, w', pile, hins', hw', -, hunder, hadvances⟩ :=
    h.comes.next C.ground (C.tame _ hpermits) hstep
  obtain rfl := Option.some.inj (hins'.symm.trans hins)
  have hlodged : Lodged f.back S.frames (f :: S.frames) := ⟨[], f, rfl, rfl⟩
  obtain ⟨rfl, hplace⟩ := Lodged.goes_back hlodged hadvances rfl (o := C.start.state.machine) (by
    rw [← hunder.stands.shows.slots, Machine.length_slots, hw']
    simp [Machine.truncate, Machine.resume])
  have hescapes : w'.state.machine.escapes = book.map (·.1) := by
    rw [hw', ← h.booked.escapes]
    rfl
  refine .next (hw' ▸ hstep) (hret w' hunder (hplace.trans h.has.back) ?_ (by rw [hw']; rfl)
    (by rw [hw']; rfl))
  exact hw' ▸ h.comes.booked h.booked hpermits hstep (hw' ▸ hescapes) (List.Subset.refl _)

/-! ## Calls -/

/-- A value is about to be called with the newest operands. -/
structure Calls (S : Stage C) (tail : Bool) (book : Book) (E : Env) (n pc : Nat) (f : Value)
    (t : State) (w u : System) (fs : List Frame) (r : Return) : Prop where
  waits : S.Waits tail (E.drop n) (pc + 1) fs r
  invokes : Invokes C.mode C.depth C.start w u fs r (E.operands n)
  comes : ∃ pile, C.Comes w pile
  booked : Booked w.state book
  names : book.map (·.1) = C.escapes fs
  permits : w.state.permits false = true
  value : w.state.machine.val = f
  store : w.state.store = t

/-- The operands of a call are the newest ones; the frame goes on without them. -/
theorem Has.drop_ops {f : Frame} (h : S.Has E f) (shape : Shape)
    (hn : (E.operands n).length = n) (hlen : (f.ops.take n).length = n) :
    f.ops.take n = E.operands n ∧ S.Has (E.drop n) { f with shape, ops := f.ops.drop n } := by
  have hle : n ≤ f.ops.length := by
    rw [List.length_take] at hlen
    omega
  have hslots : f.ops ++ f.below = E.operands n ++ (E.drop n).frame S.self.array f.saved := by
    rw [← E.frame_eq n]
    exact h.slots
  have htake : f.ops.take n ++ (f.ops.drop n ++ f.below)
      = E.operands n ++ (E.drop n).frame S.self.array f.saved := by
    rw [← List.append_assoc, List.take_append_drop, hslots]
  obtain ⟨hargs, hrest⟩ := List.append_inj htake (hlen.trans hn.symm)
  exact ⟨hargs, h.instrs, hrest, h.args, h.conts, h.back⟩

theorem permits_of_isTame {s : State} {ins : Instr}
    (hins : s.heap.instr? s.machine.code s.machine.pc = some ins)
    (htame : s.heap.isTame false s.machine.val = true) : s.permits false = true := by
  unfold State.permits
  rw [hins]
  obtain ⟨op, n, x⟩ := ins
  cases op <;> first | rfl | simp [htame]

/-- The call may be made. -/
def Permits (S : Stage C) (book : Book) (E : Env) (pc : Nat) (f : Value) (t : State) : Prop :=
  ∀ w g, S.Works book E w g → w.state.machine.pc = pc → w.state.machine.val = f → w.state.store = t →
    w.state.permits false = true

theorem Goes.call (hs : S.sites[pc]? = some
      (s.site ⟨if tail then .tailCall else .call, n, .nil⟩ k))
    (hn : (E.operands n).length = n) (htail : tail = true → E.conts = [])
    (hpermits : S.Permits book E pc f t)
    (next : ∀ w u fs r, S.Calls tail book E n pc f t w u fs r → C.Finishes w.state) :
    S.Goes book E pc f t := by
  rintro w f h rfl rfl rfl
  have hins := h.instr? hs
  replace hpermits := hpermits w f h rfl rfl rfl
  have hpairs := (C.tame _ hpermits).tame
  have hnames := h.booked.escapes.symm.trans h.escapes
  cases tail with
  | false =>
      obtain ⟨g, gs, g', u, hpile, ⟨shape, rfl⟩, hlen, hinvokes⟩ :=
        h.comes.invokes_call C.ground hpairs hins rfl
      obtain ⟨rfl, rfl⟩ := List.cons.inj hpile
      obtain ⟨hargs, hhas⟩ := h.has.drop_ops shape hn hlen
      rw [show f.ops.take (Instr.modifier _) = _ from hargs, h.code] at hinvokes
      have hwaits : S.Waits false (E.drop n) (w.state.machine.pc + 1) _
          ⟨S.self.code, w.state.machine.pc + 1, w.state.machine.fp⟩ := ⟨_, rfl, rfl, rfl, hhas⟩
      refine next w u _ _ ⟨hwaits, hinvokes, ⟨_, h.comes⟩, h.booked, ?_, hpermits, rfl, rfl⟩
      rw [hnames, ← hwaits.live, ← S.live]
      rfl
  | true =>
      obtain ⟨g, gs, u, hpile, -, hlen, -, hinvokes⟩ :=
        h.comes.invokes_tailCall C.ground hpairs hins rfl
      obtain ⟨rfl, rfl⟩ := List.cons.inj hpile
      obtain ⟨hargs, -⟩ := h.has.drop_ops f.shape hn hlen
      rw [show f.ops.take (Instr.modifier _) = _ from hargs] at hinvokes
      refine next w u _ _ ⟨⟨rfl, h.has.back, htail rfl⟩, hinvokes, ⟨_, h.comes⟩, h.booked, ?_,
        hpermits, rfl, rfl⟩
      rw [hnames, htail rfl]
      rfl

/-! ### Procedures -/

/-- A step that leaves the newest frame at work, or another one in its place. -/
theorem exists_newest {op : Opcode} {place : Return} {f : Frame} {pile : List Frame} {o : Machine}
    (hadvances : Advances op place (f :: fs) pile) (hw : Stands w o pile) (hexits : op.exits = false)
    (hsize : (slotsOf fs o).length < w.state.machine.stack.size)
    (hfp : w.state.machine.fp < f.base fs o + 3) : ∃ g, pile = g :: fs ∧ g.back = f.back := by
  generalize hold : f :: fs = old at hadvances
  cases hadvances with
  | stays hbecomes =>
      obtain ⟨rfl, rfl⟩ := List.cons.inj hold
      exact ⟨_, rfl, hbecomes.back⟩
  | @calls _ _ f' g hbecomes _ =>
      obtain ⟨rfl, rfl⟩ := List.cons.inj hold
      have hbase : w.state.machine.fp = g.base (f' :: fs) o := hw.fp_eq
      have hlt := g.lt_base (f' :: fs) o
      have hle := f'.base_le [] fs o
      rw [List.nil_append, hbecomes.base_eq] at hle
      unfold Frame.base at hbase
      omega
  | leaves hop =>
      rw [hexits] at hop
      cases hop
  | @givesUp _ new _ _ hfew hbacks _ =>
      obtain ⟨rfl, rfl⟩ := List.cons.inj hold
      cases new with
      | nil =>
          rw [← Machine.length_slots, hw.shows.slots] at hsize
          exact absurd hsize (Nat.lt_irrefl _)
      | cons g new =>
          obtain rfl : new = [] :=
            List.eq_nil_of_length_eq_zero (Nat.le_zero.1 (Nat.le_of_succ_le_succ hfew))
          exact ⟨g, rfl, hbacks g List.mem_cons_self⟩

/-- The frame of a procedure that has been called. -/
theorem Calls.exists_entered {s' : State} {callee : Callee} (h : S.Calls tail book E n pc f t w u fs r)
    (hc : w.heap.callee? f = some callee) (hstep : step w.state = .ok false s') :
    ∃ g w', w'.state = s' ∧ C.Comes w' (g :: fs) ∧ g.back = r ∧ Booked s' book ∧
      s' = { u.state with
        machine := u.state.machine.entered callee.code callee.env? (E.operands n).length r } := by
  obtain ⟨pile, hcomes⟩ := h.comes
  obtain rfl := h.value
  obtain ⟨gs, w', hw', hunder, hentered⟩ := h.invokes.leads _ hstep
  obtain ⟨hs', hsize⟩ := h.invokes.entered hc hstep
  obtain ⟨g, rfl⟩ : ∃ g, gs = [g] := by
    refine List.length_eq_one_iff.1 (Nat.le_antisymm hentered.few (List.length_pos_iff.2 ?_))
    rintro rfl
    rw [← hw', hunder.size_eq] at hsize
    exact absurd hsize (Nat.lt_irrefl _)
  have hescapes : s'.machine.escapes = book.map (·.1) := by
    rw [h.names, hs']
    exact h.invokes.calling.escapes
  refine ⟨g, w', hw', hunder, hentered.back g List.mem_cons_self,
    Course.Comes.booked hcomes h.booked h.permits hstep hescapes (List.Subset.refl _), hs'⟩

/-- The procedure that has been called. -/
def Waits.callee (h : S.Waits tail E pc fs r) (code : Value) (array : Option Value) (p : Lambda) :
    Stage C where
  self := S.self.callee tail E code array p
  sites := (p.proc code).sites.map Site.drafted
  frames := fs
  back := r
  live := h.live
  held := h.held

/-- The frame of code that has just been entered holds what the procedure has. -/
theorem has_of_entered {p : Proc} {arity : Arity} {g : Frame}
    (hsites : S.sites = p.sites.map Site.drafted) (hcomes : C.Comes w (g :: S.frames))
    (hback : g.back = S.back) (hcarries : w.heap.Carries w.state.machine.code arity p)
    (hslots : w.state.machine.slots
      = E.frame S.self.array S.back.words.reverse ++ C.words S.frames)
    (hfp : w.state.machine.fp = E.params.length + (C.words S.frames).length + 3)
    (hescapes : w.state.machine.escapes = C.escapes S.frames) (hE : E.conts = []) :
    S.Has E g := by
  obtain ⟨hframe, -⟩ := hcomes.stands.exists_place
  refine ⟨?_, ?_, ?_, ?_, hback⟩
  · obtain ⟨b, hb, hinstrs⟩ := hframe.instrs_eq
    obtain ⟨b', -, -, hlisting⟩ := hcarries.exists_bytecode
    rw [Heap.listing?, show w.heap.bytecode? w.state.machine.code = some b from hb,
      Option.map_some, hinstrs] at hlisting
    have hsame := (Prod.mk.inj (Option.some.inj hlisting)).2
    rw [hsites]
    exact (congrArg Array.toList hsame).trans (Proc.instrs_drafted _).symm
  · have hshows := hcomes.stands.shows.slots
    rw [slotsOf, List.flatMap_cons, List.append_assoc] at hshows
    rw [show g.saved = S.back.words.reverse by rw [Frame.saved, hback]; rfl]
    exact List.append_cancel_right (hshows.symm.trans hslots)
  · have hbase : w.state.machine.fp = g.args.length + (C.words S.frames).length + 3 :=
      hcomes.stands.fp_eq
    omega
  · have hshows := hcomes.stands.shows.escapes
    rw [escapesOf_cons] at hshows
    rw [hE]
    exact List.append_cancel_right (hshows.symm.trans hescapes)

/-- So does that of a procedure that has been called. -/
theorem Waits.has_callee {code : Value} {array : Option Value} {p : Lambda} {arity : Arity} {g : Frame}
    (h : S.Waits tail E pc fs r) (hcomes : C.Comes w (g :: fs)) (hback : g.back = r)
    (hcode : w.state.machine.code = code) (hcarries : w.heap.Carries code arity (p.proc code))
    (hslots : w.state.machine.slots = E'.frame array r.words.reverse ++ C.words fs)
    (hfp : w.state.machine.fp = E'.params.length + (C.words fs).length + 3)
    (hescapes : w.state.machine.escapes = C.escapes fs) (hE' : E'.conts = []) :
    (h.callee code array p).Has E' g := by
  subst hcode
  exact has_of_entered rfl hcomes hback hcarries hslots hfp hescapes hE'

end Stage

namespace Lambda

variable {p : Lambda} {args : List Value} {list : Value}

/-- The values of the parameters, the last first. -/
theorem bound_values (h : p.fixed.length ≤ args.length) : (p.bound args list).params.map (·.2)
    = p.rest.toList.map (fun _ => list) ++ (args.take p.fixed.length).reverse := by
  have hlen : (args.take p.fixed.length ++ p.rest.toList.map fun _ => list).length
      ≤ p.params.length := by
    rw [params, List.length_append, List.length_append, List.length_take_of_le h, List.length_map]
  rw [bound, List.map_reverse, List.map_snd_zip hlen, List.reverse_append]
  cases p.rest <;> rfl

theorem bound_names (h : p.fixed.length ≤ args.length) :
    (p.bound args list).params.map (·.1) = p.params.reverse := by
  have hlen : p.params.length
      ≤ (args.take p.fixed.length ++ p.rest.toList.map fun _ => list).length := by
    rw [params, List.length_append, List.length_append, List.length_take_of_le h, List.length_map]
  rw [bound, List.map_reverse, List.map_fst_zip hlen]

end Lambda

namespace Stage

variable {C : Course} {S S' : Stage C} {book : Book} {E E' : Env} {s : Scope} {k : Kind}
  {pc n : Nat} {f v c : Value} {t : State} {w u : System} {fs : List Frame} {r : Return} {tail : Bool}
  {code : Value} {array : Option Value} {p : Lambda} {arity : Arity}

/-- A procedure that takes the arguments is entered, unless the stack is full. -/
theorem Calls.enters (h : S.Calls tail book E n pc f t w u fs r) (hp : p.At t.heap f code array arity)
    (haccepts : arity.accepts (E.operands n).length = true)
    (next : ∀ g w' s', w'.state = s' → C.Comes w' (g :: fs) → g.back = r → Booked s' book →
      s' = { u.state with machine := u.state.machine.entered code array (E.operands n).length r } →
        C.Finishes s') : C.Finishes w.state := by
  obtain rfl := h.store
  obtain ⟨b, hb, rfl, -⟩ := hp.carries.exists_bytecode
  have hheap : u.state.heap = w.heap := h.invokes.heap
  have hentry : u.state.heap.entry? f = some (code, array) := hheap ▸ hp.entry
  have hbytecode : u.state.heap.bytecode? code = some b := hheap ▸ hb
  have hc : w.heap.callee? f = some ⟨code, array, b.arity⟩ := by
    rw [← hheap, Heap.callee?, hentry, Option.bind_some, hbytecode]
    rfl
  have henter : Gives (· = .stackExhausted) (enter f (E.operands n).length r) u.state fun _ _ =>
      True :=
    ((gives_enterCode hbytecode haccepts).mono fun _ _ _ => trivial).congr (enter_eq_enterCode hentry)
  have hgives : Gives (· = .stackExhausted) step w.state fun stop _ => stop = false := by
    refine .of_eq (.bind henter fun _ _ _ => .pure rfl) ?_
    rw [h.invokes.step, h.value]
  refine .of_gives (fun _ => id) hgives ?_
  rintro _ s' hstep rfl
  obtain ⟨g, w', hw', hcomes, hback, hbooked, hs'⟩ := h.exists_entered hc hstep
  exact .next hstep (next g w' s' hw' hcomes hback hbooked hs')

/-- If it wants so many arguments, it is at work. -/
theorem Calls.goes_fixed (h : S.Calls tail book E n pc f t w u fs r)
    (hp : p.At t.heap f code array arity) (haccepts : arity.accepts (E.operands n).length = true)
    (hrest : p.rest = none) (next : ∀ v, (h.waits.callee code array p).Goes book
      (p.bound (E.operands n).reverse .nil) 0 v t) : C.Finishes w.state := by
  refine h.enters hp haccepts ?_
  rintro g w' s' rfl hcomes hback hbooked hs'
  have hlen : (E.operands n).length = p.fixed.length := by
    have hvariadic : arity.isVariadic = false := by rw [hp.arity.isVariadic, hrest]; rfl
    rw [Arity.slots_of_fixed hvariadic haccepts, hp.arity.slots, hrest]
    rfl
  have hle : p.fixed.length ≤ (E.operands n).reverse.length := by rw [List.length_reverse, hlen]
  have hvalues : (p.bound (E.operands n).reverse .nil).params.map (·.2) = E.operands n := by
    rw [Lambda.bound_values hle, hrest, List.take_of_length_le (by rw [List.length_reverse, hlen]),
      List.reverse_reverse]
    rfl
  have hslots := h.invokes.calling.slots
  have hsize := congrArg List.length hslots
  rw [Machine.length_slots, List.length_append] at hsize
  have hcarries : w'.heap.Carries code arity (p.proc code) := by
    have hheap : w'.heap = t.heap := by
      rw [← h.store, State.heap_store, System.heap, hs']
      exact h.invokes.heap
    rw [hheap]
    exact hp.carries
  refine next _ w' g ⟨hcomes, h.waits.has_callee hcomes hback ?_ hcarries ?_ ?_ ?_ rfl, ?_, hbooked⟩
    ?_ rfl ?_
  · rw [hs']
    rfl
  · rw [hs', Env.frame, hvalues]
    change (u.state.machine.entered code array _ r).slots = _
    rw [slots_entered, hslots]
    simp [Return.words, Lambda.bound, Env.words]
  · rw [← List.length_map (·.2), hvalues, hs']
    simp [Machine.entered, hsize]
  · rw [hs']
    exact h.invokes.calling.escapes
  · rw [hs']
    rfl
  · rw [hs']
    rfl
  · rw [hs', ← h.store, ← h.invokes.store]
    rfl

/-- What it gets, and what it and those that wait for it hold, is held. -/
theorem Waits.keeps_subset {s : State} {args : List Value} (h : S.Waits tail E pc fs r)
    (hcode : s.machine.code = code)
    (hslots : s.machine.slots = array.toList ++ (r.words.reverse ++ (args ++ C.words fs)))
    (hescapes : s.machine.escapes = C.escapes fs) :
    args.reverse ++ (h.callee code array p).self.keeps .empty ⊆ s.rootValues := by
  have hword {v : Value} (hv : v ∈ array.toList ++ (r.words.reverse ++ (args ++ C.words fs))) :
      v ∈ s.rootValues := State.mem_rootValues_of_machine (Machine.mem_values_of_slots (hslots ▸ hv))
  have hescape {v : Value} (hv : v ∈ C.escapes fs) : v ∈ s.rootValues :=
    State.mem_rootValues_of_machine (Machine.mem_values_of_escapes (hescapes ▸ hv))
  intro v hv
  simp only [List.mem_append, List.mem_reverse, Self.keeps, Env.values, Env.words, Env.empty,
    List.filterMap_nil, List.map_nil, List.not_mem_nil, List.mem_cons, false_or] at hv
  rcases hv with hv | rfl | hv | hv | hv
  · exact hword (by simp [hv])
  · exact State.mem_rootValues_of_machine (by simp [Machine.values, ← hcode])
  · exact hword (List.mem_append_left _ hv)
  · rw [(h.callee code array p).live] at hv
    exact hescape hv
  · rcases List.mem_cons.1 ((h.callee code array p).held hv) with rfl | hv
    · exact hword (by simp [Return.words, Waits.callee])
    · rcases List.mem_append.1 hv with hv | hv
      · exact hword (by simp only [List.mem_append]; exact .inr (.inr (.inr hv)))
      · exact hescape hv

/-- What a procedure gets whose last arguments have been put in a list, with nothing else done. -/
theorem receives_of_gathered {s s₁ s' : State} {m m' : Machine} {σ : Self} {A ops : List Value}
    {list : Value}
    (hgathered : s.Gathered A m (ops.take (ops.length - p.fixed.length)).reverse list s₁)
    (hzero : (s.heap.cell 0).isFree = true)
    (hA : A = s.store.anchors ++ (ops.reverse ++ σ.keeps .empty))
    (hs' : s' = { s₁ with machine := m' }) (hbare : m'.bare = s.machine.bare)
    (hrest : p.rest.isSome = true) : p.Receives s.store σ ops.reverse
      (p.bound ops.reverse list) s'.store := by
  subst hs' hA
  obtain ⟨heap, log, hgathers⟩ := hgathered.rest
  have hretains := hgathered.kept.retains hgathered.size
  refine ⟨⟨⟨hretains, ⟨heap, log, ?_⟩, hzero, hgathered.wf.heap.pool.zero⟩, rfl⟩, ?_⟩
  · simp only [State.store, hgathers, hbare]
  · rw [if_pos hrest, List.drop_reverse]
    exact ⟨list, rfl, hgathered.strung⟩

/-- The first thing that a procedure does which wants any number of arguments past some is to put
those in a list. -/
theorem Calls.step_entered {w' : System} (h : S.Calls tail book E n pc f t w u fs r)
    (hp : p.At t.heap f code array arity) (hrest : p.rest.isSome = true)
    (hs' : w'.state
      = { u.state with machine := u.state.machine.entered code array (E.operands n).length r }) :
    w'.heap.instr? w'.state.machine.code w'.state.machine.pc = some ⟨.varargs, p.fixed.length, .nil⟩ ∧
      step w'.state = (do collectRest p.fixed.length; return false) (w'.state.atPc 1) ∧
      (w'.state.atPc 1).machine.Collects (array.toList ++ r.words.reverse) (E.operands n)
        (C.words fs) := by
  obtain rfl := h.store
  have hpc : w'.state.machine.pc = 0 := by rw [hs']; rfl
  have hleast : (p.proc code).least? = some p.fixed.length := by
    rw [Lambda.proc, Comp.procedure, hrest]
    rfl
  have hins : w'.heap.instr? w'.state.machine.code w'.state.machine.pc
      = some ⟨.varargs, p.fixed.length, .nil⟩ := by
    obtain ⟨b, -, -, hlisting⟩ := hp.carries.exists_bytecode
    have hheap : w'.heap = w.heap := by
      rw [System.heap, hs']
      exact h.invokes.heap
    rw [hpc, show w'.state.machine.code = code by rw [hs']; rfl]
    exact Heap.instr?_varargs (s := w'.state) ((congrArg (Heap.listing? · code) hheap).trans hlisting)
      hleast
  refine ⟨hins, ?_, ?_⟩
  · rw [CellLisp.step_eq hins, hpc]
    rfl
  · rw [State.atPc, hs']
    exact Machine.collects_entered h.invokes.calling.slots 1

/-- If it wants any number of them past some, it is at work once those are in a list. -/
theorem Calls.goes_rest (h : S.Calls tail book E n pc f t w u fs r)
    (hp : p.At t.heap f code array arity) (haccepts : arity.accepts (E.operands n).length = true)
    (hrest : p.rest.isSome = true) (next : ∀ v E' t',
      p.Receives t (h.waits.callee code array p).self (E.operands n).reverse E' t' →
        (h.waits.callee code array p).Goes book E' 1 v t') : C.Finishes w.state := by
  refine h.enters hp haccepts ?_
  rintro g w' s' rfl hcomes hback hbooked hs'
  obtain rfl := h.store
  let σ := (h.waits.callee code array p).self
  have hle := hp.arity.le_of_accepts haccepts
  have hcode : w'.state.machine.code = code := by rw [hs']; rfl
  obtain ⟨hins, hstep, hcollects⟩ := h.step_entered hp hrest hs'
  have hpermits := permits_of_ne hins (ne_of_beq_false rfl) (ne_of_beq_false rfl)
  have hw : (w'.state.atPc 1).WellFormed none :=
    ⟨w'.wellFormed.heap, w'.wellFormed.roots, w'.wellFormed.pending⟩
  let A := w.state.store.anchors ++ ((E.operands n).reverse ++ σ.keeps .empty)
  have hstore (v : Value) : ((w'.state.atPc 1).withVal v).store = w.state.store := by
    rw [hs', ← h.invokes.store]
    rfl
  have hescapes : w'.state.machine.escapes = C.escapes fs := by
    rw [hs']
    exact h.invokes.calling.escapes
  have hA (v : Value) : A ⊆ ((w'.state.atPc 1).withVal v).rootValues := by
    refine List.append_subset.2 ⟨?_, h.waits.keeps_subset hcode ?_ hescapes⟩
    · rw [← hstore v, State.anchors_store]
      exact State.anchors_subset_rootValues _
    · rw [← List.append_assoc]
      exact hcollects.slots
  have hgives := gives_collectRest hw hcollects hle hA
  have hends : Gives (· = .stackExhausted) step w'.state fun stop _ => stop = false :=
    .of_eq (.bind hgives fun _ _ _ => .pure rfl) hstep
  refine .of_gives (fun _ => id) hends ?_
  rintro _ s' hnext rfl
  have hcollect := ok_of_return (hstep.symm.trans hnext)
  obtain ⟨list, s₁, hgathered, hs''⟩ := hgives.of_ok hcollect
  obtain ⟨ins, w'', pile, hins', rfl, -, hunder, hadvances⟩ :=
    Underway.next hcomes C.ground (C.tame _ hpermits) hnext
  obtain rfl := Option.some.inj (hins'.symm.trans hins)
  obtain ⟨-, -, -, hcode', hpc', hfp'⟩ := collectRest_lists hcollect hw hcollects
  have hslots' := collectRest_ok hcollect hcollects
  have hmachine := hgathered.machine
  have hval : w''.state.machine.val = list := by
    rw [hs'']
    change s₁.machine.val = list
    rw [hmachine]
  rw [hval] at hslots'
  have hsize' := congrArg List.length hslots'
  have hbase : w'.state.machine.fp = g.base fs C.start.state.machine := hcomes.stands.fp_eq
  have hfp : w'.state.machine.fp = (E.operands n ++ C.words fs).length + 3 := hcollects.fp
  simp only [Machine.length_slots, List.length_append, List.length_cons] at hsize' hfp
  obtain ⟨g', rfl, hback'⟩ := exists_newest hadvances hunder.stands rfl
    (show (C.words fs).length < _ by omega) (by omega)
  -- and the frame holds what the procedure gets
  have hreceives : p.Receives _ σ _ _ w''.state.store :=
    receives_of_gathered hgathered w'.wellFormed.heap.pool.zero (by rw [hstore]) hs''
      (by rw [hmachine]; rfl) hrest
  rw [hstore] at hreceives
  have hcarries : w''.heap.Carries code arity (p.proc code) := by
    obtain ⟨hv, b, hb, ha⟩ := hp.carries
    refine ⟨hv, b, (hreceives.drifts.aside.retains.listing? (Heap.reaches_of_mem ?_)).trans hb, ha⟩
    simp [σ, Self.keeps, Waits.callee, Self.callee]
  have hargs : (p.bound (E.operands n).reverse list).params.map (·.2)
      = list :: (E.operands n).drop ((E.operands n).length - p.fixed.length) := by
    obtain ⟨x, hx⟩ := Option.isSome_iff_exists.1 hrest
    rw [Lambda.bound_values (by rwa [List.length_reverse]), hx, List.take_reverse, List.reverse_reverse]
    rfl
  have hescapes' : w''.state.machine.escapes = C.escapes fs := by
    rw [← hescapes, hs'']
    change s₁.machine.escapes = _
    rw [hmachine]
    rfl
  refine .next hnext (next list _ _ hreceives w'' g' ⟨hunder, h.waits.has_callee hunder
    (hback'.trans hback) (hcode'.trans hcode) hcarries ?_ ?_ hescapes' rfl, hcode'.trans hcode, ?_⟩
      (hpc'.trans rfl) hval rfl)
  · rw [hslots', Env.frame, hargs]
    simp [Lambda.bound, Env.words]
  · have hparams := congrArg List.length hargs
    rw [List.length_map, List.length_cons, List.length_drop] at hparams
    omega
  · exact Course.Comes.booked hcomes hbooked hpermits hnext
      (hescapes'.trans h.names.symm) (List.Subset.refl _)

theorem length_entry (code : Value) : (p.proc code).entry.length = if p.rest.isSome then 1 else 0 := by
  rw [Proc.entry, Lambda.proc, Comp.procedure]
  cases p.rest <;> rfl

/-- A procedure that takes the arguments is at work with what it gets. -/
theorem Calls.goes (h : S.Calls tail book E n pc f t w u fs r) (hp : p.At t.heap f code array arity)
    (haccepts : arity.accepts (E.operands n).length = true) (next : ∀ v E' t',
      p.Receives t (h.waits.callee code array p).self (E.operands n).reverse E' t' →
        (h.waits.callee code array p).Goes book E' (p.proc code).entry.length v t') :
    C.Finishes w.state := by
  simp only [length_entry] at next
  cases hrest : p.rest with
  | none =>
      rw [hrest] at next
      have hzero : (t.heap.cell 0).isFree = true := by
        rw [← h.store]
        exact w.wellFormed.heap.pool.zero
      have hstore : t.store = t := by
        rw [← h.store]
        rfl
      refine h.goes_fixed hp haccepts hrest fun v => next v _ t ⟨⟨.refl _ hzero, hstore⟩, ?_⟩
      rw [hrest]
      exact ⟨rfl, rfl⟩
  | some x =>
      rw [hrest] at next
      exact h.goes_rest hp haccepts (by rw [hrest]; rfl) next

/-! ### Calls that fail -/

theorem Calls.fails {cause : Error} (h : S.Calls tail book E n pc f t w u fs r)
    (henter : enter f (E.operands n).length r u.state = .error (.error cause) u.state)
    (hfails : ∀ s : State, s.store = t → C.refusal cause s) : C.Finishes w.state := by
  have hstep : step w.state = .error (.error cause) u.state := by
    rw [h.invokes.step, act_bind, h.value, henter]
  exact .fails hstep (.inr (hfails _ (h.invokes.store.trans h.store)))

theorem Calls.heap_eq (h : S.Calls tail book E n pc f t w u fs r) : u.state.heap = t.heap := by
  rw [← h.store, State.heap_store]
  exact h.invokes.heap

/-- A procedure does not take so many arguments. -/
theorem Calls.refused (h : S.Calls tail book E n pc f t w u fs r)
    (hp : p.At t.heap f code array arity) (haccepts : arity.accepts (E.operands n).length = false)
    (hfails : ∀ s : State, s.store = t →
      C.refusal (.arity (t.heap.procName f) arity (E.operands n).length) s) : C.Finishes w.state := by
  obtain ⟨b, hb, rfl, -⟩ := hp.carries.exists_bytecode
  have hentry := hp.entry
  rw [← h.heap_eq] at hb hentry hfails
  refine h.fails ?_ hfails
  rw [enter_eq_enterCode hentry, enterCode, act_bind, bytecodeOf_of_some hb]
  dsimp only
  rw [act_bind, checkArity_of_refuses haccepts]

/-- What is called is no procedure. -/
theorem Calls.not_procedure (h : S.Calls tail book E n pc f t w u fs r) (hf : f.isProcedure = false)
    (hfails : ∀ s : State, s.store = t → C.refusal (.notProcedure (t.heap.print f)) s) :
    C.Finishes w.state := by
  rw [← h.heap_eq] at hfails
  refine h.fails ?_ hfails
  cases f with
  | ref tag i => cases tag <;> first | rfl | cases hf
  | _ => rfl

/-! ### Built-in procedures -/

theorem cell?_of_native {i : Nat} {native : Native} (hcell : w.state.heap.cell i = .native native) :
    (Value.ref .native i).cell? = some i := by
  refine Value.cell?_eq_some_iff.2 ⟨_, rfl, ?_⟩
  rintro rfl
  have hzero := w.wellFormed.heap.pool.zero
  rw [show w.heap.cell 0 = _ from hcell] at hzero
  cases hzero

/-- A built-in procedure has what it needs. -/
theorem Calls.serving (h : S.Calls tail book E n pc f t w u fs r) :
    State.WellFormed { u.state with machine := u.state.machine.serving f r } none ∧
      E.operands n ++ S.self.below tail (E.drop n) ++ S.self.liveBelow tail (E.drop n)
        ⊆ State.rootValues { u.state with machine := u.state.machine.serving f r } := by
  have hcalling := h.invokes.calling
  have hw := u.wellFormed
  constructor
  · refine hw.withMachine hw.holds_val hcalling.holds (fun v hv => ?_)
      (fun v hv => hw.holds_of_slots hv) (fun v hv => hw.holds_of_conts hv) rfl
    obtain rfl := Option.some.inj hv
    rw [show u.state.heap = w.heap from h.invokes.heap, ← h.value]
    exact w.wellFormed.holds_val
  · have hword {v : Value} (hv : v ∈ E.operands n ++ C.words fs) :
        v ∈ State.rootValues { u.state with machine := u.state.machine.serving f r } :=
      State.mem_rootValues_of_machine (Machine.mem_values_of_slots (hcalling.slots ▸ hv))
    have hescape {v : Value} (hv : v ∈ C.escapes fs) :
        v ∈ State.rootValues { u.state with machine := u.state.machine.serving f r } :=
      State.mem_rootValues_of_machine (Machine.mem_values_of_escapes (hcalling.escapes ▸ hv))
    intro v hv
    rw [h.waits.live, List.mem_append, List.mem_append] at hv
    rcases hv with (hv | hv) | hv
    · exact hword (List.mem_append_left _ hv)
    · rcases List.mem_cons.1 (h.waits.held hv) with rfl | hv
      · exact State.mem_rootValues_of_machine (by simp [Machine.values, Machine.serving])
      · rcases List.mem_append.1 hv with hv | hv
        · exact hword (List.mem_append_right _ hv)
        · exact hescape hv
    · exact hescape hv

/-- A built-in procedure that takes the arguments does its work. -/
theorem Calls.served {Q : Goal} {i : Nat} {native : Native}
    (h : S.Calls tail book E n pc (.ref .native i) t w u fs r)
    (hcell : t.heap.cell i = .native native)
    (haccepts : native.arity.accepts (E.operands n).length = true)
    (hgoal : ∀ s : State, s.store = t → s.WellFormed none →
      E.operands n ++ S.self.below tail (E.drop n) ++ S.self.liveBelow tail (E.drop n) ⊆ s.rootValues →
        nativeGoal Q E (Builtin.apply native.procedure (E.operands n).reverse s))
    (hval : ∀ v t', Q (.value v) E t' → tail = false → S.Goes book (E.drop n) (pc + 1) v t')
    (hret : ∀ v t', Q (.value v) E t' → tail = true → S.Returns book v t')
    (hfails : ∀ cause t', Q (.error cause) E t' → ∀ s : State, s.store = t' → C.refusal cause s) :
    C.Finishes w.state := by
  obtain ⟨hwell, hheld⟩ := h.serving
  rw [← h.heap_eq] at hcell
  have hi := cell?_of_native hcell
  have hstore : State.store { u.state with machine := u.state.machine.serving (.ref .native i) r } = t :=
    h.invokes.store.trans h.store
  have hdone := hgoal _ hstore hwell hheld
  have hstep : step w.state = (do
      callNative (.ref .native i) (E.operands n).length r
      return false) u.state := by
    rw [h.invokes.step, h.value]
    rfl
  cases hends : Builtin.apply native.procedure (E.operands n).reverse
      { u.state with machine := u.state.machine.serving (.ref .native i) r } with
  | ok v u' =>
      rw [hends] at hdone
      rw [act_bind, callNative_ok h.invokes.calling.slots hi hcell haccepts hends] at hstep
      obtain ⟨gs, w', hw', hunder, hentered⟩ := h.invokes.leads _ hstep
      have hsize : w'.state.machine.stack.size ≤ (C.words fs).length := by
        rw [hw']
        simp [Machine.truncate]
      obtain rfl : gs = [] := by
        refine Classical.byContradiction fun hgs => ?_
        have hlt := (hentered.lodged hgs).length_lt C.start.state.machine
        rw [hunder.size_eq] at hsize
        exact absurd hlt (Nat.not_lt.2 hsize)
      have hv : w'.state.machine.val = v := by rw [hw']
      have hstore : w'.state.store = u'.store := by rw [hw']; rfl
      obtain ⟨pile, hcomes⟩ := h.comes
      have hbooked : Booked w'.state book := by
        refine hw' ▸ Course.Comes.booked hcomes h.booked h.permits hstep ?_ (List.Subset.refl _)
        rw [h.names, ← hw']
        exact hunder.stands.shows.escapes
      refine .next hstep (hw' ▸ h.waits.goes_on hunder (hentered.place rfl) hbooked ?_ ?_)
      · rw [hv, hstore]
        exact hval v _ hdone
      · rw [hv, hstore]
        exact hret v _ hdone
  | error stop u' =>
      rw [hends] at hdone
      rw [act_bind, callNative_eq h.invokes.calling.slots hi hcell haccepts, act_bind, hends] at hstep
      cases stop with
      | error cause => exact .fails hstep (.inr (hfails _ _ hdone _ rfl))
      | fatal cause => exact .full hstep hdone

/-- One that does not take them. -/
theorem Calls.native_refused {i : Nat} {native : Native}
    (h : S.Calls tail book E n pc (.ref .native i) t w u fs r)
    (hcell : t.heap.cell i = .native native)
    (haccepts : native.arity.accepts (E.operands n).length = false)
    (hfails : ∀ s : State, s.store = t →
      C.refusal (.arity (t.heap.symbolName native.name) native.arity (E.operands n).length) s) :
    C.Finishes w.state := by
  rw [← h.heap_eq] at hcell hfails
  have hstep : step w.state = .error (.error (.arity (u.state.heap.symbolName native.name) native.arity
      (E.operands n).length)) { u.state with machine := u.state.machine.resume r } := by
    have henter : enter (.ref .native i) (E.operands n).length r
        = callNative (.ref .native i) (E.operands n).length r := rfl
    rw [h.invokes.step, h.value, act_bind, henter]
    unfold callNative
    simp only [modifyMachine, act_bind, act_modify, act_gets, cell?_of_native hcell, Option.map_some,
      hcell, checkArity_of_refuses haccepts]
  exact .fails hstep (.inr (hfails _ (h.invokes.store.trans h.store)))

end Stage

end Reference
end CellLisp
