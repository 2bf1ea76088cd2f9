import CellLisp.Proofs.Machine.Above
import CellLisp.Proofs.Machine.Fulfil
import CellLisp.Proofs.Machine.Unwinding
import CellLisp.Proofs.Reference.Places

/-!
# `CellLisp.Proofs.Reference.Working` — a procedure at work on the machine

A run is to come to an end (`Course.Finishes`).  On the way a procedure is at work (`Stage`), with
what it has in a frame on those of the procedures that wait for it (`Stage.Works`).

| | |
| :-- | :-- |
| `Course` | what a run began with, and what it is to come to |
| `Booked` | the records of the continuations in force |
| `Stage.Has` | what a frame holds is what its procedure has |
| `Stage.Goes` | from a place in its code the run finishes |

An instruction that neither calls, nor exits, nor gives up its frame, changes the operands, the
continuations and the store; that the rest stays as it is follows from what is known of every run
(`Stage.Works.next`), so of each one only the step itself is worked out.
-/

namespace CellLisp

/-- Whether an instruction stays in the frame that it is carried out in. -/
def Opcode.stays (op : Opcode) : Bool := !(op.exits || op.givesUp || op == .call)

namespace Reference

/-! ## Runs -/

/-- What a run began with, and what it is to come to. -/
structure Course where
  mode : Mode
  depth : Nat
  start : System
  ground : Ground mode depth start
  tame : ∀ u : State, u.permits false = true → u.Permits mode start.state.machine
  /-- Closures are made by the procedure for that. -/
  maker : start.heap.Serves start.state.known.makeClosure ⟨2⟩ .makeClosure
  /-- Where it is to come to. -/
  answer : State → Prop
  /-- Where it may fail. -/
  refusal : Error → State → Prop

/-- A run comes to where it is to come to, unless a store or the stack is full. -/
inductive Course.Finishes (C : Course) : State → Prop
  | here {s : State} : C.answer s → Finishes C s
  | next {s s' : State} : step s = .ok false s' → Finishes C s' → Finishes C s
  | full {s s' : State} {cause : Fatal} : step s = .error (.fatal cause) s' → cause.IsExhaustion →
      Finishes C s
  | fails {s s' : State} {cause : Error} : step s = .error (.error cause) s' →
      cause = .stackExhausted ∨ C.refusal cause s' → Finishes C s

/-- The words below a pile of frames. -/
abbrev Course.words (C : Course) (fs : List Frame) : List Value := slotsOf fs C.start.state.machine

/-- The continuations in force below a pile of frames. -/
abbrev Course.escapes (C : Course) (fs : List Frame) : List Value :=
  escapesOf fs C.start.state.machine

/-- A system that a run has come to. -/
abbrev Course.Comes (C : Course) (w : System) (pile : List Frame) : Prop :=
  Underway C.mode C.depth C.start w pile

/-- Continuations with their records. -/
abbrev Book := List (Value × Cont)

/-- The records of the continuations in force. -/
structure Booked (s : State) (book : Book) : Prop where
  escapes : s.machine.escapes = book.map (·.1)
  records : ∀ p ∈ book, s.heap.cont? p.1 = some p.2 ∧ p.2.exited = false

/-- A procedure under way, with those that wait for it. -/
structure Stage (C : Course) where
  self : Self
  /-- Its code. -/
  sites : List Site
  /-- The frames of those that wait for it. -/
  frames : List Frame
  /-- Where it goes back to. -/
  back : Return
  live : self.live = C.escapes frames
  held : self.held ⊆ back.code :: (C.words frames ++ C.escapes frames)

namespace Stage

variable {C : Course}

/-- A frame holds what the procedure has. -/
structure Has (S : Stage C) (E : Env) (f : Frame) : Prop where
  instrs : f.proc.instrs = S.sites.map (·.instr)
  slots : f.slots = E.frame S.self.array f.saved
  args : f.args.length = E.params.length
  conts : f.conts = E.conts.map (·.2)
  back : f.back = S.back

/-- The procedure is at work in a frame on those that wait for it. -/
structure Works (S : Stage C) (book : Book) (E : Env) (w : System) (f : Frame) : Prop where
  comes : C.Comes w (f :: S.frames)
  has : S.Has E f
  code : w.state.machine.code = S.self.code
  booked : Booked w.state book

/-- From a place in its code the run finishes. -/
def Goes (S : Stage C) (book : Book) (E : Env) (pc : Nat) (v : Value) (t : State) : Prop :=
  ∀ w f, S.Works book E w f → w.state.machine.pc = pc → w.state.machine.val = v →
    w.state.store = t → C.Finishes w.state

end Stage

/-! ## One instruction -/

theorem permits_of_ne {s : State} {ins : Instr}
    (hins : s.heap.instr? s.machine.code s.machine.pc = some ins)
    (hcall : ins.op ≠ .call) (htail : ins.op ≠ .tailCall) : s.permits false = true := by
  unfold State.permits
  rw [hins]
  obtain ⟨op, n, x⟩ := ins
  cases op <;> first | rfl | exact absurd rfl hcall | exact absurd rfl htail

theorem of_stays {op : Opcode} (h : op.stays = true) :
    op.exits = false ∧ op.givesUp = false ∧ op ≠ .call ∧ op ≠ .tailCall := by
  cases op <;> first | exact ⟨rfl, rfl, by decide, by decide⟩ | cases h

theorem permits_of_exits {s : State} {ins : Instr}
    (hins : s.heap.instr? s.machine.code s.machine.pc = some ins) (hexits : ins.op.exits = true) :
    s.permits false = true :=
  permits_of_ne hins (fun he => by rw [he] at hexits; cases hexits)
    (fun he => by rw [he] at hexits; cases hexits)

theorem givesUp_of_exits {op : Opcode} (h : op.exits = true) : op.givesUp = false := by
  cases op <;> first | rfl | cases h

/-- A frame goes back to the same place as long as there is one on those below it. -/
theorem Lodged.back_eq {op : Opcode} {place r : Return} {g : Frame} {fs pile : List Frame}
    (h : Lodged r fs pile) (hadvances : Advances op place pile (g :: fs)) : g.back = r := by
  rcases h.advances hadvances with ⟨hs, g', he, hback⟩ | ⟨-, he⟩ | ⟨-, hs, h, h', us, he, -, he'⟩
  · cases hs with
    | nil => rw [(List.cons.inj he).1, hback]
    | cons _ _ =>
        have hlen := congrArg List.length he
        simp only [List.cons_append, List.length_cons, List.length_append] at hlen
        omega
  · have hlen := congrArg List.length he
    simp at hlen
  · have hlen := congrArg List.length he
    have hlen' := congrArg List.length he'
    simp only [List.length_append, List.length_cons] at hlen hlen'
    omega

/-- An instruction that neither exits nor gives up its frame leaves that where it is. -/
theorem exists_of_advances {op : Opcode} {place : Return} {f : Frame} {fs pile : List Frame}
    (h : Advances op place (f :: fs) pile) (hexits : op.exits = false)
    (hgives : op.givesUp = false) :
    ∃ f', f.Becomes f' ∧ (pile = f' :: fs ∨ ∃ g, pile = g :: f' :: fs) := by
  generalize hpile : f :: fs = old at h
  cases h with
  | stays hbecomes =>
      obtain ⟨rfl, rfl⟩ := List.cons.inj hpile
      exact ⟨_, hbecomes, .inl rfl⟩
  | calls hbecomes _ =>
      obtain ⟨rfl, rfl⟩ := List.cons.inj hpile
      exact ⟨_, hbecomes, .inr ⟨_, rfl⟩⟩
  | leaves hop => rw [hexits] at hop; cases hop
  | givesUp hop => rw [hgives] at hop; cases hop

/-- A continuation is an object with its record. -/
theorem exists_ref_of_cont? {h : Heap} {v : Value} {r : Cont} (hv : h.Holds v)
    (hr : h.cont? v = some r) : ∃ i, v = .ref .object i ∧ i ≠ 0 ∧ h.cell i = .cont r := by
  obtain ⟨i, hi, hc⟩ := Heap.cont?_eq_some hr
  obtain ⟨tag, rfl, hne⟩ := Value.cell?_eq_some_iff.1 hi
  have htag := (hv tag i rfl hne).2
  rw [hc] at htag
  exact ⟨i, by rw [← htag]; rfl, hne, hc⟩

theorem Booked.cont {s s' : State} {book book' : Book} {ins : Instr} (h : Booked s book)
    (hholds : ∀ v ∈ s.machine.conts.toList, s.heap.Holds v) (ht : Traced ins s s')
    (hescapes : s'.machine.escapes = book'.map (·.1))
    (hbook : ∀ p ∈ book', p ∈ book ∨ s'.heap.cont? p.1 = some p.2 ∧ p.2.exited = false) :
    Booked s' book' := by
  refine ⟨hescapes, fun p hp => (hbook p hp).elim (fun hold => ⟨?_, (h.records p hold).2⟩) id⟩
  have hmem {u : State} {b : Book} (hu : u.machine.escapes = b.map (·.1)) (hb : p ∈ b) :
      p.1 ∈ u.machine.conts.toList := by
    have hmem : p.1 ∈ u.machine.escapes := hu ▸ List.mem_map_of_mem hb
    rwa [Machine.escapes, List.mem_reverse] at hmem
  have hin := hmem h.escapes hold
  have hin' := hmem hescapes hp
  obtain ⟨i, hv, hne, hc⟩ := exists_ref_of_cont? (hholds _ hin) (h.records p hold).1
  rw [hv] at hin hin' ⊢
  exact Heap.cont?_ref (ht.records i _ hin hin' hc) hne

namespace Stage

section Steps

variable {C : Course} {S : Stage C} {book book' : Book} {E E' : Env} {w : System} {f : Frame}
  {s s' : State} {site : Site} {ins : Instr}

theorem Works.slots (h : S.Works book E w f) :
    w.state.machine.slots = E.frame S.self.array f.saved ++ C.words S.frames := by
  rw [h.comes.stands.shows.slots, slotsOf, List.flatMap_cons, h.has.slots, List.append_assoc]
  rfl

theorem Works.escapes (h : S.Works book E w f) :
    w.state.machine.escapes = E.conts.map (·.2) ++ C.escapes S.frames := by
  rw [h.comes.stands.shows.escapes, escapesOf_cons, h.has.conts]

/-- What the run finds in the code. -/
theorem Works.instr? (h : S.Works book E w f) (hs : S.sites[w.state.machine.pc]? = some site) :
    w.heap.instr? w.state.machine.code w.state.machine.pc = some site.instr := by
  have hinstr : f.proc.instrs[w.state.machine.pc]? = some site.instr := by
    rw [h.has.instrs, List.getElem?_map, hs, Option.map_some]
  rw [Proc.instrs, List.getElem?_map, Option.map_eq_some_iff] at hinstr
  obtain ⟨site', hsite', hinstr⟩ := hinstr
  rw [← hinstr]
  exact h.comes.stands.exists_place.1.instr? hsite'

theorem Works.step_eq {s : Scope} {k : Kind} (h : S.Works book E w f)
    (hs : S.sites[w.state.machine.pc]? = some (s.site ins k)) :
    step w.state = execute ins (w.state.atPc (w.state.machine.pc + 1)) :=
  CellLisp.step_eq (h.instr? hs)

/-- The code is not too long for the operands of its jumps. -/
theorem Works.length_sites (h : S.Works book E w f) : S.sites.length < 2 ^ 28 := by
  have hlen := congrArg List.length h.has.instrs
  rw [Proc.instrs, List.length_map, List.length_map] at hlen
  rw [← hlen]
  exact h.comes.stands.exists_place.1.length_sites
    (C.ground.addressable.stable h.comes.ran.stable)

/-- An instruction that stays in the frame. -/
theorem Works.next (h : S.Works book E w f) (hs : S.sites[w.state.machine.pc]? = some site)
    (hstays : site.instr.op.stays = true) (hstep : step w.state = .ok false s')
    (hfp : s'.machine.fp = w.state.machine.fp) (hcode : s'.machine.code = w.state.machine.code)
    (hslots : s'.machine.slots = E'.frame S.self.array f.saved ++ C.words S.frames)
    (hparams : E'.params.length = E.params.length)
    (hescapes : s'.machine.escapes = E'.conts.map (·.2) ++ C.escapes S.frames)
    (hnames : s'.machine.escapes = book'.map (·.1))
    (hbook : ∀ p ∈ book', p ∈ book ∨ s'.heap.cont? p.1 = some p.2 ∧ p.2.exited = false) :
    ∃ w' f', w'.state = s' ∧ S.Works book' E' w' f' ∧ Traced site.instr w.state s' := by
  obtain ⟨hexits, hgives, hcall, htail⟩ := of_stays hstays
  have hins := h.instr? hs
  obtain ⟨ins', w', pile', hins', rfl, hstepped, hunder, hadvances⟩ :=
    h.comes.next C.ground (C.tame _ (permits_of_ne hins hcall htail)) hstep
  obtain rfl := Option.some.inj (hins'.symm.trans hins)
  obtain ⟨f', hbecomes, rfl | ⟨g, rfl⟩⟩ := exists_of_advances hadvances hexits hgives
  · refine ⟨w', f', rfl, ⟨hunder, ⟨?_, ?_, ?_, ?_, hbecomes.back.trans h.has.back⟩,
      hcode.trans h.code, h.booked.cont (fun v hv => ?_) hstepped.toTraced hnames hbook⟩,
      hstepped.toTraced⟩
    · rw [hbecomes.proc, h.has.instrs]
    · have hshows := hunder.stands.shows.slots
      rw [slotsOf, List.flatMap_cons, List.append_assoc] at hshows
      rw [show f'.saved = f.saved by rw [Frame.saved, Frame.saved, hbecomes.back]]
      exact List.append_cancel_right (hshows.symm.trans hslots)
    · rw [hbecomes.args, h.has.args, hparams]
    · have hshows := hunder.stands.shows.escapes
      rw [escapesOf_cons] at hshows
      exact List.append_cancel_right (hshows.symm.trans hescapes)
    · exact w.wellFormed.holds_of_conts hv
  · -- the frame pointer would be higher
    have hlow : w.state.machine.fp = f.base S.frames _ := h.comes.stands.fp_eq
    have hhigh : w'.state.machine.fp = g.base (f' :: S.frames) _ := hunder.stands.fp_eq
    have hlt := g.lt_base (f' :: S.frames) C.start.state.machine
    have hle := f'.base_le [] S.frames C.start.state.machine
    rw [hbecomes.base_eq] at hle
    simp only [List.nil_append] at hle
    omega

/-- One that changes the operands and the store. -/
theorem Works.goesOn {pc : Nat} {v : Value} {t : State} (h : S.Works book E w f)
    (hs : S.sites[w.state.machine.pc]? = some site) (hstays : site.instr.op.stays = true)
    (hstep : step w.state = .ok false s') (next : S.Goes book E' pc v t)
    (hslots : s'.machine.slots = E'.frame S.self.array f.saved ++ C.words S.frames)
    (hparams : E'.params.length = E.params.length) (hE : E'.conts = E.conts)
    (hconts : s'.machine.conts = w.state.machine.conts)
    (hfp : s'.machine.fp = w.state.machine.fp) (hcode : s'.machine.code = w.state.machine.code)
    (hpc : s'.machine.pc = pc) (hval : s'.machine.val = v) (hstore : s'.store = t) :
    C.Finishes w.state := by
  have hsame : s'.machine.escapes = w.state.machine.escapes := by
    rw [Machine.escapes, hconts, Machine.escapes]
  obtain ⟨w', f', rfl, hw', -⟩ := h.next hs hstays hstep hfp hcode hslots hparams
    (hsame.trans (hE ▸ h.escapes)) (hsame.trans h.booked.escapes) fun p hp => .inl hp
  exact .next hstep (next w' f' hw' hpc hval hstore)

end Steps

/-- Only the words count. -/
theorem Goes.of_words {C : Course} {S : Stage C} {book : Book} {E E' : Env} {pc : Nat} {v : Value}
    {t : State} (h : S.Goes book E' pc v t) (hwords : E'.words = E.words) (hparams : E'.params = E.params)
    (hconts : E'.conts = E.conts) : S.Goes book E pc v t := by
  have hframe (saved : List Value) : E'.frame S.self.array saved = E.frame S.self.array saved := by
    rw [Env.frame, hwords, hparams, Env.frame]
  exact fun w f hw => h w f ⟨hw.comes, ⟨hw.has.instrs, hw.has.slots.trans (hframe _).symm,
    by rw [hparams]; exact hw.has.args, by rw [hconts]; exact hw.has.conts, hw.has.back⟩, hw.code,
    hw.booked⟩

/-! ## Instructions -/

section Instructions

variable {C : Course} {S : Stage C} {book : Book} {E E' : Env} {s : Scope} {k : Kind}
  {pc n : Nat} {v u x : Value} {t : State}

theorem Goes.const (hs : S.sites[pc]? = some (s.site ⟨.const, 0, u⟩ k))
    (next : S.Goes book E (pc + 1) u t) : S.Goes book E pc v t := by
  rintro w f h rfl - rfl
  exact h.goesOn hs rfl (h.step_eq hs) next h.slots rfl rfl rfl rfl rfl rfl rfl rfl

theorem Goes.jump (hs : S.sites[pc]? = some (s.site ⟨.jump, 0, .ofInt n⟩ k))
    (hn : n ≤ S.sites.length) (next : S.Goes book E n v t) : S.Goes book E pc v t := by
  rintro w f h rfl rfl rfl
  have hstep : step w.state = .ok false { w.state with machine := { w.state.machine with
      pc := n } } := by
    have hlen := h.length_sites
    rw [h.step_eq hs]
    simp only [execute, Value.word_ofInt (show n < 2 ^ 59 by omega)]
    rfl
  exact h.goesOn hs rfl hstep next h.slots rfl rfl rfl rfl rfl rfl rfl rfl

theorem Goes.jumpIfFalse (hs : S.sites[pc]? = some (s.site ⟨.jumpIfFalse, 0, .ofInt n⟩ k))
    (hn : n ≤ S.sites.length) (next : S.Goes book E (if v.isNil then n else pc + 1) v t) :
    S.Goes book E pc v t := by
  rintro w f h rfl rfl rfl
  have hstep : step w.state = .ok false { w.state with machine := { w.state.machine with
      pc := if w.state.machine.val.isNil then n else w.state.machine.pc + 1 } } := by
    have hlen := h.length_sites
    rw [h.step_eq hs]
    simp only [execute, act_bind, act_gets, Value.word_ofInt (show n < 2 ^ 59 by omega)]
    rw [show (w.state.atPc (w.state.machine.pc + 1)).machine.val.isNil = w.state.machine.val.isNil
      from rfl]
    cases w.state.machine.val.isNil <;> rfl
  exact h.goesOn hs rfl hstep next h.slots rfl rfl rfl rfl rfl rfl rfl rfl

/-- A word of the frame is on the stack. -/
theorem Works.top? {w : System} {f : Frame} (h : S.Works book E w f)
    (hu : (E.frame S.self.array f.saved)[n]? = some u) : w.state.machine.top? n = some u := by
  rw [Machine.top?_eq, h.slots, List.getElem?_append_left (List.getElem?_eq_some_iff.1 hu).1, hu]

theorem Goes.stackRef (hs : S.sites[pc]? = some (s.site ⟨.stackRef, n, .nil⟩ k))
    (hu : ∀ saved : List Value, saved.length = 3 → (E.frame S.self.array saved)[n]? = some u)
    (next : S.Goes book E (pc + 1) u t) : S.Goes book E pc v t := by
  rintro w f h rfl rfl rfl
  have htop : (w.state.atPc (w.state.machine.pc + 1)).machine.top? n = some u := h.top? (hu _ rfl)
  have hstep : step w.state = .ok false { w.state with machine := { w.state.machine with
      pc := w.state.machine.pc + 1, val := u } } := by
    rw [h.step_eq hs]
    simp only [execute, act_bind, act_gets, htop, require]
    rfl
  exact h.goesOn hs rfl hstep next h.slots rfl rfl rfl rfl rfl rfl rfl rfl

theorem Goes.stackSet (hs : S.sites[pc]? = some (s.site ⟨.stackSet, n, .nil⟩ k))
    (hu : ∀ saved : List Value, saved.length = 3 → (E.frame S.self.array saved)[n]? = some u)
    (hset : ∀ saved : List Value, saved.length = 3 →
      E'.frame S.self.array saved = (E.frame S.self.array saved).set n v)
    (hE : E.Like E') (next : S.Goes book E' (pc + 1) v t) : S.Goes book E pc v t := by
  rintro w f h rfl rfl rfl
  have hlt : n < (E.frame S.self.array f.saved).length := (List.getElem?_eq_some_iff.1 (hu _ rfl)).1
  have hsize : n < w.state.machine.stack.size := by
    rw [← Machine.length_slots, h.slots, List.length_append]
    omega
  have hstep : step w.state = .ok false { w.state with machine := {
      w.state.machine.setTop n w.state.machine.val with pc := w.state.machine.pc + 1 } } := by
    rw [h.step_eq hs]
    have hle : ¬ (w.state.atPc (w.state.machine.pc + 1)).machine.stack.size ≤ n := Nat.not_le.2 hsize
    simp only [execute, act_bind, act_gets]
    rw [if_neg hle]
    rfl
  refine h.goesOn hs rfl hstep next ?_ (by simpa using congrArg List.length hE.params)
    hE.conts rfl rfl rfl rfl rfl rfl
  change (w.state.machine.setTop n w.state.machine.val).slots = _
  rw [Machine.slots_setTop hsize, h.slots, hset _ rfl, List.set_append_left _ _ hlt]

theorem Goes.globalRef {r : Symbol} (hs : S.sites[pc]? = some (s.site ⟨.globalRef, 0, x⟩ k))
    (hr : t.heap.symbol? x = some r)
    (next : ∀ u, r.value = some u → S.Goes book E (pc + 1) u t)
    (hfails : ∀ s : State, r.value = none → s.store = t →
      C.refusal (.unbound (t.heap.symbolName x)) s) : S.Goes book E pc v t := by
  rintro w f h rfl rfl rfl
  have hr' : (w.state.atPc (w.state.machine.pc + 1)).heap.symbol? x = some r := hr
  have hexec := h.step_eq hs
  simp only [execute, operandSymbol, act_bind, act_gets, hr', require, pure, EStateM.pure] at hexec
  cases hvalue : r.value with
  | some u =>
      rw [hvalue] at hexec
      have hstep : step w.state = .ok false { w.state with machine := { w.state.machine with
          pc := w.state.machine.pc + 1, val := u } } := hexec
      exact h.goesOn hs rfl hstep (next u hvalue) h.slots rfl rfl rfl rfl rfl rfl rfl rfl
  | none =>
      rw [hvalue] at hexec
      exact .fails hexec (.inr (hfails _ hvalue rfl))

theorem Goes.globalSet (hs : S.sites[pc]? = some (s.site ⟨.globalSet, 0, x⟩ k))
    (next : S.Goes book E (pc + 1) v (t.assigned x v)) : S.Goes book E pc v t := by
  rintro w f h rfl rfl rfl
  have hstep : step w.state = .ok false
      ((w.state.atPc (w.state.machine.pc + 1)).assigned x w.state.machine.val) := h.step_eq hs
  exact h.goesOn hs rfl hstep next h.slots rfl rfl rfl rfl rfl rfl rfl rfl

theorem Goes.push (hs : S.sites[pc]? = some (s.site ⟨.push, 0, .nil⟩ k))
    (next : S.Goes book (E.push (.temp v)) (pc + 1) v t) : S.Goes book E pc v t := by
  rintro w f h rfl rfl rfl
  have hexec := h.step_eq hs
  simp only [execute, CellLisp.push, act_bind, act_gets] at hexec
  by_cases hfull : (w.state.atPc (w.state.machine.pc + 1)).machine.isFull = true
  · rw [if_pos hfull] at hexec
    exact .fails hexec (.inl rfl)
  · rw [if_neg hfull] at hexec
    have hstep : step w.state = .ok false { w.state with machine := { w.state.machine with
        pc := w.state.machine.pc + 1
        stack := w.state.machine.stack.push w.state.machine.val } } := hexec
    refine h.goesOn hs rfl hstep next ?_ rfl rfl rfl rfl rfl rfl rfl rfl
    exact (slots_push w.state.machine _).trans (by rw [h.slots]; rfl)

theorem Goes.drop (hs : S.sites[pc]? = some (s.site ⟨.drop, n, .nil⟩ k))
    (hn : n ≤ E.words.length) (hwords : E'.words = E.words.drop n) (hparams : E'.params = E.params)
    (hE : E'.conts = E.conts) (next : S.Goes book E' (pc + 1) v t) : S.Goes book E pc v t := by
  rintro w f h rfl rfl rfl
  have hslots : w.state.machine.slots
      = E.words.take n ++ (E'.frame S.self.array f.saved ++ C.words S.frames) := by
    rw [h.slots, Env.frame, Env.frame, hwords, hparams, ← List.append_assoc (E.words.take n),
      ← List.append_assoc (E.words.take n), List.take_append_drop]
  have hsize := congrArg List.length hslots
  rw [Machine.length_slots, List.length_append, List.length_take_of_le hn] at hsize
  have hstep : step w.state = .ok false { w.state with machine := { w.state.machine.truncate
      (E'.frame S.self.array f.saved ++ C.words S.frames).length with
        pc := w.state.machine.pc + 1 } } := by
    rw [h.step_eq hs]
    have hle : ¬ (w.state.atPc (w.state.machine.pc + 1)).machine.stack.size < n := by
      change ¬ w.state.machine.stack.size < n
      omega
    simp only [execute, act_bind, act_gets]
    rw [if_neg hle, show (E'.frame S.self.array f.saved ++ C.words S.frames).length
      = w.state.machine.stack.size - n by omega]
    rfl
  exact h.goesOn hs rfl hstep next (Machine.slots_truncate hslots) (by rw [hparams]) hE rfl rfl rfl rfl
    rfl rfl

theorem Goes.contRef (hs : S.sites[pc]? = some (s.site ⟨.contRef, n, .nil⟩ k))
    (hu : (E.conts.map (·.2))[n]? = some u) (next : S.Goes book E (pc + 1) u t) :
    S.Goes book E pc v t := by
  rintro w f h rfl rfl rfl
  have hcont : (w.state.atPc (w.state.machine.pc + 1)).machine.cont? n = some u := by
    change w.state.machine.cont? n = some u
    rw [Machine.cont?_eq, h.escapes,
      List.getElem?_append_left (List.getElem?_eq_some_iff.1 hu).1, hu]
  have hstep : step w.state = .ok false { w.state with machine := { w.state.machine with
      pc := w.state.machine.pc + 1, val := u } } := by
    rw [h.step_eq hs]
    simp only [execute, act_bind, act_gets, hcont, require]
    rfl
  exact h.goesOn hs rfl hstep next h.slots rfl rfl rfl rfl rfl rfl rfl rfl

theorem Goes.dynBind {r : Symbol} (hs : S.sites[pc]? = some (s.site ⟨.dynBind, 0, x⟩ k))
    (hr : t.heap.symbol? x = some r)
    (next : S.Goes book (E.push (.dynamic x)) (pc + 1) v (t.bound x v r.value)) :
    S.Goes book E pc v t := by
  rintro w f h rfl rfl rfl
  have hr' : (w.state.atPc (w.state.machine.pc + 1)).heap.symbol? x = some r := hr
  have hstep : step w.state = .ok false ((w.state.atPc (w.state.machine.pc + 1)).bound x
      w.state.machine.val r.value) := by
    rw [h.step_eq hs]
    simp only [execute, act_bind, act_gets, bindDynamic_eq]
    rw [hr']
    rfl
  exact h.goesOn hs rfl hstep next h.slots rfl rfl rfl rfl rfl rfl rfl rfl

theorem Goes.dynUnbind (hs : S.sites[pc]? = some (s.site ⟨.dynUnbind, n, .nil⟩ k))
    (hwords : E'.words = E.words) (hparams : E'.params = E.params) (hE : E'.conts = E.conts)
    (next : S.Goes book E' (pc + 1) v (t.unwound (t.machine.dyns.size - n))) :
    S.Goes book E pc v t := by
  rintro w f h rfl rfl rfl
  have hstep := step_dynUnbind (h.instr? hs) rfl
    (h.comes.length_le_of_dynUnbind C.ground (h.instr? hs) rfl)
  refine h.goesOn hs rfl hstep next ?_ (by rw [hparams]) hE rfl rfl rfl rfl rfl rfl
  rw [Env.frame, hwords, hparams, ← Env.frame, ← h.slots]
  rfl

/-! ### Copies -/

/-- Where the array of the copies is. -/
theorem frame_array {a : Value} (ha : S.self.array = some a) (saved : List Value) :
    (E.frame S.self.array saved)[E.words.length]? = some a := by
  rw [Env.frame, List.getElem?_append_right (Nat.le_refl _), Nat.sub_self, ha]
  rfl

/-- An index of a copy fits in a word. -/
theorem word_of_item {w : System} {a : Value} {i : Nat} (h : Addressable w)
    (hu : w.heap.item? a i = some u) :
    (Value.ofInt i).word = i ∧ ∃ b, w.heap.array? a = some b ∧
      (w.heap.payload b).items[i]? = some u := by
  obtain ⟨b, hb, hi⟩ := Option.bind_eq_some_iff.1 hu
  have hlt := (Array.getElem?_eq_some_iff.1 hi).1
  refine ⟨Value.word_ofInt ?_, b, hb, hi⟩
  have hcell : ∃ c, w.heap.cell c = .array b := by
    unfold Heap.array? at hb
    split at hb
    · rename_i c _
      split at hb
      · rename_i hc
        cases hb
        exact ⟨c, hc⟩
      · cases hb
    · cases hb
  obtain ⟨c, hc⟩ := hcell
  have hroom : w.heap.arena.capacity b ≤ 8 * w.heap.arena.limit := w.typed.heap.wf.capacity_le b
  have hfits : (w.heap.payload b).size ≤ w.heap.arena.capacity b :=
    w.typed.heap.fits c b (by rw [hc]; rfl)
  have hwords : 8 * (w.heap.payload b).items.size ≤ (w.heap.payload b).size := by
    cases w.heap.payload b <;> simp [Payload.items, Payload.size]
  have hlimit := h.words
  omega

theorem Works.envSlot {w : System} {f : Frame} {a : Value} {i : Nat} (h : S.Works book E w f)
    (ha : S.self.array = some a) (hu : w.heap.item? a i = some u) :
    (Value.ofInt i).word = i ∧ ∃ b, w.heap.array? a = some b ∧
      (w.heap.payload b).items[i]? = some u ∧
      envSlot E.words.length i (w.state.atPc (w.state.machine.pc + 1))
        = .ok (b, i) (w.state.atPc (w.state.machine.pc + 1)) := by
  obtain ⟨hword, b, hb, hi⟩ := word_of_item (C.ground.addressable.stable h.comes.ran.stable) hu
  exact ⟨hword, b, hb, hi, envSlot_ok (h.top? (frame_array ha _)) hb
    (Array.getElem?_eq_some_iff.1 hi).1⟩

theorem Works.envRef {w : System} {f : Frame} {a : Value} {i : Nat} (h : S.Works book E w f)
    (ha : S.self.array = some a) (hu : w.heap.item? a i = some u) :
    envRef E.words.length (Value.ofInt i).word (w.state.atPc (w.state.machine.pc + 1))
      = .ok u (w.state.atPc (w.state.machine.pc + 1)) := by
  obtain ⟨hword, b, hb, hi, hslot⟩ := h.envSlot ha hu
  rw [hword, CellLisp.envRef, act_bind, hslot]
  dsimp only
  rw [act_gets, Array.getD_eq_getD_getElem?]
  change EStateM.Result.ok ((w.heap.payload b).items[i]?.getD .nil) _ = _
  rw [hi, Option.getD_some]

theorem Goes.envRef {a : Value} {i : Nat}
    (hs : S.sites[pc]? = some (s.site ⟨.envRef, E.words.length, .ofInt i⟩ k))
    (ha : S.self.array = some a) (hu : t.heap.item? a i = some u)
    (next : S.Goes book E (pc + 1) u t) : S.Goes book E pc v t := by
  rintro w f h rfl rfl rfl
  have hstep : step w.state = .ok false { w.state with machine := { w.state.machine with
      pc := w.state.machine.pc + 1, val := u } } := by
    rw [h.step_eq hs]
    simp only [execute, act_bind, h.envRef ha hu]
    rfl
  exact h.goesOn hs rfl hstep next h.slots rfl rfl rfl rfl rfl rfl rfl rfl

theorem Goes.envSet {a : Value} {i : Nat}
    (hs : S.sites[pc]? = some (s.site ⟨.envSet, E.words.length, .ofInt i⟩ k))
    (ha : S.self.array = some a) (hu : t.heap.item? a i = some u)
    (next : S.Goes book E (pc + 1) v { t with heap := t.heap.withItem a i v }) :
    S.Goes book E pc v t := by
  rintro w f h rfl rfl rfl
  obtain ⟨hword, b, hb, -, hslot⟩ := h.envSlot ha hu
  have hstep : step w.state = .ok false { w.state.atPc (w.state.machine.pc + 1) with
      heap := w.heap.withItem a i w.state.machine.val } := by
    rw [h.step_eq hs, Heap.withItem, hb]
    simp only [execute, act_bind, hword, hslot]
    rfl
  exact h.goesOn hs rfl hstep next h.slots rfl rfl rfl rfl rfl rfl rfl rfl

/-! ### Names -/

section Names

variable {ps : List Value} {t' : State}

/-- What a variable's name stands for is fetched, unless it is global. -/
theorem Goes.refLocal {inlined : Option Value}
    (hs : S.sites[pc]? = some (s.site (refInstr s x inlined) k)) (hscope : Scoped S.self ps s E)
    (hx : S.self.local? E t x = some u) (next : S.Goes book E (pc + 1) u t) :
    S.Goes book E pc v t := by
  unfold Self.local? at hx
  cases hmeant : S.self.meant E x with
  | here w =>
      simp only [hmeant] at hx
      obtain rfl := Option.some.inj hx
      obtain ⟨n, hn, hword⟩ := hscope.here hmeant
      simp only [refInstr, hn] at hs
      exact .stackRef hs (fun saved hsaved => (hword saved hsaved).1) next
  | copied a i =>
      simp only [hmeant] at hx
      obtain ⟨hn, ha⟩ := hscope.copied hmeant
      simp only [refInstr, hn] at hs
      exact .envRef hs ha hx next
  | global => simp only [hmeant] at hx; cases hx

/-- What an assignment does to a variable is done. -/
theorem Goes.assign (hs : S.sites[pc]? = some (s.site (setInstr s x) k))
    (hscope : Scoped S.self ps s E) (ha : S.self.assign? E t x v = some (E', t'))
    (next : S.Goes book E' (pc + 1) v t') : S.Goes book E pc v t := by
  unfold Self.assign? at ha
  cases hmeant : S.self.meant E x with
  | here w =>
      simp only [hmeant] at ha
      obtain ⟨rfl, rfl⟩ := Prod.mk.inj (Option.some.inj ha)
      obtain ⟨n, hn, hword⟩ := hscope.here hmeant
      simp only [setInstr, hn] at hs
      exact .stackSet hs (fun saved hsaved => (hword saved hsaved).1)
        (fun saved hsaved => (hword saved hsaved).2 v) (Env.like_set E x v) next
  | copied a i =>
      simp only [hmeant] at ha
      obtain ⟨u, hu, he⟩ := Option.map_eq_some_iff.1 ha
      obtain ⟨rfl, rfl⟩ := Prod.mk.inj he
      obtain ⟨hn, harray⟩ := hscope.copied hmeant
      simp only [setInstr, hn] at hs
      exact .envSet hs harray hu next
  | global =>
      simp only [hmeant] at ha
      obtain ⟨rfl, rfl⟩ := Prod.mk.inj (Option.some.inj ha)
      simp only [setInstr, hscope.global hmeant] at hs
      exact .globalSet hs next

/-- A continuation is fetched. -/
theorem Goes.refCont {c : Value} (hs : S.sites[pc]? = some (s.site (contInstr s x) k))
    (hscope : Scoped S.self ps s E) (hx : S.self.cont? E t x = some c)
    (next : S.Goes book E (pc + 1) c t) : S.Goes book E pc v t := by
  rcases hscope.cont hx with ⟨n, hn, hget⟩ | ⟨i, a, hn, ha, hget⟩
  · simp only [contInstr, hn] at hs
    exact .contRef hs hget next
  · simp only [contInstr, hn] at hs
    exact .envRef hs ha hget next

end Names

end Instructions

end Stage

end Reference
end CellLisp
