import CellLisp.Proofs.State.Instructions
import CellLisp.Proofs.State.Interning

/-!
# `CellLisp.Proofs.State.Assembly` — the instructions of a procedure are a growing array

Code is made and led to from then on.  Instructions are emitted to it and jumps in it pointed to
their targets; in between the heap is collected, cells and blocks are allocated and changed in
place, the roots change, and instructions are emitted to other code, all in any order.  An
`Assembly` is what was done, the newest first.

    emissions      the instructions that were emitted, oldest first
    answers        the places that emitting them answered, oldest first
    lastOperand    the operand that a place was given last, by emitting or by pointing

`Records` says what the code is to its user then: the instruction at a place is the one that was
emitted there, with the operand that the place was given last.  What else the roots or the operand
of an instruction lead to stays as it is, so no growth takes an operand away and none touches other
code.
-/

namespace CellLisp

/-! ## What is done -/

/-- What is done beside one procedure. -/
inductive State.Meanwhile (v : Value) (s : State) : State → Prop
  | collected : Meanwhile v s (s.collect none)
  /-- A cell was placed. -/
  | placed {c : Cell} {u : Value} {s' : State} : s.heap.Placeable c → allocCell c s = .ok u s' →
      Meanwhile v s s'
  /-- A block was claimed and filled. -/
  | filled {bytes : Nat} {p : Payload} {b : Block} {s' : State} : p.size ≤ bytes →
      (∀ u ∈ p.references, u ∈ s.rootValues) → allocPayload bytes p s = .ok b s' →
      Meanwhile v s s'
  /-- Another cell got other contents. -/
  | altered {j : Nat} {c : Cell} : v.cell? ≠ some j →
      State.InOrder { s with heap := s.heap.set j c } →
      Meanwhile v s { s with heap := s.heap.set j c }
  /-- Another block got other contents. -/
  | rewritten {b : Block} {f : Payload → Payload} :
      (∀ i, v.cell? = some i → (s.heap.cell i).block? ≠ some b) →
      State.InOrder { s with heap := s.heap.modifyPayload b f } →
      Meanwhile v s { s with heap := s.heap.modifyPayload b f }
  /-- An instruction was emitted to other code. -/
  | emitted {u x : Value} {r : Bytecode} {is : List Instr} {op : Opcode} {modifier n : Nat}
      {s' : State} : u ≠ v → s.heap.Reaches s.rootValues u → s.heap.Assembled u r is →
      s.heap.Holds x → emit u op modifier x s = .ok n s' → Meanwhile v s s'
  /-- A jump in other code was pointed to its target. -/
  | patched {u : Value} {r : Bytecode} {is : List Instr} {place target : Nat} {s' : State} :
      u ≠ v → s.heap.Reaches s.rootValues u → s.heap.Assembled u r is → place < is.length →
      patch u place target s = .ok () s' → Meanwhile v s s'
  /-- Anything else but the heap became other. -/
  | rearranged {s' : State} : s'.heap = s.heap → s'.InOrder → Meanwhile v s s'

/-- Something done with a procedure that is being built, or beside it. -/
inductive Edit where
  /-- An instruction was emitted, and a place answered. -/
  | emitted (instr : Instr) (place : Nat)
  | patched (place target : Nat)
  | other

/-- The instructions that were emitted, oldest first. -/
def emissions : List Edit → List Instr
  | [] => []
  | .emitted instr _ :: past => emissions past ++ [instr]
  | .patched _ _ :: past => emissions past
  | .other :: past => emissions past

/-- The places that were answered, oldest first. -/
def answers : List Edit → List Nat
  | [] => []
  | .emitted _ place :: past => answers past ++ [place]
  | .patched _ _ :: past => answers past
  | .other :: past => answers past

/-- The operand that a place was given last. -/
def lastOperand (place : Nat) : List Edit → Option Value
  | [] => none
  | .emitted instr _ :: past =>
    if place = (emissions past).length then some instr.operand else lastOperand place past
  | .patched p target :: past =>
    if place = p then some (.ofInt target) else lastOperand place past
  | .other :: past => lastOperand place past

/-- An edit takes one state to another.  Only instructions that were emitted are patched. -/
inductive Edit.Takes (v : Value) (past : List Edit) (s : State) : Edit → State → Prop
  | emitted {op : Opcode} {modifier n : Nat} {x : Value} {s' : State} : s.heap.Holds x →
      emit v op modifier x s = .ok n s' → Takes v past s (emitted ⟨op, modifier, x⟩ n) s'
  | patched {place target : Nat} {s' : State} : place < (emissions past).length →
      patch v place target s = .ok () s' → Takes v past s (patched place target) s'
  | other {s' : State} : s.Meanwhile v s' → Takes v past s other s'

/-- What was done since code was made, all the time being led to. -/
inductive Assembly (v : Value) (r : Bytecode) : List Edit → State → Prop
  | begun {s s₁ s₂ : State} : s.InOrder →
      s.heap.Holds r.name ∧ s.heap.Reaches s.rootValues r.name →
      s.heap.Holds r.doc ∧ s.heap.Reaches s.rootValues r.doc →
      makeBytecode r.name r.doc r.arity s = .ok v s₁ → s₂.heap = s₁.heap → s₂.InOrder →
      s₂.heap.Reaches s₂.rootValues v → Assembly v r [] s₂
  | next {past : List Edit} {e : Edit} {s s' : State} : Assembly v r past s →
      e.Takes v past s s' → s'.heap.Reaches s'.rootValues v → Assembly v r (e :: past) s'

/-! ## The instructions as they are -/

section Current

variable {past : List Edit} {place : Nat} {instr : Instr} {x : Value}

/-- The instructions with the operands that their places were given last. -/
def current : List Edit → List Instr
  | [] => []
  | .emitted instr _ :: past => current past ++ [instr]
  | .patched place target :: past =>
    (current past).modify place fun i => { i with operand := .ofInt target }
  | .other :: past => current past

theorem length_current (past : List Edit) : (current past).length = (emissions past).length := by
  induction past with
  | nil => rfl
  | cons e past ih => cases e <;> simp [current, emissions, ih]

theorem getElem?_current (past : List Edit) (place : Nat) : (current past)[place]? =
    (emissions past)[place]?.bind fun instr =>
      (lastOperand place past).map fun x => { instr with operand := x } := by
  induction past with
  | nil => rfl
  | cons e past ih =>
      cases e with
      | emitted instr n =>
          rw [current, emissions, lastOperand, List.getElem?_append, List.getElem?_append,
            length_current]
          rcases Nat.lt_trichotomy place (emissions past).length with hlt | rfl | hgt
          · rw [if_pos hlt, if_pos hlt, if_neg (by omega), ih]
          · simp
          · rw [if_neg (by omega), if_neg (by omega), List.getElem?_eq_none (by simp; omega)]
            rfl
      | patched p target =>
          rw [current, emissions, lastOperand, List.getElem?_modify, ih]
          by_cases hp : place = p
          · subst hp
            have hlength := length_current past
            cases hinstr : (emissions past)[place]? with
            | none => simp
            | some instr =>
                -- a place that was emitted has been given an operand
                have hlt := (List.getElem?_eq_some_iff.1 hinstr).1
                rw [hinstr, List.getElem?_eq_getElem (by omega)] at ih
                cases hlast : lastOperand place past with
                | none =>
                    rw [hlast] at ih
                    cases ih
                | some x => simp
          · simp [hp, Ne.symm hp]
      | other => exact ih

/-- What was emitted at a place is there, with the operand that the place was given last. -/
theorem exists_lastOperand (h : (emissions past)[place]? = some instr) :
    ∃ x, lastOperand place past = some x ∧
      (current past)[place]? = some { instr with operand := x } := by
  have hlt := (List.getElem?_eq_some_iff.1 h).1
  have hget := getElem?_current past place
  rw [h, List.getElem?_eq_getElem (by rw [length_current]; exact hlt)] at hget
  cases hlast : lastOperand place past with
  | none =>
      rw [hlast] at hget
      cases hget
  | some x =>
      refine ⟨x, rfl, ?_⟩
      rw [getElem?_current, h, hlast]
      rfl

/-- It is the one it was emitted with, or a target. -/
theorem lastOperand_cases (hx : lastOperand place past = some x)
    (h : (emissions past)[place]? = some instr) : x = instr.operand ∨ ∃ n : Nat, x = .ofInt n := by
  induction past with
  | nil => cases hx
  | cons e past ih =>
      cases e with
      | emitted new n =>
          rw [lastOperand] at hx
          rw [emissions, List.getElem?_append] at h
          split at hx
          · subst_vars
            obtain rfl : new = instr := by simpa using h
            exact .inl (Option.some.inj hx).symm
          · split at h
            · exact ih hx h
            · have hlt := (List.getElem?_eq_some_iff.1 h).1
              simp only [List.length_singleton] at hlt
              omega
      | patched p target =>
          rw [lastOperand] at hx
          split at hx
          · exact .inr ⟨target, (Option.some.inj hx).symm⟩
          · exact ih hx h
      | other => exact ih hx h

end Current

/-! ## What stays as it is -/

section Assembling

variable {s s' : State} {u v : Value} {r : Bytecode} {is : List Instr} {past : List Edit} {e : Edit}

/-- What is done beside code that is led to leaves it as it is. -/
theorem State.Meanwhile.assembled (h : s.Meanwhile v s') (hs : s.InOrder)
    (hv : s.heap.Reaches s.rootValues v) (ha : s.heap.Assembled v r is) :
    s'.InOrder ∧ s'.heap.Assembled v r is := by
  have hgrown : ∀ t, s.Grows [] t → t.InOrder ∧ t.heap.Assembled v r is := fun t h =>
    ⟨h.order, ha.kept hs.isFree_zero (h.kept.mono (List.subset_append_left _ _)) hv⟩
  have hother : ∀ {t : State} {u : Value} {A : List Value} {r' : Bytecode} {is' : List Instr},
      s.heap.Assembled u r' is' → u ≠ v → s.Around A u t → t.InOrder ∧ t.heap.Assembled v r is :=
    fun hu hne h => ⟨h.order, ha.around hs h (hv.mono (List.subset_append_left _ _))
      (hu.cell?_ne hs.isFree_zero ha hne)⟩
  cases h with
  | collected =>
      exact hgrown _ (State.grows_collect hs (fun _ hc => by cases hc) fun _ hv => by cases hv)
  | placed hc h =>
      have hgrows := ((gives_allocCell (E := fun _ => False) hs hc).of_ok h).1
      exact hgrown _ (hgrows.mono (List.nil_subset _))
  | filled hsize hrefs h =>
      exact hgrown _ ((gives_allocPayload (E := fun _ => False) hs hsize hrefs).of_ok h).1
  | @altered j c hne hs' =>
      refine ⟨hs', ha.congr hs.isFree_zero (fun i hi => ?_) fun _ _ _ _ => rfl⟩
      refine s.heap.cell_set_of_ne ?_ _
      rintro rfl
      exact hne hi
  | @rewritten b f hne hs' =>
      refine ⟨hs', ha.congr hs.isFree_zero (fun _ _ => rfl) fun i c hi hc => ?_⟩
      have hoffset : c.offset ≠ b.offset := by
        intro heq
        obtain rfl : c = b := congrArg Block.mk heq
        exact hne i hi hc
      refine (Arena.record?_modify _ _ _ _).trans ?_
      simp only [if_neg hoffset, Option.map_id']
  | emitted hne hreach hu hx h =>
      exact hother hu hne ((gives_emit (E := fun _ => False) hs hu hreach _ _ hx).of_ok h).2.1
  | patched hne hreach hu _ h =>
      obtain ⟨t, hpatch, haround, -⟩ := exists_patch hs hu _ _
      rw [hpatch] at h
      cases h
      exact hother hu hne haround
  | rearranged hheap hs' =>
      refine ⟨hs', ?_⟩
      rw [hheap]
      exact ha

/-- A state in order in which the code that is led to has the instructions it was given, and each
was answered with its place. -/
structure State.Assembling (v : Value) (r : Bytecode) (past : List Edit) (s : State) : Prop where
  order : s.InOrder
  reaches : s.heap.Reaches s.rootValues v
  code : s.heap.Assembled v r (current past)
  places : answers past = List.range (emissions past).length

/-- One edit. -/
theorem Edit.Takes.assembling (h : e.Takes v past s s') (hs : s.Assembling v r past)
    (hreach : s'.heap.Reaches s'.rootValues v) : s'.Assembling v r (e :: past) := by
  cases h with
  | emitted hx h =>
      obtain ⟨rfl, haround, hcode⟩ :=
        (gives_emit (E := fun _ => False) hs.order hs.code hs.reaches _ _ hx).of_ok h
      refine ⟨haround.order, hreach, hcode, ?_⟩
      rw [answers, emissions, hs.places, length_current, List.length_append,
        List.length_singleton, List.range_succ]
  | patched _ h =>
      obtain ⟨t, hpatch, haround, hcode⟩ := exists_patch hs.order hs.code _ _
      rw [hpatch] at h
      cases h
      exact ⟨haround.order, hreach, hcode, hs.places⟩
  | other h =>
      obtain ⟨horder, hcode⟩ := h.assembled hs.order hs.reaches hs.code
      exact ⟨horder, hreach, hcode, hs.places⟩

/-- All edits. -/
theorem Assembly.assembling (h : Assembly v r past s) : s.Assembling v r past := by
  induction h with
  | @begun s s₁ s₂ hs hname hdoc hmake hheap hs₂ hreach =>
      obtain ⟨-, hcode⟩ := (gives_makeBytecode (E := fun _ => False) hs hname hdoc).of_ok hmake
      refine ⟨hs₂, hreach, ?_, rfl⟩
      rw [hheap]
      exact hcode
  | next _ he hreach ih => exact he.assembling ih hreach

variable {op : Opcode} {modifier n place target : Nat} {x : Value}

theorem Assembly.emitted (h : Assembly v r past s) (hx : s.heap.Holds x)
    (hok : emit v op modifier x s = .ok n s') :
    Assembly v r (.emitted ⟨op, modifier, x⟩ n :: past) s' := by
  have hs := h.assembling
  have hgives := gives_emit (E := fun _ => False) hs.order hs.code hs.reaches op modifier hx
  exact h.next (.emitted hx hok) ((hgives.of_ok hok).2.1.reaches hs.reaches)

theorem Assembly.patched (h : Assembly v r past s) (hplace : place < (emissions past).length)
    (hok : patch v place target s = .ok () s') :
    Assembly v r (.patched place target :: past) s' := by
  have hs := h.assembling
  obtain ⟨t, hpatch, haround, -⟩ := exists_patch hs.order hs.code place target
  rw [hpatch] at hok
  cases hok
  exact h.next (.patched hplace hpatch) (haround.reaches hs.reaches)

/-- What code is to its user after all that was done with it. -/
structure State.Records (v : Value) (r : Bytecode) (past : List Edit) (s : State) : Prop where
  /-- The place of an instruction is the number of those emitted before it. -/
  places : answers past = List.range (emissions past).length
  length : codeLength v s = .ok (emissions past).length s
  /-- Name, documentation and arity are those it was made with, and there is room for all its
  instructions. -/
  room : ∃ block, s.heap.bytecode? v = some { r with code := block } ∧
    (emissions past).length * Instr.bytes ≤ s.heap.arena.capacity block
  /-- At a place stands what was emitted there, with the operand that the place was given last.
  The operand is there, and the code leads to it. -/
  reads : ∀ place instr, (emissions past)[place]? = some instr → ∃ x,
    lastOperand place past = some x ∧ s.heap.instr? v place = some { instr with operand := x } ∧
      s.heap.Holds x ∧ s.heap.Reaches s.rootValues x
  /-- The words of the block stand for the same instructions. -/
  words : ∀ b place instr, s.heap.bytecode? v = some b → (emissions past)[place]? = some instr →
    instr.modifier < 0x10000 → instr.operand.IsWord →
    s.heap.straysAt? b.code place = s.heap.instr? v place
  /-- An instruction can be emitted unless a store is full, whether anything leads to its operand
  or not; what the operand and the roots lead to but the code itself stays as it is. -/
  emits : ∀ op modifier x, s.heap.Holds x →
    Gives (fun _ => False) (emit v op modifier x) s fun n s' => n = (emissions past).length ∧
      s.Around [x] v s' ∧ Assembly v r (.emitted ⟨op, modifier, x⟩ n :: past) s'
  /-- So can any instruction be pointed to a target. -/
  patches : ∀ place target, place < (emissions past).length →
    ∃ s', patch v place target s = .ok () s' ∧ s.Around [] v s' ∧
      Assembly v r (.patched place target :: past) s'
  /-- Other code keeps its instructions meanwhile. -/
  spares : ∀ A s', s.Around A v s' → ∀ u r' is, u ≠ v → s.heap.Reaches s.rootValues u →
    s.heap.Assembled u r' is → s'.heap.Assembled u r' is

/-- Instructions are appended and pointed to their targets as in an array, however often it grows
and wherever the collections fall. -/
theorem Assembly.records (h : Assembly v r past s) : s.Records v r past := by
  have hs := h.assembling
  obtain ⟨i, b, rfl, hi, hr, hcode⟩ := hs.code.stores hs.order.heap
  have hfound := Heap.bytecode?_of_cell hi hcode.cell
  have hinstr : ∀ place instr, (current past)[place]? = some instr →
      s.heap.instr? (.ref .bytecode i) place = some instr := by
    intro place instr hplace
    simp only [Heap.instr?, hfound, hcode.instrs, List.getElem?_toArray, hplace]
  refine
    { places := hs.places
      length := ?_
      room := ⟨b.code, by rw [hr]; exact hfound, by rw [← length_current]; exact hcode.room⟩
      reads := fun place instr hplace => ?_
      words := fun b' place instr hb' hplace hm hx => ?_
      emits := fun op modifier x hx => ?_
      patches := fun place target hplace => ?_
      spares := fun A s' haround u r' is hne hu hcode' => ?_ }
  · unfold codeLength
    rw [act_bind, hcode.bytecodeOf_eq hi]
    simp only [act_gets, hcode.instrs, List.size_toArray, length_current]
  · obtain ⟨x, hlast, hget⟩ := exists_lastOperand hplace
    have hmem := hcode.operand_mem (List.mem_of_getElem? hget)
    exact ⟨x, hlast, hinstr place _ hget, (hs.order.heap.wf.sound i hcode.inUse).values x hmem,
      Heap.reaches_of_references hs.reaches (Value.cell?_eq_some_iff.2 ⟨_, rfl, hi⟩) hmem⟩
  · obtain rfl : b = b' := Option.some.inj (hfound.symm.trans hb')
    obtain ⟨x, hlast, hget⟩ := exists_lastOperand hplace
    rw [hinstr place _ hget]
    refine Heap.straysAt?_of_payload hs.order.heap.wf hcode.claims hcode.payload hcode.room hget hm ?_
    rcases lastOperand_cases hlast hplace with rfl | ⟨n, rfl⟩
    · exact hx
    · exact Value.isWord_ofInt n
  · refine (gives_emit hs.order hs.code hs.reaches op modifier hx).with_ok.mono ?_
    rintro n s' ⟨⟨rfl, haround, -⟩, hok⟩
    exact ⟨length_current past, haround, h.emitted hx hok⟩
  · obtain ⟨s', hok, haround, -⟩ := exists_patch hs.order hs.code place target
    exact ⟨s', hok, haround, h.patched hplace hok⟩
  · exact hcode'.around hs.order haround (hu.mono (List.subset_append_left _ _))
      (hs.code.cell?_ne hs.order.isFree_zero hcode' (Ne.symm hne))

/-- What is only allocated beside the code leaves it led to. -/
theorem Assembly.beside (h : Assembly v r past s) (hmeanwhile : s.Meanwhile v s')
    (hgrows : s.Grows [] s') : Assembly v r (.other :: past) s' :=
  h.next (.other hmeanwhile) ((State.Around.of_grows (A := []) hgrows).reaches h.assembling.reaches)

end Assembling

/-! ### Code that outgrows its first block -/

section Outgrown

variable {s s' : State} {v : Value} {r : Bytecode} {past : List Edit}

theorem Assembly.of_protected {n : Nat} {s₁ : State} (hs : s.InOrder)
    (hname : s.heap.Holds r.name ∧ s.heap.Reaches s.rootValues r.name)
    (hdoc : s.heap.Holds r.doc ∧ s.heap.Reaches s.rootValues r.doc)
    (hmake : makeBytecode r.name r.doc r.arity s = .ok v s₁) (hprotect : protect v s₁ = .ok n s') :
    Assembly v r [] s' := by
  obtain ⟨hgrows, i, block, rfl, hc, -⟩ :=
    (gives_makeBytecode (E := fun _ => False) hs hname hdoc).of_ok hmake
  obtain rfl := (gives_protect (E := fun _ => False)).of_ok hprotect
  refine .begun hs hname hdoc hmake rfl (hgrows.order.with_roots fun u hu => ?_)
    (Heap.reaches_of_mem (State.mem_rootValues_of_roots Array.mem_push_self))
  rcases Array.mem_push.1 hu with hu | rfl
  · exact hgrows.order.holds_root hu
  · rintro _ _ ⟨⟩ -
    rw [hc]
    exact ⟨rfl, rfl⟩

/-- Emits some instructions. -/
def emitAll (code : Value) : List Instr → Act Unit
  | [] => return
  | instr :: rest => do
    let _ ← emit code instr.op instr.modifier instr.operand
    emitAll code rest

/-- The edits that emitting them is. -/
def emittedAll : List Instr → List Edit → List Edit
  | [], past => past
  | instr :: rest, past => emittedAll rest (.emitted instr (emissions past).length :: past)

theorem Assembly.emitted_all {is : List Instr} (h : Assembly v r past s)
    (his : ∀ instr ∈ is, instr.operand.cell? = none) (hok : emitAll v is s = .ok () s') :
    Assembly v r (emittedAll is past) s' := by
  induction is generalizing past s with
  | nil =>
      cases hok
      exact h
  | cons instr rest ih =>
      obtain ⟨n, s₁, hemit, hrest⟩ := exists_of_bind_eq_ok hok
      have hx := Heap.holds_of_cell?_eq_none (h := s.heap) (his instr List.mem_cons_self)
      have hs := h.assembling
      have hn := ((gives_emit (E := fun _ => False) hs.order hs.code hs.reaches _ _ hx).of_ok
        hemit).1
      rw [length_current] at hn
      subst hn
      exact ih (h.emitted hx hemit) (fun j hj => his j (List.mem_cons_of_mem _ hj)) hrest

/-- Code without a name that takes no arguments. -/
def unnamed : Bytecode := { name := .nil, doc := .nil, arity := .exactly 0, code := ⟨0⟩ }

/-- Fills new code with jumps, emits one instruction more, with a new pair that nothing else leads
to, and points one of the jumps behind it. -/
def outgrowCode : Act (Value × Value) := do
  let v ← makeBytecode unnamed.name unnamed.doc unnamed.arity
  let _ ← protect v
  emitAll v (List.replicate initialRoom ⟨.jump, 0, .nil⟩)
  let x ← cons .nil .nil
  let _ ← emit v .const 7 x
  patch v 3 9
  return (v, x)

theorem exists_outgrowCode : ∃ r s, outgrowCode (.initial .sparse .empty) = .ok r s := by
  have hok : (match outgrowCode (.initial .sparse .empty) with
      | .ok _ _ => true
      | .error _ _ => false) = true := by decide +kernel
  cases h : outgrowCode (.initial .sparse .empty) with
  | ok r s => exact ⟨r, s, rfl⟩
  | error c s =>
      rw [h] at hok
      cases hok

/-- What was done, and then a collection. -/
def outgrownPast (x : Value) : List Edit :=
  .other :: .patched 3 9 :: .emitted ⟨.const, 7, x⟩ initialRoom :: .other ::
    emittedAll (List.replicate initialRoom ⟨.jump, 0, .nil⟩) []

/-- After a collection all nine are there in a larger block, the pointed jump with its target and
the last one with its pair. -/
theorem Assembly.records_outgrown : ∃ v x s, Assembly v unnamed (outgrownPast x) s ∧
    s.Records v unnamed (outgrownPast x) ∧ s.heap.instr? v 3 = some ⟨.jump, 0, .int 9⟩ ∧
    s.heap.instr? v 8 = some ⟨.const, 7, x⟩ ∧ x.isPair = true ∧ s.heap.Holds x := by
  obtain ⟨⟨v, x⟩, s, h⟩ := exists_outgrowCode
  obtain ⟨v, s₁, hmake, h⟩ := exists_of_bind_eq_ok h
  obtain ⟨_, s₂, hprotect, h⟩ := exists_of_bind_eq_ok h
  obtain ⟨⟨⟩, s₃, hfill, h⟩ := exists_of_bind_eq_ok h
  obtain ⟨x, s₄, hcons, h⟩ := exists_of_bind_eq_ok h
  obtain ⟨n, s₅, hemit, h⟩ := exists_of_bind_eq_ok h
  obtain ⟨⟨⟩, s₆, hpatch, h⟩ := exists_of_bind_eq_ok h
  cases h
  have hnil : ∀ h : Heap, h.Holds .nil := fun _ => Heap.holds_of_cell?_eq_none rfl
  have hstart : Assembly v unnamed [] s₂ := by
    refine .of_protected (State.tabled_initial .sparse .empty).order ⟨hnil _, ?_⟩ ⟨hnil _, ?_⟩
      hmake hprotect <;> exact nofun
  have hfilled := hstart.emitted_all (by decide) hfill
  have hplaceable : s₃.heap.Placeable (.pair .nil .nil) :=
    Heap.placeable_of_values rfl rfl (by simp [Cell.values, hnil])
  obtain ⟨hgrows, hplaced⟩ :=
    (gives_allocCell (E := fun _ => False) hfilled.assembling.order hplaceable).of_ok hcons
  have hpaired := hfilled.beside (.placed hplaceable hcons) (hgrows.mono (List.nil_subset _))
  obtain ⟨i, -, rfl, hcell⟩ := hplaced.exists_index
  have hx : s₄.heap.Holds (.ref .pair i) := by
    rintro _ _ ⟨⟩ -
    rw [hcell]
    exact ⟨rfl, rfl⟩
  have hlength := ((hpaired.records.emits .const 7 _ hx).of_ok hemit).1
  obtain rfl : n = initialRoom := hlength.trans (by decide)
  have hpointed := (hpaired.emitted hx hemit).patched (show 3 < 9 by decide) hpatch
  have hcollected : s.Grows [] (s.collect none) :=
    State.grows_collect hpointed.assembling.order (fun _ hc => by cases hc) fun _ hv => by cases hv
  have hdone := hpointed.beside .collected hcollected
  have hrecords := hdone.records
  obtain ⟨x, hx, hjump, -⟩ := hrecords.reads 3 ⟨.jump, 0, .nil⟩ rfl
  obtain ⟨y, hy, hconst, hholds, -⟩ := hrecords.reads 8 ⟨.const, 7, .ref .pair i⟩ rfl
  cases hx
  cases hy
  exact ⟨v, .ref .pair i, _, hdone, hrecords, hjump, hconst, rfl, hholds⟩

end Outgrown

end CellLisp
