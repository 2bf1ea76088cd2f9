import CellLisp.Machine.Run
import CellLisp.Proofs.Machine.Motion

/-!
# `CellLisp.Proofs.Machine.Undo` — what is undone on the way out

Three ways lead out of a dynamic binding: the end of its form, an exit, and the end of a run that
failed.  All of them undo the newest bindings one by one (`unwind_eq`), and what a symbol is
worth after that is the value that the oldest of its undone bindings displaced
(`cell_restoreAll`).  An exit also leaves the continuations from its own on (`exitTo_of_live`).

Nothing here asks for more than a state.
-/

namespace CellLisp

/-! ## Dynamic bindings -/

/-- A symbol gets back the global value that a dynamic binding displaced. -/
def Heap.restore (h : Heap) (b : DynBinding) : Heap :=
  h.modifySymbol b.symbol fun r => { r with value := b.old }

/-- Symbols get back the global values that dynamic bindings displaced, the first first. -/
def Heap.restoreAll (h : Heap) (bs : List DynBinding) : Heap := bs.foldl restore h

/-- The dynamic bindings from a depth on, the newest first. -/
def Machine.bindingsFrom (m : Machine) (depth : Nat) : List DynBinding :=
  (m.dyns.toList.drop depth).reverse

/-- The state once the dynamic bindings from a depth on are undone. -/
def State.unwound (s : State) (depth : Nat) : State :=
  { s with
    heap := s.heap.restoreAll (s.machine.bindingsFrom depth)
    machine := { s.machine with dyns := s.machine.dyns.shrink depth } }

section Bindings

variable {s : State} {h : Heap} {depth i : Nat}

theorem State.unwound_of_le (hd : s.machine.dyns.size ≤ depth) : s.unwound depth = s := by
  have hfrom : s.machine.bindingsFrom depth = [] := by
    rw [Machine.bindingsFrom, List.drop_eq_nil_of_le (by simpa using hd), List.reverse_nil]
  have hshrink : s.machine.dyns.shrink depth = s.machine.dyns := by
    rw [← Array.toList_inj, Array.toList_shrink, List.take_of_length_le (by simpa using hd)]
  rw [unwound, hfrom, hshrink]
  rfl

/-- One binding is undone, and then the others. -/
theorem State.unwound_pop {b : DynBinding} (hb : s.machine.dyns.back? = some b)
    (hd : depth < s.machine.dyns.size) :
    State.unwound { s with
      heap := s.heap.restore b
      machine := { s.machine with dyns := s.machine.dyns.pop } } depth = s.unwound depth := by
  obtain ⟨xs, hxs⟩ := Array.back?_eq_some_iff.1 hb
  rw [hxs, Array.size_push, Nat.lt_succ_iff] at hd
  have hfrom : s.machine.bindingsFrom depth
      = b :: (Machine.bindingsFrom { s.machine with dyns := xs } depth) := by
    rw [Machine.bindingsFrom, hxs, Array.toList_push, List.drop_append_of_le_length (by simpa using hd)]
    simp [Machine.bindingsFrom]
  have hshrink : xs.shrink depth = (xs.push b).shrink depth := by
    rw [← Array.toList_inj, Array.toList_shrink, Array.toList_shrink, Array.toList_push,
      List.take_append_of_le_length (by simpa using hd)]
  simp only [unwound, hfrom, Heap.restoreAll, List.foldl_cons, hxs, Array.pop_push, hshrink]

theorem unwindFrom_eq {n : Nat} (hn : s.machine.dyns.size ≤ depth + n) :
    unwindFrom depth n s = .ok () (s.unwound depth) := by
  induction n generalizing s with
  | zero => rw [State.unwound_of_le (by simpa using hn)]; rfl
  | succ n ih =>
      by_cases hd : depth < s.machine.dyns.size
      · obtain ⟨b, hb⟩ : ∃ b, s.machine.dyns.back? = some b := by
          rw [Array.back?_eq_getElem?]
          exact ⟨_, Array.getElem?_eq_getElem (by omega)⟩
        have hrest := ih (s := { s with
          heap := s.heap.restore b
          machine := { s.machine with dyns := s.machine.dyns.pop } }) (by
            rw [Array.size_pop]
            omega)
        rw [State.unwound_pop hb hd] at hrest
        rw [← hrest, unwindFrom, act_bind]
        simp only [act_get, if_pos hd, hb]
        rfl
      · rw [unwindFrom, act_bind]
        simp only [act_get, if_neg hd,
          State.unwound_of_le (Nat.le_of_not_lt hd)]
        rfl

/-- Unwinding undoes each of the newest bindings once, the newest first, and does nothing else. -/
theorem unwind_eq (depth : Nat) (s : State) : unwind depth s = .ok () (s.unwound depth) := by
  unfold unwind
  exact unwindFrom_eq (Nat.le_add_left _ _)

/-- The state once a symbol is bound dynamically that had the global value `old`. -/
def State.bound (s : State) (symbol value : Value) (old : Option Value) : State :=
  { s with
    heap := s.heap.modifySymbol symbol fun r => { r with value := some value }
    machine := { s.machine with dyns := s.machine.dyns.push ⟨symbol, old⟩ } }

/-- A dynamic binding notes the global value that it displaces. -/
theorem bindDynamic_eq (symbol value : Value) (s : State) :
    bindDynamic symbol value s = match s.heap.symbol? symbol with
      | some r => .ok () (s.bound symbol value r.value)
      | none => .error (.fatal .corrupt) s := by
  unfold bindDynamic operandSymbol
  rw [act_bind, act_bind, act_gets]
  cases s.heap.symbol? symbol <;> rfl

theorem Heap.cell_restore (h : Heap) (b : DynBinding) (i : Nat) :
    (h.restore b).cell i = match h.cell i with
      | .symbol s => .symbol { s with value := if b.symbol.cell? = some i then b.old else s.value }
      | c => c := by
  unfold restore modifySymbol
  cases hj : b.symbol.cell? with
  | none => cases h.cell i <;> simp
  | some j =>
      by_cases hji : j = i
      · subst hji
        cases hc : h.cell j with
        | symbol s =>
            simp only [hc]
            rw [cell_set_of_inUse (by rw [hc]; rfl), if_pos rfl, if_pos trivial]
        | free | pair | native | closure | bytecode | cont | array | string | stringStream
        | fileStream => simp only [hc]
      · have hsame : (match h.cell j with
            | .symbol s => h.set j (.symbol { s with value := b.old })
            | _ => h).cell i = h.cell i := by
          cases hc : h.cell j with
          | symbol s =>
              simp only
              rw [cell_set_of_inUse (by rw [hc]; rfl), if_neg (Ne.symm hji)]
          | free | pair | native | closure | bytecode | cont | array | string | stringStream
          | fileStream => rfl
        refine hsame.trans ?_
        cases h.cell i <;> simp [hji]

/-- Of each symbol the value is what undoing gives, and nothing else is another; what is no symbol
is as before. -/
theorem Heap.cell_restoreAll (h : Heap) (bs : List DynBinding) (i : Nat) :
    (h.restoreAll bs).cell i = match h.cell i with
      | .symbol s => .symbol { s with value := undone bs i s.value }
      | c => c := by
  induction bs generalizing h with
  | nil => rw [restoreAll, List.foldl_nil]; cases h.cell i <;> rfl
  | cons b bs ih =>
      rw [restoreAll, List.foldl_cons, ← restoreAll, ih, cell_restore]
      cases h.cell i <;> simp [undone_cons]

theorem Heap.valueAt_restoreAll {h : Heap} {bs : List DynBinding} {i : Nat}
    (hi : (h.cell i).tag = .symbol) : (h.restoreAll bs).valueAt i = undone bs i (h.valueAt i) := by
  unfold valueAt
  rw [cell_restoreAll]
  cases hc : h.cell i <;> simp_all [Cell.tag]

end Bindings

/-! ## Continuations -/

/-- A continuation once control has left it. -/
def Cont.left (k : Cont) : Cont := { k with exited := true }

/-- The contents of a cell once control has left it, if it is a continuation. -/
def Cell.left : Cell → Cell
  | .cont k => .cont k.left
  | c => c

/-- The state once the continuations from a depth on are left. -/
def State.dropped (s : State) (depth : Nat) : State :=
  { s with
    heap := (s.machine.conts.extract depth s.machine.conts.size).foldl Heap.markExited s.heap
    machine := { s.machine with conts := s.machine.conts.shrink depth } }

/-- The state after an exit to a continuation in force. -/
def State.exited (s : State) (k : Cont) (value : Value) : State :=
  let t := (s.dropped k.depth.toNat).unwound k.dynDepth.toNat
  { t with
    machine := { (t.machine.truncate k.sp.toNat).resume ⟨k.code, k.pc.toNat, k.fp.toNat⟩ with
      val := value } }

section Conts

variable {s : State} {h : Heap} {depth i : Nat} {target value : Value} {k : Cont}

theorem dropConts_eq (depth : Nat) (s : State) : dropConts depth s = .ok () (s.dropped depth) := rfl

theorem Heap.cell_markExited (h : Heap) (v : Value) (i : Nat) :
    (h.markExited v).cell i = if v.cell? = some i then (h.cell i).left else h.cell i := by
  unfold markExited cont?
  cases hj : v.cell? with
  | none => simp
  | some j =>
      simp only [Option.map_some, Option.some.injEq]
      by_cases hji : j = i
      · subst hji
        cases hc : h.cell j with
        | cont k =>
            simp only
            rw [cell_set_of_inUse (by rw [hc]; rfl), if_pos rfl, if_pos trivial]
            rfl
        | free | pair | native | closure | bytecode | symbol | array | string | stringStream
        | fileStream => simp [hc, Cell.left]
      · rw [if_neg hji]
        cases hc : h.cell j with
        | cont k =>
            simp only
            rw [cell_set_of_inUse (by rw [hc]; rfl), if_neg (Ne.symm hji)]
        | free | pair | native | closure | bytecode | symbol | array | string | stringStream
        | fileStream => simp only

theorem Cell.left_left (c : Cell) : c.left.left = c.left := by cases c <;> rfl

/-- The continuations that are left are marked, and nothing else is another. -/
theorem Heap.cell_markAll (h : Heap) (vs : List Value) (i : Nat) :
    (vs.foldl markExited h).cell i
      = if ∃ v ∈ vs, v.cell? = some i then (h.cell i).left else h.cell i := by
  induction vs generalizing h with
  | nil => simp
  | cons v vs ih =>
      rw [List.foldl_cons, ih, cell_markExited]
      by_cases hv : v.cell? = some i
      · simp [hv, Cell.left_left]
      · simp [hv]

theorem State.cell_dropped (s : State) (depth i : Nat) :
    (s.dropped depth).heap.cell i
      = if ∃ v ∈ s.machine.conts.toList.drop depth, v.cell? = some i then (s.heap.cell i).left
        else s.heap.cell i := by
  rw [dropped, ← Array.foldl_toList, Heap.cell_markAll, Array.toList_extract,
    List.extract_eq_take_drop, List.take_of_length_le (by simp)]

theorem State.machine_exited (s : State) (k : Cont) (value : Value) :
    (s.exited k value).machine = { s.machine with
      val := value
      code := k.code
      pc := k.pc.toNat
      fp := k.fp.toNat
      stack := s.machine.stack.shrink k.sp.toNat
      dyns := s.machine.dyns.shrink k.dynDepth.toNat
      conts := s.machine.conts.shrink k.depth.toNat } := rfl

/-- After an exit the continuations from the target on are marked, the symbols bound since it was
established are as undoing leaves them, and nothing else is another. -/
theorem State.cell_exited (s : State) (k : Cont) (value : Value) (i : Nat) :
    (s.exited k value).heap.cell i = match (s.dropped k.depth.toNat).heap.cell i with
      | .symbol r => .symbol { r with
          value := undone (s.machine.bindingsFrom k.dynDepth.toNat) i r.value }
      | c => c := Heap.cell_restoreAll _ _ i

/-- An exit to a continuation in force goes back to where it resumes. -/
theorem exitTo_of_live (ht : target.object?.isSome) (hk : s.heap.cont? target = some k)
    (hlive : k.exited = false) (hentry : s.machine.conts[k.depth.toNat]? = some target)
    (hsp : k.sp.toNat ≤ s.machine.stack.size) :
    exitTo target value s = .ok () (s.exited k value) := by
  have hfresh : (s.machine.conts[k.depth.toNat]? != some target ||
      decide (s.machine.stack.size < k.sp.toNat)) = false := by
    rw [hentry, bne_self_eq_false, decide_eq_false (Nat.not_lt.2 hsp), Bool.or_false]
  unfold exitTo
  rw [act_bind]
  simp only [act_gets, ht, if_true, hk, hlive]
  rw [if_neg Bool.false_ne_true, act_bind]
  simp only [act_gets, hfresh]
  rw [if_neg Bool.false_ne_true, act_bind, dropConts_eq]
  simp only [act_bind, unwind_eq]
  rfl

/-- An exit to a continuation that was left fails. -/
theorem exitTo_of_left (ht : target.object?.isSome) (hk : s.heap.cont? target = some k)
    (hleft : k.exited = true) :
    exitTo target value s = .error (.error .exitedCont) s := by
  unfold exitTo
  rw [act_bind]
  simp only [act_gets, ht, if_true, hk, hleft]
  rfl

/-- An exit to what is no continuation fails. -/
theorem exitTo_of_none (hk : (if target.object?.isSome then s.heap.cont? target else none) = none) :
    exitTo target value s = typeError .continuation target s := by
  unfold exitTo
  rw [act_bind]
  simp only [act_gets, hk]

end Conts

end CellLisp
