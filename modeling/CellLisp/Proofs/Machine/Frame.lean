import Mathlib.Algebra.GroupWithZero.Nat
import Mathlib.Data.List.Forall2
import CellLisp.Machine.Step
import CellLisp.Proofs.State.Change

/-!
# `CellLisp.Proofs.Machine.Frame` — the frames of a run

The operand stack of a run is a pile of frames on what was there before, and so are the stacks
of continuations and of dynamic bindings.  A frame, the top first:

    operands      as the shape at the next instruction says
    environment   if the procedure copies variables
    saved words   frame, instruction and code to go back to
    arguments     as many as the arity of the code has slots for

`FrameOk` says that a frame is one of a finished procedure about to go on at a place, and
`Chained` that the saved words of each frame lead to the next, and those of the last to the
code that every run returns into.  Both depend on no more than cells that the stacks refer to
(`Chained.retained`).
-/

namespace CellLisp

theorem Value.word_ofInt {n : Nat} (h : n < 2 ^ 59) : (Value.ofInt n).word = n := by
  rw [Value.ofInt, Int.bmod_eq_of_le (by omega) (by omega), Value.word_int_natCast]

/-! ## Stacks, the top first -/

namespace Machine

/-- The operand stack, the top first. -/
def slots (m : Machine) : List Value := m.stack.toList.reverse

/-- The continuations in force, the newest first. -/
def escapes (m : Machine) : List Value := m.conts.toList.reverse

/-- The dynamic bindings in force, the newest first. -/
def bindings (m : Machine) : List DynBinding := m.dyns.toList.reverse

@[simp] theorem length_slots (m : Machine) : m.slots.length = m.stack.size := by simp [slots]

@[simp] theorem length_escapes (m : Machine) : m.escapes.length = m.conts.size := by
  simp [escapes]

@[simp] theorem length_bindings (m : Machine) : m.bindings.length = m.dyns.size := by
  simp [bindings]

theorem getElem?_stack (m : Machine) {k : Nat} (hk : k < m.stack.size) :
    m.stack[m.stack.size - 1 - k]? = m.slots[k]? := by
  rw [slots, List.getElem?_reverse (by simpa using hk), Array.length_toList, Array.getElem?_toList]

theorem top?_eq (m : Machine) (offset : Nat) : m.top? offset = m.slots[offset]? := by
  unfold top?
  split
  · rename_i h
    exact m.getElem?_stack h
  · rename_i h
    exact (List.getElem?_eq_none (by simpa using h)).symm

theorem cont?_eq (m : Machine) (offset : Nat) : m.cont? offset = m.escapes[offset]? := by
  unfold cont?
  split
  · rename_i h
    rw [escapes, List.getElem?_reverse (by simpa using h), Array.length_toList, Array.getElem?_toList]
  · rename_i h
    exact (List.getElem?_eq_none (by simpa using h)).symm

/-- The element at a place of an array whose elements are known, the last first. -/
theorem getElem?_of_reverse {α : Type} {xs : Array α} {u l : List α} {x : α}
    (h : xs.toList.reverse = u ++ x :: l) : xs[l.length]? = some x := by
  have hlist : xs.toList = l.reverse ++ x :: u.reverse := by
    have := congrArg List.reverse h
    rw [List.reverse_reverse] at this
    simp [this]
  rw [← Array.getElem?_toList, hlist, List.getElem?_append_right (by simp)]
  simp

/-- Such an array is cut to its lower part. -/
theorem shrink_of_reverse {α : Type} {xs : Array α} {u l : List α}
    (h : xs.toList.reverse = u ++ l) : (xs.shrink l.length).toList.reverse = l := by
  have hlist : xs.toList = l.reverse ++ u.reverse := by
    have := congrArg List.reverse h
    rw [List.reverse_reverse] at this
    simp [this]
  rw [Array.toList_shrink, hlist, List.take_left' (by simp), List.reverse_reverse]

/-- The upper part of such an array. -/
theorem extract_of_reverse {α : Type} {xs : Array α} {u l : List α}
    (h : xs.toList.reverse = u ++ l) : (xs.extract l.length xs.size).toList = u.reverse := by
  have hlist : xs.toList = l.reverse ++ u.reverse := by
    have := congrArg List.reverse h
    rw [List.reverse_reverse] at this
    simp [this]
  have hsize : xs.size = l.length + u.length := by
    rw [← Array.length_toList, hlist]
    simp
  rw [Array.toList_extract, List.extract_eq_take_drop, hlist, hsize, List.drop_left' (by simp),
    List.take_of_length_le (by simp)]

theorem slots_truncate {m : Machine} {u l : List Value} (h : m.slots = u ++ l) :
    (m.truncate l.length).slots = l := shrink_of_reverse h

theorem size_truncate_le (m : Machine) (depth : Nat) :
    (m.truncate depth).stack.size ≤ m.stack.size := by
  rw [truncate, Array.size_shrink]
  exact Nat.min_le_right _ _

end Machine

/-! ## What words hold -/

/-- A word holds what its kind says; nothing is known of a saved one. -/
def System.IsKind (w : System) (v : Value) : Kind → Prop
  | .any => w.Good v
  | .saved => False
  | .env n => w.heap.Holds v ∧ w.heap.IsArray v n
  | .code n => w.heap.Holds v ∧ n ≠ 0 ∧ CodeOf w.plans n v
  | .maker => v = w.state.known.makeClosure

/-- Words hold what their kinds say. -/
abbrev System.AreKinds (w : System) (vs : List Value) (ks : List Kind) : Prop :=
  List.Forall₂ w.IsKind vs ks

/-- The cell of each value is as before. -/
def Retained (w w' : System) (vs : List Value) : Prop :=
  ∀ v ∈ vs, ∀ i, v.cell? = some i → SameCell { machine := false, pairs := false } w w' i

theorem exists_of_forall₂ {α β : Type} {R : α → β → Prop} {xs : List α} {ys : List β} {k : Nat}
    {y : β} (h : List.Forall₂ R xs ys) (hy : ys[k]? = some y) : ∃ x, xs[k]? = some x ∧ R x y := by
  induction h generalizing k with
  | nil => cases hy
  | @cons x _ _ _ hr _ ih =>
      cases k with
      | zero => exact ⟨x, rfl, by obtain rfl := Option.some.inj hy; exact hr⟩
      | succ k => exact ih hy

section Retained

variable {w w' w'' : System} {vs us : List Value}

theorem Retained.mono (h : Retained w w' vs) (hsub : us ⊆ vs) : Retained w w' us :=
  fun v hv => h v (hsub hv)

theorem Retained.trans (h : Retained w w' vs) (h' : Retained w' w'' vs) : Retained w w'' vs :=
  fun v hv i hi => (h v hv i hi).trans (h' v hv i hi)

theorem Retained.of_heap_eq (hheap : w'.heap = w.heap) (hplans : w'.plans = w.plans)
    (vs : List Value) : Retained w w' vs := by
  intro v _ i _
  exact .of_eq (by rw [hheap]) (fun _ _ => by rw [hheap]) (fun _ h _ => by rw [hplans]; exact h)
    (fun _ h => by rw [hplans]; exact h) fun _ _ _ => by rw [hplans]

theorem System.IsKind.holds {v : Value} {k : Kind} (h : w.IsKind v k) : w.heap.Holds v := by
  cases k with
  | any => exact System.Good.holds h
  | saved => exact h.elim
  | env n => exact h.1
  | code n => exact h.1
  | maker =>
      obtain rfl : v = w.state.known.makeClosure := h
      exact w.typed.roots _ (by simp [State.rootValues])

theorem System.IsKind.retained {v : Value} {k : Kind} (h : w.IsKind v k) (hr : Retained w w' vs)
    (hv : v ∈ vs) (hknown : w'.state.known = w.state.known) : w'.IsKind v k := by
  have hsame := hr v hv
  cases k with
  | any => exact SameCell.good hsame h
  | saved => exact h
  | env n =>
      refine ⟨SameCell.holds hsame h.1, ?_⟩
      obtain ⟨i, b, rfl, hi, hc, hn⟩ := h.2
      have hcell := hsame i (Value.cell?_eq_some_iff.2 ⟨_, rfl, hi⟩)
      unfold SameCell at hcell
      simp only [hc] at hcell
      exact ⟨i, b, rfl, hi, hcell.1, hcell.2.trans hn⟩
  | code n => exact ⟨SameCell.holds hsame h.1, h.2.1, h.2.2.congr (SameCell.keepsPlan hsame h.1)⟩
  | maker => exact h.trans (by rw [hknown])

theorem System.AreKinds.retained {ks : List Kind} (h : w.AreKinds us ks) (hr : Retained w w' vs)
    (hsub : us ⊆ vs) (hknown : w'.state.known = w.state.known) : w'.AreKinds us ks := by
  induction h with
  | nil => exact .nil
  | cons hv _ ih =>
      exact .cons (hv.retained hr (hsub List.mem_cons_self) hknown)
        (ih fun v h => hsub (List.mem_cons_of_mem _ h))

/-- Words that programs may hold are good. -/
theorem System.AreKinds.good {ks : List Kind} (h : w.AreKinds us ks) (hks : ∀ k ∈ ks, k = .any) :
    ∀ v ∈ us, w.Good v := by
  induction h with
  | nil => nofun
  | cons hv _ ih =>
      obtain rfl := hks _ List.mem_cons_self
      intro v hmem
      rcases List.mem_cons.1 hmem with rfl | hmem
      · exact hv
      · exact ih (fun k hk => hks k (List.mem_cons_of_mem _ hk)) v hmem

end Retained

/-! ## Frames -/

/-- A frame of a run. -/
structure Frame where
  /-- The cell of its code. -/
  cell : Nat
  /-- The procedure that it is a call of. -/
  proc : Proc
  /-- What is known of it where it goes on. -/
  shape : Shape
  /-- Operands, the top first. -/
  ops : List Value
  /-- The environment, if it has one. -/
  env : List Value
  /-- Where it goes back to. -/
  back : Return
  /-- Arguments, the last first. -/
  args : List Value
  /-- Continuations that it established, the newest first. -/
  conts : List Value
  /-- Dynamic bindings that it made, the newest first. -/
  dyns : List DynBinding

namespace Frame

/-- The words of where it goes back to. -/
def saved (f : Frame) : List Value := [.ofInt f.back.fp, .ofInt f.back.pc, f.back.code]

/-- The words below its operands. -/
def below (f : Frame) : List Value := f.env ++ (f.saved ++ f.args)

/-- All its words. -/
def slots (f : Frame) : List Value := f.ops ++ f.below

end Frame

/-- The operand stack of a run on top of what was there. -/
def slotsOf (fs : List Frame) (o : Machine) : List Value := fs.flatMap Frame.slots ++ o.slots

/-- Its continuations. -/
def escapesOf (fs : List Frame) (o : Machine) : List Value := fs.flatMap Frame.conts ++ o.escapes

/-- Its dynamic bindings. -/
def bindingsOf (fs : List Frame) (o : Machine) : List DynBinding :=
  fs.flatMap Frame.dyns ++ o.bindings

section Piles

variable {f : Frame} {fs : List Frame} {o : Machine}

theorem slotsOf_cons : slotsOf (f :: fs) o = f.ops ++ (f.below ++ slotsOf fs o) := by
  simp [slotsOf, Frame.slots]

theorem escapesOf_cons : escapesOf (f :: fs) o = f.conts ++ escapesOf fs o := by simp [escapesOf]

theorem bindingsOf_cons : bindingsOf (f :: fs) o = f.dyns ++ bindingsOf fs o := by
  simp [bindingsOf]

theorem slotsOf_append {gs : List Frame} :
    slotsOf (fs ++ gs) o = fs.flatMap Frame.slots ++ slotsOf gs o := by simp [slotsOf]

theorem bindingsOf_append {gs : List Frame} :
    bindingsOf (fs ++ gs) o = fs.flatMap Frame.dyns ++ bindingsOf gs o := by simp [bindingsOf]

end Piles

/-- The record of a continuation says what a label does, for a frame over so many words,
dynamic bindings and continuations. -/
structure ContOk (w : System) (code : Value) (fp below dyns depth : Nat) (k : Label) (v : Value) :
    Prop where
  record : ∃ i r, v = .ref .object i ∧ i ≠ 0 ∧ w.heap.cell i = .cont r ∧ r.code = code ∧
    r.pc.toNat = k.target ∧ r.fp.toNat = fp ∧ r.sp.toNat = k.ops.length + below ∧
    r.dynDepth.toNat = k.dyns + dyns ∧ r.depth.toNat = depth

/-- The continuations of a frame are those of its labels. -/
def Established (w : System) (code : Value) (fp below dyns older : Nat) :
    List Label → List Value → Prop
  | [], [] => True
  | k :: ks, v :: vs =>
    ContOk w code fp below dyns (vs.length + older) k v ∧
      Established w code fp below dyns older ks vs
  | _, _ => False

/-- A frame is one of a finished procedure that goes on at a place, on top of older ones. -/
structure FrameOk (w : System) (o : Machine) (fs : List Frame) (r : Return) (f : Frame) : Prop where
  pos : f.cell ≠ 0
  plan : w.plans f.cell = some (.done f.proc)
  code : r.code = .ref .bytecode f.cell
  holds : w.heap.Holds r.code
  arrives : Arrives f.proc.sites r.pc f.shape
  ops : w.AreKinds f.ops f.shape.ops
  env : w.AreKinds f.env (if f.proc.copies = 0 then [] else [.env f.proc.copies])
  args : ∀ v ∈ f.args, w.Good v
  fits : f.back.pc < 2 ^ 59 ∧ f.back.fp < 2 ^ 59
  fp : r.fp = f.args.length + (slotsOf fs o).length + 3
  conts : Established w r.code r.fp (f.below ++ slotsOf fs o).length (bindingsOf fs o).length
    (escapesOf fs o).length f.shape.labels f.conts
  dyns : f.dyns.length = f.shape.dyns

/-- A frame has as many arguments as the arity of its code has slots for. -/
def Frame.Full (w : System) (f : Frame) : Prop :=
  ∃ b, w.heap.cell f.cell = .bytecode b ∧ f.args.length = b.arity.slots

/-- Each frame goes back to the next, and the last to the code that every run returns into. -/
def Chained (w : System) (o : Machine) : List Frame → Return → Option Kind → Prop
  | [], r, val? => r.code = w.state.known.halt ∧ r.pc = 0 ∧ val? = some .any
  | f :: fs, r, val? =>
    FrameOk w o fs r f ∧ f.Full w ∧ f.shape.val = val? ∧ Chained w o fs f.back (some .any)

section Retained

variable {w w' : System} {o : Machine} {fs : List Frame} {f : Frame} {r : Return}

theorem ContOk.retained {code v : Value} {fp below dyns depth : Nat} {k : Label} {vs : List Value}
    (h : ContOk w code fp below dyns depth k v) (hr : Retained w w' vs) (hv : v ∈ vs) :
    ContOk w' code fp below dyns depth k v := by
  obtain ⟨i, c, rfl, hi, hc, hrest⟩ := h.record
  have hsame := hr _ hv i (Value.cell?_eq_some_iff.2 ⟨_, rfl, hi⟩)
  unfold SameCell at hsame
  simp only [hc] at hsame
  obtain ⟨exited, hc', -⟩ := hsame
  exact ⟨i, _, rfl, hi, hc', hrest⟩

theorem Established.retained {code : Value} {fp below dyns older : Nat} {vs us : List Value}
    (hr : Retained w w' vs) (hsub : us ⊆ vs) :
    {ks : List Label} → Established w code fp below dyns older ks us →
      Established w' code fp below dyns older ks us := by
  induction us with
  | nil => intro ks h; cases ks <;> exact h
  | cons v us ih =>
      intro ks h
      cases ks with
      | nil => exact h
      | cons k ks =>
          exact ⟨h.1.retained hr (hsub List.mem_cons_self),
            ih (fun u hu => hsub (List.mem_cons_of_mem _ hu)) h.2⟩

/-- The record of the compiled code of a retained value is there under the same arity. -/
theorem Retained.bytecode {vs : List Value} {v : Value} {i : Nat} {b : Bytecode}
    (hr : Retained w w' vs) (hv : v ∈ vs) (hi : v.cell? = some i)
    (hb : w.heap.cell i = .bytecode b) :
    (∃ b', w'.heap.cell i = .bytecode b' ∧ b'.arity = b.arity) ∧
      ∀ p, w.plans i = some (.done p) → w'.plans i = some (.done p) := by
  have hsame := hr v hv i hi
  unfold SameCell at hsame
  simp only [hb] at hsame
  exact ⟨hsame.1, hsame.2.1⟩

theorem FrameOk.exists_bytecode (h : FrameOk w o fs r f) :
    r.code.cell? = some f.cell ∧ ∃ b, w.heap.cell f.cell = .bytecode b := by
  refine ⟨by rw [h.code]; exact Value.cell?_eq_some_iff.2 ⟨_, rfl, h.pos⟩, ?_⟩
  exact Cell.exists_of_tag_bytecode (h.holds _ _ h.code h.pos).2

theorem FrameOk.retained {vs : List Value} (h : FrameOk w o fs r f) (hr : Retained w w' vs)
    (hknown : w'.state.known = w.state.known) (hcode : r.code ∈ vs) (hslots : f.slots ⊆ vs)
    (hconts : f.conts ⊆ vs) : FrameOk w' o fs r f := by
  obtain ⟨hcell, b, hb⟩ := h.exists_bytecode
  have hops : f.ops ⊆ vs := fun v hv => hslots (List.mem_append_left _ hv)
  have hbelow : f.below ⊆ vs := fun v hv => hslots (List.mem_append_right _ hv)
  refine ⟨h.pos, (hr.bytecode hcode hcell hb).2 _ h.plan, h.code,
    SameCell.holds (hr _ hcode) h.holds, h.arrives, h.ops.retained hr hops hknown,
    h.env.retained hr (fun v hv => hbelow (List.mem_append_left _ hv)) hknown, fun v hv => ?_,
    h.fits, h.fp, h.conts.retained hr hconts, h.dyns⟩
  refine SameCell.good (hr v (hbelow ?_)) (h.args v hv)
  exact List.mem_append_right _ (List.mem_append_right _ hv)

theorem Frame.Full.retained {vs : List Value} (h : f.Full w) (hok : FrameOk w o fs r f)
    (hr : Retained w w' vs) (hcode : r.code ∈ vs) : f.Full w' := by
  obtain ⟨b, hb, hargs⟩ := h
  obtain ⟨⟨b', hb', harity⟩, -⟩ := hr.bytecode hcode hok.exists_bytecode.1 hb
  exact ⟨b', hb', by rw [harity]; exact hargs⟩

/-- A chain of frames is one as long as the cells that its stacks refer to are as before. -/
theorem Chained.retained {vs : List Value} (hr : Retained w w' vs)
    (hknown : w'.state.known = w.state.known) {fs : List Frame} {r : Return} {val? : Option Kind}
    (h : Chained w o fs r val?) (hcode : r.code ∈ vs) (hslots : fs.flatMap Frame.slots ⊆ vs)
    (hconts : fs.flatMap Frame.conts ⊆ vs) : Chained w' o fs r val? := by
  induction fs generalizing r val? with
  | nil => exact ⟨h.1.trans (by rw [hknown]), h.2⟩
  | cons f fs ih =>
      rw [List.flatMap_cons, List.append_subset] at hslots hconts
      obtain ⟨hok, hfull, hval, hrest⟩ := h
      refine ⟨hok.retained hr hknown hcode hslots.1 hconts.1, hfull.retained hok hr hcode, hval,
        ih hrest ?_ hslots.2 hconts.2⟩
      exact hslots.1 (by simp [Frame.slots, Frame.below, Frame.saved])

end Retained

/-! ## Words of a frame -/

section Words

variable {w : System} {o : Machine} {fs : List Frame} {f : Frame} {r : Return}

theorem FrameOk.length_ops (h : FrameOk w o fs r f) : f.ops.length = f.shape.ops.length :=
  h.ops.length_eq

/-- The code of a finished procedure fits its arity, and is that of the procedure. -/
theorem System.code_of_plan {i : Nat} {p : Proc} {b : Bytecode} (hp : w.plans i = some (.done p))
    (hb : w.heap.cell i = .bytecode b) :
    p.Fits b.arity ∧ w.heap.instrs b = p.instrs.toArray := by
  have ht := w.typed.cells i
  unfold CellTyped ContentsOk at ht
  rw [hb] at ht
  obtain ⟨plan, hplan, hpayload, -, -, -, -, hfits⟩ := ht
  rw [hp] at hplan
  obtain rfl := Option.some.inj hplan
  refine ⟨hfits _ rfl, ?_⟩
  unfold Heap.instrs
  rw [hpayload]
  rfl

theorem FrameOk.fitting (h : FrameOk w o fs r f) {b : Bytecode}
    (hb : w.heap.cell f.cell = .bytecode b) : f.proc.Fits b.arity := (System.code_of_plan h.plan hb).1

theorem FrameOk.forall₂_saved (w : System) (vs : List Value) (f : Frame) (n : Nat)
    (hargs : ∀ v ∈ vs, w.Good v) (hn : n = vs.length) :
    List.Forall₂ (fun v k => k = .saved ∨ w.IsKind v k) (f.saved ++ vs)
      ([.saved, .saved, .saved] ++ List.replicate n .any) := by
  subst hn
  refine .cons (.inl rfl) (.cons (.inl rfl) (.cons (.inl rfl) ?_))
  induction vs with
  | nil => exact .nil
  | cons v vs ih =>
      exact .cons (.inr (hargs v List.mem_cons_self)) (ih fun u hu => hargs u (List.mem_cons_of_mem _ hu))

/-- A word of a frame holds what the kinds of its procedure say. -/
theorem FrameOk.exists_slot (h : FrameOk w o fs r f) (hfull : f.Full w) {m : Nat} {k : Kind}
    (hk : (f.shape.ops ++ f.proc.fixed)[m]? = some k) (hne : k ≠ .saved) :
    ∃ v, f.slots[m]? = some v ∧ w.IsKind v k := by
  obtain ⟨b, hb, hlen⟩ := hfull
  obtain ⟨n, hfixed, hn⟩ := (h.fitting hb).fixed
  obtain ⟨vs, us, hargs, hvs⟩ : ∃ vs us, f.args = vs ++ us ∧ vs.length = n := by
    rcases hn with rfl | ⟨rfl, -⟩
    · exact ⟨f.args, [], by simp, hlen⟩
    · exact ⟨[], f.args, rfl, rfl⟩
  have hkinds : List.Forall₂ (fun v k => k = .saved ∨ w.IsKind v k)
      (f.ops ++ (f.env ++ (f.saved ++ vs))) (f.shape.ops ++ f.proc.fixed) := by
    rw [hfixed, frameKinds]
    refine List.rel_append (h.ops.imp fun _ _ => .inr) (List.rel_append ?_ ?_)
    · exact (h.env.imp fun _ _ => .inr)
    · exact FrameOk.forall₂_saved w vs f n (fun v hv => h.args v (by simp [hargs, hv])) hvs.symm
  obtain ⟨v, hv, hkind⟩ := exists_of_forall₂ hkinds hk
  refine ⟨v, ?_, hkind.resolve_left hne⟩
  have hlt := (List.getElem?_eq_some_iff.1 hv).1
  rw [Frame.slots, Frame.below, hargs,
    show f.ops ++ (f.env ++ (f.saved ++ (vs ++ us))) = (f.ops ++ (f.env ++ (f.saved ++ vs))) ++ us by
      simp, List.getElem?_append_left hlt]
  exact hv

end Words

end CellLisp
