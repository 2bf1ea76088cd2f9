import CellLisp.Proofs.Code.Core
import CellLisp.Proofs.Machine.Answer

/-!
# `CellLisp.Proofs.Machine.Wp` — what compiled forms come to

What a form needs so that its code comes to what is wanted is found by going through the form
(`Core.wp`), as a weakest precondition is.  Nothing is said of instructions, of the words that a
call saves, or of registers: what is there are the operands and the arguments of the procedure
(`Locals`) and the store.  A form ends in one of three ways:

| ends | by | is to come to |
| :-- | :-- | :-- |
| with a value | itself | `Q` |
| in an exit | a continuation of the procedure | the entry of `E` for it |
| with the procedure | a call in tail position | what the call of the procedure is for |

Establishing a continuation takes a cell, and one that is over is marked; both keep what the
procedure has (`State.Aside`), and a form is to come to what is wanted whatever else they do.  A
loop needs an invariant that counts down.  Forms that copy variables or bind dynamically are left
out.

`Core.height` says how many words and continuations a form has at most at a time.
-/

namespace CellLisp

/-! ## What a form finds -/

/-- What a procedure has on the stack, but for the words that the call has saved. -/
structure Locals where
  /-- Operands and variables, the newest first. -/
  ops : List Value
  /-- Arguments, the last first. -/
  args : List Value

namespace Locals

/-- What is so many places below the top, with the three saved words below the operands. -/
def get? (l : Locals) (n : Nat) : Option Value :=
  if n < l.ops.length then l.ops[n]?
  else if n < l.ops.length + 3 then none
  else l.args[n - (l.ops.length + 3)]?

/-- Replaces what is there. -/
def set (l : Locals) (n : Nat) (v : Value) : Locals :=
  if n < l.ops.length then { l with ops := l.ops.set n v }
  else { l with args := l.args.set (n - (l.ops.length + 3)) v }

/-- An operand more. -/
def push (l : Locals) (v : Value) : Locals := { l with ops := v :: l.ops }

/-- The newest operands are gone. -/
def drop (l : Locals) (n : Nat) : Locals := { l with ops := l.ops.drop n }

/-- Operands and arguments. -/
def values (l : Locals) : List Value := l.ops ++ l.args

/-- The words of a frame, on those below it. -/
def words (l : Locals) (saved below : List Value) : List Value :=
  l.ops ++ (saved ++ (l.args ++ below))

section Words

variable {l : Locals} {saved below : List Value} {n : Nat} {v : Value}

theorem getElem?_words (hsaved : saved.length = 3) (h : l.get? n = some v) :
    (l.words saved below)[n]? = some v := by
  unfold get? at h
  unfold words
  split at h
  · rwa [List.getElem?_append_left ‹_›]
  · split at h
    · cases h
    · have hlt := (List.getElem?_eq_some_iff.1 h).1
      rw [List.getElem?_append_right (by omega), List.getElem?_append_right (by omega),
        List.getElem?_append_left (by omega), ← h]
      congr 1
      omega

theorem set_words (hsaved : saved.length = 3) (h : (l.get? n).isSome) (v : Value) :
    (l.words saved below).set n v = (l.set n v).words saved below := by
  unfold get? at h
  unfold words set
  split at h
  · rename_i hlt
    simp only [if_pos hlt, List.set_append_left _ _ hlt]
  · rename_i hge
    split at h
    · cases h
    · have hlt : n - (l.ops.length + 3) < l.args.length := by
        obtain ⟨w, hw⟩ := Option.isSome_iff_exists.1 h
        exact (List.getElem?_eq_some_iff.1 hw).1
      simp only [if_neg hge]
      rw [List.set_append_right _ _ (by omega), List.set_append_right _ _ (by omega),
        List.set_append_left _ _ (by omega), hsaved, Nat.sub_sub]

@[simp] theorem length_ops_set : (l.set n v).ops.length = l.ops.length := by
  unfold set
  split <;> simp

@[simp] theorem length_args_set : (l.set n v).args.length = l.args.length := by
  unfold set
  split <;> simp

/-- Of what is there after a word has been replaced, the rest was there before. -/
theorem mem_values_of_set {u : Value} (h : u ∈ (l.set n v).values) : u ∈ l.values ∨ u = v := by
  unfold set values at h
  unfold values
  split at h
  · rcases List.mem_append.1 h with h | h
    · exact (List.mem_or_eq_of_mem_set h).imp (List.mem_append_left _) id
    · exact .inl (List.mem_append_right _ h)
  · rcases List.mem_append.1 h with h | h
    · exact .inl (List.mem_append_left _ h)
    · exact (List.mem_or_eq_of_mem_set h).imp (List.mem_append_right _) id

theorem values_drop_subset (l : Locals) (n : Nat) : (l.drop n).values ⊆ l.values :=
  List.append_subset.2 ⟨fun _ h => List.mem_append_left _ (List.mem_of_mem_drop h),
    List.subset_append_right _ _⟩

theorem values_subset_words (l : Locals) (saved below : List Value) :
    l.values ++ below ⊆ l.words saved below := by
  intro v hv
  simp only [values, words, List.mem_append] at hv ⊢
  grind

end Words

end Locals

/-- What a form is to come to: its value, what it leaves on the stack, and the store. -/
abbrev Aim := Value → Locals → State → Prop

/-- What a procedure is called for. -/
structure Errand where
  /-- Words below the arguments. -/
  below : List Value
  /-- Number of continuations in force. -/
  conts : Nat
  /-- What the value and the store are to be. -/
  answer : Value → State → Prop

namespace Errand

/-- A procedure that has been called goes on with another value or store: what it has, and what was
there when it was called, is kept. -/
def Later (c : Errand) (v : Value) (l : Locals) (t t' : State) : Prop :=
  t.Aside (v :: (l.values ++ c.below)) t'

/-- A call that the procedure makes, of `f` with the newest operands, comes to what is wanted; in
tail position that is what the procedure was called for. -/
def Calls (c : Errand) (tail : Bool) (depth argc : Nat) (Q : Aim) (f : Value) (l : Locals)
    (t : State) : Prop :=
  let args := (l.ops.take argc).reverse
  if tail then
    ∀ u : State, u.Presents (args.reverse ++ c.below) c.conts t → u.Answers f args c.below c.answer
  else
    ∀ (u : State) (rest : List Value), u.Presents (args.reverse ++ rest) (c.conts + depth) t →
      (l.drop argc).values ++ c.below ⊆ rest →
      rest.length = (l.drop argc).ops.length + (l.args.length + c.below.length + 3) →
      u.Answers f args rest fun v t' => Q v (l.drop argc) t'

end Errand

/-! ## Preconditions -/

mutual

/-- What a form needs so that it comes to `Q`, or by an exit to an entry of `E`. -/
def Core.wp (c : Errand) (s : Scope) (tail : Bool) (Q : Aim) (E : List Aim) :
    Core → Locals → State → Prop
  | .const v, l, t => Q v l t
  | .ref x inlined, l, t =>
    match s.resolve x with
    | .stack n => ∃ v, l.get? n = some v ∧ Q v l t
    | .env .. => False
    | .global =>
      match inlined with
      | some v => Q v l t
      | none => ∃ v, t.heap.global? x = some v ∧ Q v l t
  | .assign x e, l, t =>
    match s.resolve x with
    | .stack n => e.wp c s false (fun v l t => (l.get? n).isSome ∧ Q v (l.set n v) t) E l t
    | _ => False
  | .cond a b d, l, t =>
    a.wp c s false
      (fun v l t => if v.isNil then d.wp c s tail Q E l t else b.wp c s tail Q E l t) E l t
  | .seq init last, l, t =>
    Core.wpAll c s (init.map fun _ => .next) (last.wp c s tail Q E) E init l t
  | .bind names inits body, l, t =>
    names.length = inits.length ∧
      Core.wpAll c s (names.map fun _ => .push)
        (body.wp c ((s.posts (names.map fun _ => .push)).nameTop names) tail
          (fun v l t => Q v (l.drop names.length) t) E) E inits l t
  | .withCont k body, l, t =>
    let size := l.ops.length
    ∀ v t', c.Later v l t t' →
      body.wp c { s with conts := k :: s.conts } false
        (fun v l t => ∀ t', c.Later v l t t' → Q v l t')
        ((fun v l t => ∀ t', c.Later v l t t' → Q v (l.drop (l.ops.length - size)) t') :: E) l t'
  | .exit k e, l, t =>
    match s.resolveCont k with
    | some (.stack i) =>
      match E[i]? with
      | some P => e.wp c s false P E l t
      | none => False
    | _ => False
  | .loop body, l, t =>
    ∃ I : Nat → Locals → State → Prop, (∃ n, I n l t) ∧ ∀ n l t, I n l t →
      Core.wpAll c s (body.map fun _ => .next) (fun l t => ∃ m < n, I m l t) E body l t
  | .call args operator, l, t =>
    Core.wpAll c s (args.map fun _ => .push)
      (operator.wp c (s.posts (args.map fun _ => .push)) false
        (c.Calls tail E.length args.length Q) E) E args l t
  | .dynBind .., _, _ | .lambda .., _, _ => False

/-- What parts one behind the other need so that they come to `P`. -/
def Core.wpAll (c : Errand) (s : Scope) (posts : List Post) (P : Locals → State → Prop)
    (E : List Aim) : List Core → Locals → State → Prop
  | [], l, t => P l t
  | e :: es, l, t =>
    match posts with
    | [] => P l t
    | p :: posts =>
      e.wp c s false
        (fun v l t => match p with
          | .next => Core.wpAll c (s.post p) posts P E es l t
          | .push => Core.wpAll c (s.post p) posts P E es (l.push v) t
          | .bind _ => False) E l t

end

/-! ## What follows from what a form comes to -/

/-- One aim implies another. -/
def Aim.Implies (P Q : Aim) : Prop := ∀ v l t, P v l t → Q v l t

theorem Errand.Calls.mono {c : Errand} {tail : Bool} {d n : Nat} {Q Q' : Aim} {f : Value} {l : Locals}
    {t : State} (h : c.Calls tail d n Q f l t) (hQ : Q.Implies Q') : c.Calls tail d n Q' f l t := by
  cases tail with
  | true => exact h
  | false => exact fun u rest hu hsub hlen => (h u rest hu hsub hlen).mono fun v t => hQ v _ t

mutual

/-- A form that comes to something comes to what that implies. -/
theorem Core.wp_mono {c : Errand} {s : Scope} {tail : Bool} {Q Q' : Aim} {E E' : List Aim}
    {l : Locals} {t : State} : (e : Core) → e.wp c s tail Q E l t → Q.Implies Q' →
    List.Forall₂ Aim.Implies E E' → e.wp c s tail Q' E' l t
  | .const v, h, hQ, _ => hQ v l t h
  | .ref x inlined, h, hQ, _ => by
      unfold Core.wp at h ⊢
      split at h
      · exact h.imp fun v hv => ⟨hv.1, hQ v l t hv.2⟩
      · exact h
      · split at h
        · exact hQ _ l t h
        · exact h.imp fun v hv => ⟨hv.1, hQ v l t hv.2⟩
  | .assign x e, h, hQ, hE => by
      unfold Core.wp at h ⊢
      split at h
      · exact e.wp_mono h (fun v l t hv => ⟨hv.1, hQ _ _ _ hv.2⟩) hE
      · exact h
  | .cond a b d, h, hQ, hE => by
      unfold Core.wp at h ⊢
      refine a.wp_mono h (fun v l t hv => ?_) hE
      split at hv
      · rw [if_pos ‹_›]
        exact d.wp_mono hv hQ hE
      · rw [if_neg ‹_›]
        exact b.wp_mono hv hQ hE
  | .seq init last, h, hQ, hE => by
      unfold Core.wp at h ⊢
      exact Core.wpAll_mono init h (fun l t hl => last.wp_mono hl hQ hE) hE
  | .bind names inits body, h, hQ, hE => by
      unfold Core.wp at h ⊢
      exact ⟨h.1, Core.wpAll_mono inits h.2 (fun l t hl => body.wp_mono hl
        (fun v l t => hQ _ _ _) hE) hE⟩
  | .withCont k body, h, hQ, hE => by
      unfold Core.wp at h ⊢
      exact fun v t' hlater => body.wp_mono (h v t' hlater)
        (fun v l t hq t' hlater => hQ _ _ _ (hq t' hlater))
        (.cons (fun v l t hq t' hlater => hQ _ _ _ (hq t' hlater)) hE)
  | .exit k e, h, hQ, hE => by
      unfold Core.wp at h ⊢
      split at h
      · rename_i i hi
        split at h
        · rename_i P hP
          obtain ⟨hlt, rfl⟩ := List.getElem?_eq_some_iff.1 hP
          have hlt' : i < E'.length := hE.length_eq ▸ hlt
          rw [List.getElem?_eq_getElem hlt']
          exact e.wp_mono h (hE.get hlt hlt') hE
        · exact h.elim
      · exact h.elim
  | .loop body, h, hQ, hE => by
      unfold Core.wp at h ⊢
      obtain ⟨I, hstart, hround⟩ := h
      exact ⟨I, hstart, fun n l t hI => Core.wpAll_mono body (hround n l t hI)
        (fun l t h => h) hE⟩
  | .call args operator, h, hQ, hE => by
      unfold Core.wp at h ⊢
      refine Core.wpAll_mono args h (fun l t hl => operator.wp_mono hl (fun v l t hcalls => ?_) hE) hE
      rw [← hE.length_eq]
      exact hcalls.mono hQ
  | .dynBind .., h, _, _ | .lambda .., h, _, _ => by
      unfold Core.wp at h
      exact h.elim

theorem Core.wpAll_mono {c : Errand} {s : Scope} {posts : List Post} {P P' : Locals → State → Prop}
    {E E' : List Aim} {l : Locals} {t : State} : (es : List Core) →
    Core.wpAll c s posts P E es l t → (∀ l t, P l t → P' l t) →
    List.Forall₂ Aim.Implies E E' → Core.wpAll c s posts P' E' es l t
  | [], h, hP, _ => by
      unfold Core.wpAll at h ⊢
      exact hP l t h
  | e :: es, h, hP, hE => by
      cases posts with
      | nil =>
          unfold Core.wpAll at h ⊢
          exact hP l t h
      | cons p posts =>
          unfold Core.wpAll at h ⊢
          refine e.wp_mono h (fun v l t hv => ?_) hE
          cases p with
          | next => exact Core.wpAll_mono es hv hP hE
          | push => exact Core.wpAll_mono es hv hP hE
          | bind x => exact hv

end
/-! ## Room -/

mutual

/-- Words and continuations that a form has at most at a time. -/
def Core.height : Core → Nat
  | .const _ | .ref _ _ | .dynBind .. | .lambda .. => 0
  | .assign _ e | .exit _ e => e.height
  | .cond a b d => max a.height (max b.height d.height)
  | .seq init last => Core.heightAll (init.map fun _ => .next) last.height init
  | .bind names inits body => Core.heightAll (names.map fun _ => .push) body.height inits
  | .withCont _ body => body.height + 1
  | .loop body => Core.heightAll (body.map fun _ => .next) 0 body
  | .call args operator => Core.heightAll (args.map fun _ => .push) operator.height args

/-- The same for parts one behind the other, before something that has so many. -/
def Core.heightAll (posts : List Post) (last : Nat) : List Core → Nat
  | [] => last
  | e :: es =>
    match posts with
    | [] => last
    | p :: posts => max e.height (p.ops.length + Core.heightAll posts last es)

end

end CellLisp
