import CellLisp.Proofs.State.Act
import CellLisp.Proofs.State.Typed

/-!
# `CellLisp.Proofs.State.Leads` — what an action leads to

`Leads R act w Q` says of an action on a typed state: however it ends, short of a fatal
failure, the state is typed again and stands in the relation `R` to the first; and if it
ends with a value, that value and the state satisfy `Q`.

Two relations are used:

| | |
| :-- | :-- |
| `Grown A` | nothing but new cells and the log, so that what the roots and `A` lead to is the same |
| `Stable m d` | what lasts is the same, as far as the mode `m` asks, with the first `d` protected values to start from |

The second is the weaker one, and what is left when programs have been run.
-/

namespace CellLisp

/-- A relation between typed states that can be followed step by step. -/
class Follows (R : System → System → Prop) : Prop where
  refl : ∀ w, R w w
  trans : ∀ {w₁ w₂ w₃}, R w₁ w₂ → R w₂ w₃ → R w₁ w₃

/-- What an action leads to from a typed state. -/
def Leads {α : Type} (R : System → System → Prop) (act : Act α) (w : System)
    (Q : α → System → Prop) : Prop :=
  match act w.state with
  | .ok a s => ∃ w' : System, w'.state = s ∧ R w w' ∧ Q a w'
  | .error (.error _) s => ∃ w' : System, w'.state = s ∧ R w w'
  | .error (.fatal _) _ => True

namespace Leads

section

variable {α β : Type} {R R' : System → System → Prop} {w : System} {Q : α → System → Prop}

theorem ok {act : Act α} {a : α} {u : System} (e : act w.state = .ok a u.state) (hr : R w u)
    (hq : Q a u) : Leads R act w Q := by
  unfold Leads
  rw [e]
  exact ⟨u, rfl, hr, hq⟩

theorem of_ok {act : Act α} {a : α} {s : State} (h : Leads R act w Q)
    (e : act w.state = .ok a s) : ∃ w' : System, w'.state = s ∧ R w w' ∧ Q a w' := by
  unfold Leads at h
  rwa [e] at h

theorem congr {act act' : Act α} (h : Leads R act w Q) (e : act' w.state = act w.state) :
    Leads R act' w Q := by
  unfold Leads at *
  rw [e]
  exact h

theorem mono {Q' : α → System → Prop} {act : Act α} (h : Leads R act w Q)
    (hq : ∀ a w', R w w' → Q a w' → Q' a w') : Leads R act w Q' := by
  unfold Leads at *
  split at h
  · obtain ⟨w', hs, hr, hq'⟩ := h
    exact ⟨w', hs, hr, hq _ w' hr hq'⟩
  · exact h
  · trivial

theorem weaken {act : Act α} (h : Leads R act w Q) (hr : ∀ w', R w w' → R' w w') :
    Leads R' act w Q := by
  unfold Leads at *
  split at h
  · obtain ⟨w', hs, hr', hq⟩ := h
    exact ⟨w', hs, hr w' hr', hq⟩
  · obtain ⟨w', hs, hr'⟩ := h
    exact ⟨w', hs, hr w' hr'⟩
  · trivial

theorem pure [Follows R] {a : α} (hq : Q a w) : Leads R (pure a) w Q :=
  ok rfl (Follows.refl w) hq

/-- One action after the other, each with what is kept from the start on. -/
theorem bindFrom {x : Act α} {f : α → Act β} {Q' : β → System → Prop} (hx : Leads R x w Q)
    (hr : ∀ w', R w w' → R' w w')
    (hf : ∀ a w', R w w' → Q a w' → Leads (fun _ w₂ => R' w w₂) (f a) w' Q') :
    Leads R' (x >>= f) w Q' := by
  unfold Leads at hx
  unfold Leads
  rw [act_bind]
  split at hx
  · rename_i a s hs
    obtain ⟨w', rfl, hr', hq⟩ := hx
    rw [hs]
    exact hf a w' hr' hq
  · rename_i c s hs
    obtain ⟨w', rfl, hr'⟩ := hx
    rw [hs]
    exact ⟨w', rfl, hr w' hr'⟩
  · rename_i c s hs
    rw [hs]
    trivial

theorem bind [Follows R] {x : Act α} {f : α → Act β} {Q' : β → System → Prop}
    (hx : Leads R x w Q) (hf : ∀ a w', R w w' → Q a w' → Leads R (f a) w' Q') :
    Leads R (x >>= f) w Q' :=
  bindFrom hx (fun _ h => h) fun a w' hr hq => (hf a w' hr hq).weaken fun _ h => Follows.trans hr h

/-- The plans may be changed afterwards. -/
theorem adjust {act : Act α} {Q' : α → System → Prop} (h : Leads R act w Q)
    (hadj : ∀ a w', R w w' → Q a w' → ∃ u : System, u.state = w'.state ∧ R w u ∧ Q' a u) :
    Leads R act w Q' := by
  unfold Leads at *
  split at h
  · obtain ⟨w', rfl, hr, hq⟩ := h
    exact hadj _ w' hr hq
  · exact h
  · trivial

/-- Of an action of which the outcome is known, something else may be kept. -/
theorem exactly {act : Act α} {Q' : α → System → Prop} {a : α} {s : State} (h : Leads R act w Q)
    (e : act w.state = .ok a s)
    (hr : ∀ w', w'.state = s → R w w' → Q a w' → R' w w' ∧ Q' a w') : Leads R' act w Q' := by
  unfold Leads at h ⊢
  rw [e] at h ⊢
  obtain ⟨w', hs, hrel, hq⟩ := h
  exact ⟨w', hs, hr w' hs hrel hq⟩

/-- The same if it is only known to end with a value. -/
theorem sure {act : Act α} {Q' : α → System → Prop} {a : α} {s : State} (h : Leads R act w Q)
    (e : act w.state = .ok a s) (hr : ∀ w', R w w' → Q a w' → R' w w' ∧ Q' a w') :
    Leads R' act w Q' :=
  h.exactly e fun w' _ => hr w'

/-- An action that fails before anything has changed. -/
theorem refuses {act : Act α} {cause : Error} (e : act w.state = .error (.error cause) w.state)
    (hr : R w w) : Leads R act w Q := by
  unfold Leads
  rw [e]
  exact ⟨w, rfl, hr⟩

theorem fail [Follows R] (cause : Error) : Leads R (CellLisp.fail cause : Act α) w Q :=
  ⟨w, rfl, Follows.refl w⟩

theorem halt (cause : Fatal) : Leads R (CellLisp.halt cause : Act α) w Q := trivial

theorem change {f : State → State} {u : System} (e : u.state = f w.state) (hr : R w u)
    {Q : Unit → System → Prop} (hq : Q () u) : Leads R (modify f) w Q := by
  unfold Leads
  rw [act_modify]
  exact ⟨u, e, hr, hq⟩

theorem gets [Follows R] {f : State → α} (hq : Q (f w.state) w) : Leads R (CellLisp.gets f) w Q :=
  ok rfl (Follows.refl w) hq

theorem get [Follows R] {Q : State → System → Prop} (hq : Q w.state w) :
    Leads R (MonadStateOf.get : Act State) w Q :=
  ok rfl (Follows.refl w) hq

end

end Leads

/-- An action that only looks. -/
def Looks {α : Type} (act : Act α) (s : State) (Q : α → Prop) : Prop :=
  match act s with
  | .ok a s' => s' = s ∧ Q a
  | .error (.error _) s' => s' = s
  | .error (.fatal _) _ => True

namespace Looks

section

variable {α β : Type} {s : State} {Q : α → Prop}

theorem pure {a : α} (hq : Q a) : Looks (pure a) s Q := ⟨rfl, hq⟩

theorem bind {x : Act α} {f : α → Act β} {Q' : β → Prop} (hx : Looks x s Q)
    (hf : ∀ a, Q a → Looks (f a) s Q') : Looks (x >>= f) s Q' := by
  unfold Looks at hx
  unfold Looks
  rw [act_bind]
  split at hx
  · rename_i a s' hs
    obtain ⟨rfl, hq⟩ := hx
    rw [hs]
    exact hf a hq
  · rename_i c s' hs
    rw [hs]
    exact hx
  · rename_i c s' hs
    rw [hs]
    trivial

theorem fail (cause : Error) : Looks (CellLisp.fail cause : Act α) s Q := rfl

theorem halt (cause : Fatal) : Looks (CellLisp.halt cause : Act α) s Q := trivial

theorem gets {f : State → α} (hq : Q (f s)) : Looks (CellLisp.gets f) s Q := ⟨rfl, hq⟩

theorem mono {act : Act α} {Q' : α → Prop} (h : Looks act s Q) (hq : ∀ a, Q a → Q' a) :
    Looks act s Q' := by
  unfold Looks at *
  split at h
  · exact ⟨h.1, hq _ h.2⟩
  · exact h
  · trivial

theorem of_ok {act : Act α} {a : α} {s' : State} (h : Looks act s Q) (e : act s = .ok a s') :
    s' = s ∧ Q a := by
  unfold Looks at h
  rw [e] at h
  exact h

theorem leads {R : System → System → Prop} [Follows R] {act : Act α} {w : System}
    (h : Looks act w.state Q) : Leads R act w fun a w' => w = w' ∧ Q a := by
  unfold Looks at h
  unfold Leads
  split at h
  · exact ⟨w, h.1.symm, Follows.refl w, rfl, h.2⟩
  · exact ⟨w, h.symm, Follows.refl w⟩
  · trivial

/-- What is looked at first leaves the rest to lead on. -/
theorem andThen {R : System → System → Prop} {w : System} {x : Act α} {f : α → Act β}
    {Q' : β → System → Prop} (hx : Looks x w.state Q) (hr : R w w)
    (hf : ∀ a, Q a → Leads R (f a) w Q') : Leads R (x >>= f) w Q' := by
  unfold Looks at hx
  unfold Leads
  rw [act_bind]
  split at hx
  · rename_i a s' e
    obtain ⟨rfl, hq⟩ := hx
    have := hf a hq
    unfold Leads at this
    simpa only [e] using this
  · rename_i cause s' e
    subst hx
    simp only [e]
    exact ⟨w, rfl, hr⟩
  · rename_i cause s' e
    simp only [e]

end

end Looks

/-! ## Growing -/

/-- Symbols, machine, protected values and settings are as before, and so is what the roots
and the values `A` lead to. -/
structure Grown (A : List Value) (w w' : System) : Prop where
  plans : ∀ i, w.heap.Reachable (w.state.rootValues ++ A) i → w'.plans i = w.plans i
  symbols : w'.state.symbols = w.state.symbols
  machine : w'.state.machine = w.state.machine
  roots : w'.state.roots = w.state.roots
  known : w'.state.known = w.state.known
  config : w'.state.config = w.state.config
  kept : Heap.Kept (w.state.rootValues ++ A) w.heap w'.heap
  size : w'.heap.cells.size = w.heap.cells.size
  limit : w'.heap.arena.limit = w.heap.arena.limit

namespace Grown

variable {A : List Value} {w w' w'' : System}

theorem rootValues (hg : Grown A w w') : w'.state.rootValues = w.state.rootValues := by
  simp only [State.rootValues, hg.symbols, hg.machine, hg.roots, hg.known]

theorem mono {B : List Value} (hg : Grown B w w') (H : A ⊆ B) : Grown A w w' :=
  have hsub : w.state.rootValues ++ A ⊆ w.state.rootValues ++ B :=
    List.append_subset.2
      ⟨List.subset_append_left _ _, List.Subset.trans H (List.subset_append_right _ _)⟩
  { hg with
    plans := fun i hi => hg.plans i (hi.mono hsub)
    kept := hg.kept.mono hsub }

/-- A good value that is among those kept stays good. -/
theorem good (hg : Grown A w w') {v : Value} (hv : w.Good v) (hm : v ∈ w.state.rootValues ++ A) :
    w'.Good v := by
  exact ⟨hg.kept.holds hv.holds hm, hv.proper.congr (.of_eq fun i hi => hg.plans i (.root hm hi))⟩

/-- A good protected value stays good. -/
theorem good_root (hg : Grown A w w') {k : Nat} (hv : w.Good (w.state.roots.getD k .nil)) :
    w'.Good (w.state.roots.getD k .nil) := by
  rw [Array.getD_eq_getD_getElem?] at hv ⊢
  cases hk : w.state.roots[k]? with
  | none => exact w'.good_nil
  | some v =>
      rw [hk] at hv
      refine hg.good hv (List.mem_append_left _ ?_)
      simp only [State.rootValues, List.mem_append]
      simp [Array.mem_of_getElem? hk]

end Grown

instance (A : List Value) : Follows (Grown A) where
  refl w := ⟨fun _ _ => rfl, rfl, rfl, rfl, rfl, rfl, .refl, rfl, rfl⟩
  trans h₁ h₂ := by
    have hkept := h₂.kept
    have hplans := h₂.plans
    rw [h₁.rootValues] at hkept hplans
    exact ⟨fun i hi => (hplans i (h₁.kept.reachable hi)).trans (h₁.plans i hi), h₂.symbols.trans h₁.symbols, h₂.machine.trans h₁.machine,
      h₂.roots.trans h₁.roots, h₂.known.trans h₁.known, h₂.config.trans h₁.config,
      h₁.kept.trans hkept, h₂.size.trans h₁.size, h₂.limit.trans h₁.limit⟩

/-! ## What lasts -/

/-- What an action may touch. -/
structure Mode where
  /-- The machine is as before. -/
  machine : Bool
  /-- Pairs are as before. -/
  pairs : Bool
  /-- The cell of compiled code that is being emitted. -/
  target : Option Nat := none
  /-- The machine is as before, but for the value register and the argument count. -/
  rests : Bool := false
  /-- Protected values below this place are as before, and lead to what they led to other than
  through pairs. -/
  floor : Nat := 0
  /-- Symbols whose global value is as before. -/
  fixed : Nat → Prop := fun _ => False

/-- Whether it is noted what the first `e` protected values lead to, through pairs or not. -/
def Mode.Keeps (m : Mode) (pairs : Bool) (e : Nat) : Prop :=
  pairs = m.pairs ∨ pairs = false ∧ e ≤ m.floor

/-- The mode in which pairs and the machine count or not. -/
def Mode.through (m : Mode) (pairs machine : Bool) : Mode := { m with pairs, machine }

/-- The values that the machine refers to. -/
def Machine.values (m : Machine) : List Value :=
  [m.val, m.code] ++ m.native.toList ++ m.stack.toList
    ++ m.dyns.toList.flatMap (fun b => b.symbol :: b.old.toList) ++ m.conts.toList

/-- The machine is as before, but for the value register and the argument count. -/
def Machine.Rests (m m' : Machine) : Prop := ∃ val argc, m' = { m with val, argc }

theorem Machine.Rests.refl (m : Machine) : m.Rests m := ⟨m.val, m.argc, rfl⟩

theorem Machine.Rests.trans {m m' m'' : Machine} (h : m.Rests m') (h' : m'.Rests m'') :
    m.Rests m'' := by
  obtain ⟨_, _, rfl⟩ := h
  obtain ⟨val, argc, rfl⟩ := h'
  exact ⟨val, argc, rfl⟩

/-- The values that lasting ones are found from. -/
def State.base (m : Mode) (d : Nat) (s : State) : List Value :=
  s.symbols.buckets.toList ++ s.roots.toList.take d ++ [s.known.halt, s.known.makeClosure]
    ++ if m.machine then s.machine.values else []

/-- A value is found for good. -/
def Anchored (m : Mode) (d : Nat) (s : State) (v : Value) : Prop :=
  ∃ u ∈ s.base m d, Lasting s.heap m.pairs u v

/-- A cell is as before in what lasts. -/
def SameCell (m : Mode) (w w' : System) (i : Nat) : Prop :=
  match w.heap.cell i with
  | .pair head tail => ∃ head' tail', w'.heap.cell i = .pair head' tail' ∧
      (w'.plans i = some .hidden ↔ w.plans i = some .hidden) ∧
      (m.pairs = true ∨ w.plans i = some .hidden → head' = head ∧ tail' = tail)
  | .symbol s => ∃ s', w'.heap.cell i = .symbol s' ∧ s'.next = s.next ∧
      (m.fixed i → s'.value = s.value)
  | .bytecode b =>
    (∃ b', w'.heap.cell i = .bytecode b' ∧ b'.arity = b.arity) ∧
      (∀ p, w.plans i = some (.done p) → w'.plans i = some (.done p)) ∧
      ∀ sites, w.plans i = some (.draft sites) → m.target ≠ some i →
        w'.plans i = some (.draft sites)
  | .cont k => ∃ exited, w'.heap.cell i = .cont { k with exited } ∧
      (m.machine = true → exited = k.exited)
  | .array b => w'.heap.cell i = .array b ∧
      (w'.heap.payload b).items.size = (w.heap.payload b).items.size
  | .closure code env => w'.heap.cell i = .closure code env
  | .native n => w'.heap.cell i = .native n
  | c => (w'.heap.cell i).isFree = c.isFree ∧ (w'.heap.cell i).tag = c.tag

/-- A value is found from another along the tails of hidden pairs. -/
inductive Along (w : System) (u : Value) : Value → Prop
  | refl : Along w u u
  | step {i : Nat} {head tail : Value} : Along w u (.ref .pair i) → i ≠ 0 →
      w.plans i = some .hidden → w.heap.cell i = .pair head tail → Along w u tail

/-- The hidden pairs that are found from a value are as before. -/
def KeepsAlong (w w' : System) (u : Value) : Prop :=
  ∀ i head tail, Along w u (.ref .pair i) → i ≠ 0 → w.plans i = some .hidden →
    w.heap.cell i = .pair head tail →
    w'.heap.cell i = .pair head tail ∧ w'.plans i = some .hidden

/-- What lasts is the same, with the first `d` protected values to start from. -/
structure Stable (m : Mode) (d : Nat) (w w' : System) : Prop where
  known : w'.state.known = w.state.known
  config : w'.state.config = w.state.config
  bound : w'.state.machine.limit = w.state.machine.limit
  size : w'.heap.cells.size = w.heap.cells.size
  limit : w'.heap.arena.limit = w.heap.arena.limit
  machine : m.machine = true → w'.state.machine = w.state.machine
  rests : m.rests = true → w.state.machine.Rests w'.state.machine
  depth : ∀ e ≤ d, e ≤ w.state.roots.size → e ≤ w'.state.roots.size
  anchored : ∀ pairs machine, (machine = true → m.machine = true) → ∀ e ≤ d, m.Keeps pairs e → ∀ v,
    Anchored (m.through pairs machine) e w.state v → Anchored (m.through pairs machine) e w'.state v
  same : ∀ v i, Anchored m d w.state v → v.cell? = some i → SameCell m w w' i
  along : ∀ u, Anchored m d w.state u → KeepsAlong w w' u
  sound : ∀ k < d, w.Good (w.state.roots.getD k .nil) → w'.Good (w'.state.roots.getD k .nil)
  below : ∀ k < d, k < m.floor → w'.state.roots[k]? = w.state.roots[k]?

section Stable

variable {m : Mode} {d : Nat} {w w' w'' : System} {i : Nat} {v : Value}

theorem SameCell.refl (m : Mode) (w : System) (i : Nat) : SameCell m w w i := by
  unfold SameCell
  cases hc : w.heap.cell i with
  | pair a d => exact ⟨a, d, rfl, .rfl, fun _ => ⟨rfl, rfl⟩⟩
  | symbol s => exact ⟨s, rfl, rfl, fun _ => rfl⟩
  | bytecode b => exact ⟨⟨b, rfl, rfl⟩, fun _ h => h, fun _ h _ => h⟩
  | cont k => exact ⟨k.exited, rfl, fun _ => rfl⟩
  | array b => exact ⟨rfl, rfl⟩
  | closure code env => rfl
  | native n => rfl
  | free | string | stringStream | fileStream => exact ⟨rfl, rfl⟩

/-- A cell that is the same is in use as before, under the same tag. -/
theorem SameCell.tag (h : SameCell m w w' i) :
    (w'.heap.cell i).isFree = (w.heap.cell i).isFree ∧
      (w'.heap.cell i).tag = (w.heap.cell i).tag := by
  unfold SameCell at h
  cases hc : w.heap.cell i with
  | pair a d =>
      simp only [hc] at h
      obtain ⟨a', d', h, -⟩ := h
      simp [h, Cell.isFree, Cell.tag]
  | symbol s =>
      simp only [hc] at h
      obtain ⟨s', h, -⟩ := h
      simp [h, Cell.isFree, Cell.tag]
  | bytecode b =>
      simp only [hc] at h
      obtain ⟨⟨b', h, -⟩, -⟩ := h
      simp [h, Cell.isFree, Cell.tag]
  | cont k =>
      simp only [hc] at h
      obtain ⟨x, h, -⟩ := h
      simp [h, Cell.isFree, Cell.tag]
  | array b =>
      simp only [hc] at h
      simp [h.1]
  | closure code env =>
      simp only [hc] at h
      simp [h]
  | native n =>
      simp only [hc] at h
      simp [h]
  | free | string | stringStream | fileStream =>
      simp only [hc] at h
      exact h

theorem SameCell.trans (h₁ : SameCell m w w' i) (h₂ : SameCell m w' w'' i) :
    SameCell m w w'' i := by
  have htag := h₂.tag
  unfold SameCell at *
  cases hc : w.heap.cell i with
  | pair a d =>
      simp only [hc] at h₁
      obtain ⟨a', d', h, hp, hsame⟩ := h₁
      simp only [h] at h₂
      obtain ⟨a'', d'', h', hp', hsame'⟩ := h₂
      refine ⟨a'', d'', h', hp'.trans hp, fun hk => ?_⟩
      obtain ⟨rfl, rfl⟩ := hsame hk
      exact hsame' (hk.imp_right hp.2)
  | symbol s =>
      simp only [hc] at h₁
      obtain ⟨s', h, e, hv⟩ := h₁
      simp only [h] at h₂
      obtain ⟨s'', h', e', hv'⟩ := h₂
      exact ⟨s'', h', e'.trans e, fun hm => (hv' hm).trans (hv hm)⟩
  | bytecode b =>
      simp only [hc] at h₁
      obtain ⟨⟨b', h, e⟩, hdone, hdraft⟩ := h₁
      simp only [h] at h₂
      obtain ⟨⟨b'', h', e'⟩, hdone', hdraft'⟩ := h₂
      exact ⟨⟨b'', h', e'.trans e⟩, fun p hp => hdone' p (hdone p hp),
        fun sites hp hne => hdraft' sites (hdraft sites hp hne) hne⟩
  | cont k =>
      simp only [hc] at h₁
      obtain ⟨x, h, e⟩ := h₁
      simp only [h] at h₂
      obtain ⟨y, h', e'⟩ := h₂
      exact ⟨y, h', fun hm => (e' hm).trans (e hm)⟩
  | array b =>
      simp only [hc] at h₁
      obtain ⟨h, e⟩ := h₁
      simp only [h] at h₂
      exact ⟨h₂.1, h₂.2.trans e⟩
  | closure code env =>
      simp only [hc] at h₁
      simp only [h₁] at h₂
      exact h₂
  | native n =>
      simp only [hc] at h₁
      simp only [h₁] at h₂
      exact h₂
  | free | string | stringStream | fileStream =>
      simp only [hc] at h₁ ⊢
      exact ⟨htag.1.trans h₁.1, htag.2.trans h₁.2⟩

theorem State.base_subset (m : Mode) (d : Nat) (s : State) : s.base m d ⊆ s.rootValues := by
  intro v hv
  simp only [base, rootValues, Machine.values, List.mem_append] at *
  rcases hv with ((hv | hv) | hv) | hv
  · simp [hv]
  · simp [List.mem_of_mem_take hv]
  · simp only [List.mem_cons, List.not_mem_nil, or_false] at hv
    rcases hv with rfl | rfl <;> simp
  · split at hv
    · simp only [List.mem_append, List.mem_cons, List.not_mem_nil, or_false] at hv ⊢
      grind
    · cases hv

theorem Anchored.reachable (ha : Anchored m d w.state v) (hi : v.cell? = some i) :
    w.heap.Reachable w.state.rootValues i := by
  obtain ⟨u, hu, hl⟩ := ha
  exact hl.reachable (State.base_subset m d _ hu) hi

theorem Anchored.inUse (ha : Anchored m d w.state v) (hi : v.cell? = some i) :
    (w.heap.cell i).isFree = false :=
  (ha.reachable hi).inUse w.typed.heap.wf w.typed.roots

/-- A value whose cell is as before goes on to hold. -/
theorem SameCell.holds (hs : ∀ i, v.cell? = some i → SameCell m w w' i) (hv : w.heap.Holds v) :
    w'.heap.Holds v := by
  rintro tag i rfl hi
  obtain ⟨hf, ht⟩ := (hs i (Value.cell?_eq_some_iff.2 ⟨_, rfl, hi⟩)).tag
  rw [hf, ht]
  exact hv tag i rfl hi

/-- The plan of a cell that is as before is kept. -/
theorem SameCell.keepsPlan (hs : ∀ i, v.cell? = some i → SameCell m w w' i)
    (hv : w.heap.Holds v) : KeepsPlan w.plans w'.plans v := by
  constructor
  · rintro i p rfl hi hp
    obtain ⟨b, hb⟩ := Cell.exists_of_tag_bytecode (hv _ i rfl hi).2
    have h := hs i (Value.cell?_eq_some_iff.2 ⟨_, rfl, hi⟩)
    unfold SameCell at h
    simp only [hb] at h
    exact h.2.1 p hp
  · rintro i rfl hi
    obtain ⟨a, d, hb⟩ := Cell.exists_of_tag_pair (hv _ i rfl hi).2
    have h := hs i (Value.cell?_eq_some_iff.2 ⟨_, rfl, hi⟩)
    unfold SameCell at h
    simp only [hb] at h
    obtain ⟨-, -, -, hp, -⟩ := h
    exact hp

/-- A value whose cell is as before goes on to be good. -/
theorem SameCell.good (hs : ∀ i, v.cell? = some i → SameCell m w w' i) (hv : w.Good v) :
    w'.Good v :=
  ⟨SameCell.holds hs hv.holds, hv.proper.congr (SameCell.keepsPlan hs hv.holds)⟩

/-- A value that lasts goes on to be good. -/
theorem Stable.good (hs : Stable m d w w') (ha : Anchored m d w.state v) (hv : w.Good v) :
    w'.Good v :=
  SameCell.good (fun i hi => hs.same v i ha hi) hv

theorem Stable.anchors (hs : Stable m d w w') (hv : Anchored m d w.state v) :
    Anchored m d w'.state v :=
  hs.anchored m.pairs m.machine id d (Nat.le_refl d) (.inl rfl) v hv

/-- What is found along hidden pairs is found again when their cells and plans are kept. -/
theorem Along.congr {u : Value} (h : Along w u v) (hkept : KeepsAlong w w' u) : Along w' u v := by
  induction h with
  | refl => exact .refl
  | step h hi hp hc ih =>
      obtain ⟨hc', hp'⟩ := hkept _ _ _ h hi hp hc
      exact .step ih hi hp' hc'

theorem KeepsAlong.trans {u : Value} (h₁ : KeepsAlong w w' u) (h₂ : KeepsAlong w' w'' u) :
    KeepsAlong w w'' u := by
  intro i head tail h hi hp hc
  obtain ⟨hc₁, hp₁⟩ := h₁ i head tail h hi hp hc
  exact h₂ i head tail (h.congr h₁) hi hp₁ hc₁

instance : Follows (Stable m d) where
  refl w := ⟨rfl, rfl, rfl, rfl, rfl, fun _ => rfl, fun _ => .refl _, fun _ _ h => h,
    fun _ _ _ _ _ _ _ h => h, fun _ _ _ _ => .refl m w _, fun _ _ _ _ _ _ _ hp hc => ⟨hc, hp⟩, fun _ _ h => h,
    fun _ _ _ => rfl⟩
  trans h₁ h₂ :=
    { known := h₂.known.trans h₁.known
      config := h₂.config.trans h₁.config
      bound := h₂.bound.trans h₁.bound
      size := h₂.size.trans h₁.size
      limit := h₂.limit.trans h₁.limit
      machine := fun hm => (h₂.machine hm).trans (h₁.machine hm)
      rests := fun hm => (h₁.rests hm).trans (h₂.rests hm)
      depth := fun e he hd => h₂.depth e he (h₁.depth e he hd)
      anchored := fun q k hk e he hq v hv =>
        h₂.anchored q k hk e he hq v (h₁.anchored q k hk e he hq v hv)
      same := fun v i hv hi => (h₁.same v i hv hi).trans (h₂.same v i (h₁.anchors hv) hi)
      along := fun u hu => (h₁.along u hu).trans (h₂.along u (h₁.anchors hu))
      sound := fun k hk h => h₂.sound k hk (h₁.sound k hk h)
      below := fun k hk hf => (h₂.below k hk hf).trans (h₁.below k hk hf) }

/-- A value of the base lasts. -/
theorem anchored_of_mem (hv : v ∈ w.state.base m d) : Anchored m d w.state v := ⟨v, hv, .refl⟩

theorem Anchored.step {s : State} {u : Value} (ha : Anchored m d s u) (hi : u.cell? = some i)
    (hv : v ∈ (s.heap.cell i).lasting m.pairs) : Anchored m d s v := by
  obtain ⟨r, hr, hl⟩ := ha
  exact ⟨r, hr, .step hl hi hv⟩

/-- What lasts with fewer protected values to start from lasts with more. -/
theorem Anchored.of_le {s : State} {e : Nat} (ha : Anchored m d s v) (he : d ≤ e) :
    Anchored m e s v := by
  obtain ⟨u, hu, hl⟩ := ha
  have hsub : s.roots.toList.take d ⊆ s.roots.toList.take e := by
    intro x hx
    rw [← Nat.min_eq_left he, ← List.take_take] at hx
    exact List.mem_of_mem_take hx
  refine ⟨u, ?_, hl⟩
  simp only [State.base, List.mem_append] at hu ⊢
  rcases hu with ((hu | hu) | hu) | hu
  · exact .inl (.inl (.inl hu))
  · exact .inl (.inl (.inr (hsub hu)))
  · exact .inl (.inr hu)
  · exact .inr hu

/-- What is led to as before lasts. -/
theorem Lasting.of_kept {A : List Value} {h h' : Heap} {pairs : Bool} {u : Value}
    (hk : Heap.Kept A h h') (hu : u ∈ A) (hl : Lasting h pairs u v) : Lasting h' pairs u v := by
  induction hl with
  | refl => exact .refl
  | step hl hc hw ih =>
      refine .step ih hc ?_
      rw [hk.cell _ (hl.reachable hu hc)]
      exact hw

theorem SameCell.of_eq (hcell : w'.heap.cell i = w.heap.cell i)
    (hrec : ∀ b, (w.heap.cell i).block? = some b →
      w'.heap.arena.record? b.offset = w.heap.arena.record? b.offset)
    (hplan : ∀ plan, w.plans i = some plan → m.target ≠ some i → w'.plans i = some plan)
    (hdone : ∀ p, w.plans i = some (.done p) → w'.plans i = some (.done p))
    (hhidden : ∀ head tail, w.heap.cell i = .pair head tail →
      (w'.plans i = some .hidden ↔ w.plans i = some .hidden)) :
    SameCell m w w' i := by
  unfold SameCell
  rw [hcell]
  cases hc : w.heap.cell i with
  | pair a d => exact ⟨a, d, rfl, hhidden a d hc, fun _ => ⟨rfl, rfl⟩⟩
  | symbol s => exact ⟨s, rfl, rfl, fun _ => rfl⟩
  | bytecode b => exact ⟨⟨b, rfl, rfl⟩, hdone, fun _ h hne => hplan _ h hne⟩
  | cont k => exact ⟨k.exited, rfl, fun _ => rfl⟩
  | array b => exact ⟨rfl, by rw [Heap.payload_eq_of_record? (hrec b (by rw [hc]; rfl))]⟩
  | closure code env => rfl
  | native n => rfl
  | free | string | stringStream | fileStream => exact ⟨rfl, rfl⟩

/-- What is found along hidden pairs is reachable. -/
theorem Along.reachable {A : List Value} {u : Value} (h : Along w u v)
    (hu : ∀ i, u.cell? = some i → w.heap.Reachable A i) (hi : v.cell? = some i) :
    w.heap.Reachable A i := by
  induction h generalizing i with
  | refl => exact hu i hi
  | step h hne hp hc ih =>
      refine .step (ih (Value.cell?_eq_some_iff.2 ⟨_, rfl, hne⟩))
        (w.heap.mem_references_of_mem_values ?_) hi
      rw [hc]
      simp [Cell.values]

/-- Growing leaves what lasts as it is. -/
theorem Grown.stable {A : List Value} (hg : Grown A w w') : Stable m d w w' := by
  have hbase : ∀ {q k e}, w'.state.base (m.through q k) e = w.state.base (m.through q k) e := by
    simp only [State.base, hg.symbols, hg.roots, hg.known, hg.machine, implies_true]
  have hsub : ∀ {q k} e, w.state.base (m.through q k) e ⊆ w.state.rootValues ++ A := fun e =>
    List.Subset.trans (State.base_subset _ e _) (List.subset_append_left _ _)
  refine
    { known := hg.known
      config := hg.config
      bound := by rw [hg.machine]
      size := hg.size
      limit := hg.limit
      machine := fun _ => hg.machine
      rests := fun _ => by rw [hg.machine]; exact .refl _
      depth := fun e _ hd => by rw [hg.roots]; exact hd
      anchored := ?_
      same := fun v i hv hi => ?_
      along := fun u hu i head tail h hi hp hc => ?_
      sound := fun k _ h => ?_
      below := fun _ _ _ => by rw [hg.roots] }
  · rintro q k - e - - v ⟨u, hu, hl⟩
    exact ⟨u, by rw [hbase]; exact hu, hl.of_kept hg.kept (hsub e hu)⟩
  · have hr := (hv.reachable hi).mono (List.subset_append_left _ A)
    refine .of_eq (hg.kept.cell i hr) (fun b hb => hg.kept.record i b hr hb) ?_ ?_
      fun _ _ _ => by rw [hg.plans i hr]
    · intro plan h _
      exact (hg.plans i hr).trans h
    · intro p h
      exact (hg.plans i hr).trans h
  · have hr := (h.reachable (fun j hj => hu.reachable hj)
      (Value.cell?_eq_some_iff.2 ⟨_, rfl, hi⟩)).mono (List.subset_append_left _ A)
    exact ⟨(hg.kept.cell i hr).trans hc, (hg.plans i hr).trans hp⟩
  · rw [hg.roots]
    exact hg.good_root h

end Stable

namespace Leads

variable {α : Type} {w : System} {Q : α → System → Prop}

/-- What grows stays as it is in what lasts. -/
theorem stable {A : List Value} {m : Mode} {d : Nat} {act : Act α} (h : Leads (Grown A) act w Q) :
    Leads (Stable m d) act w fun a w' => Grown A w w' ∧ Q a w' := by
  unfold Leads at *
  split at h
  · obtain ⟨w', hs, hr, hq⟩ := h
    exact ⟨w', hs, hr.stable, hr, hq⟩
  · obtain ⟨w', hs, hr⟩ := h
    exact ⟨w', hs, hr.stable⟩
  · trivial

end Leads

end CellLisp
