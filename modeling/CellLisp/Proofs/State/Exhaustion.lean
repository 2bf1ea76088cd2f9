import CellLisp.Proofs.Heap.Upkeep
import CellLisp.Proofs.State.Placing
import CellLisp.Session

/-!
# `CellLisp.Proofs.State.Exhaustion` — cells run out only when the pool is full

Between two placements a system may do anything with its roots and with the cells and blocks in
use, as long as it puts there what refers to something that is in use:

| `Changes` | |
| :-- | :-- |
| `roots` | everything but the heap becomes other |
| `cell` | a cell in use gets other contents of its kind |
| `block` | a claimed block gets other contents |
| `claim` | a block is claimed |
| `collect` | what nothing leads to is given up |

A state is `Reached` from a new system by any number of these and of placements.  In every such
state a placement fails if and only if the pool is full (`State.Reached.allocCell_exhausted_iff`),
so a program that keeps little alive can place as many cells as it likes, one after the other
(`burst`).
-/

namespace CellLisp

/-- A change between two placements. -/
inductive State.Changes (s : State) : State → Prop
  | roots {s' : State} : s'.heap = s.heap → (∀ v ∈ s'.rootValues, s.heap.Holds v) → Changes s s'
  | cell {i : Nat} {c : Cell} : (s.heap.cell i).isFree = false → c.isFree = false →
      c.tag = (s.heap.cell i).tag → s.heap.Sound c → Changes s { s with heap := s.heap.set i c }
  | block {b : Block} {f : Payload → Payload} : s.heap.Claims b →
      (∀ v ∈ (f (s.heap.payload b)).references, s.heap.Holds v) →
      Changes s { s with heap := s.heap.modifyPayload b f }
  | claim (bytes : Nat) : Changes s { s with heap := (s.heap.claim bytes).2 }
  | collect : Changes s (s.collect none)

/-- A state of a system that starts with nothing allocated. -/
inductive State.Reached (config : Config) (world : World) : State → Prop
  | initial : Reached config world (.initial config world)
  | change {s s' : State} : Reached config world s → s.Changes s' → Reached config world s'
  | place {s s' : State} {c : Cell} {v : Value} : Reached config world s → c.isFree = false →
      s.heap.Sound c → allocCell c s = .ok v s' → Reached config world s'

/-- What to do next and what to place then, by the number of placements still to come, the value
given out last and the state. -/
abbrev Demand := Nat → Value → State → State × Cell

/-- Places a number of cells, one after the other. -/
def burst (demand : Demand) : Nat → Value → Act Value
  | 0, v => return v
  | n + 1, v => do
    let c ← modifyGet fun s => ((demand n v s).2, (demand n v s).1)
    burst demand n (← allocCell c)

/-- A demand that does nothing but change states and that never asks for a cell in a state that
is full. -/
def Demand.Fits (demand : Demand) : Nat → Value → State → Prop
  | 0, _, _ => True
  | n + 1, v, s =>
    let (s₁, c) := demand n v s
    Relation.ReflTransGen State.Changes s s₁ ∧ c.isFree = false ∧ s₁.heap.Sound c ∧ ¬s₁.Full c ∧
      ∀ v' s', allocCell c s₁ = .ok v' s' → demand.Fits n v' s'

/-! ## States stay in order -/

section Order

variable {config : Config} {world : World} {s s' : State} {c : Cell} {v : Value}

/-- Nothing is in use in a new heap, so it is in order. -/
theorem Heap.wellFormed_new (cells bytes lowWater : Nat) :
    (Heap.new cells bytes lowWater).WellFormed where
  pool := (skeleton_new cells bytes lowWater).pool
  tiled := (skeleton_new cells bytes lowWater).tiled
  top_le := (skeleton_new cells bytes lowWater).top_le
  sound i hi := by
    rw [isFree_new] at hi
    cases hi
  unmarked i := by
    rw [marked, Array.getD_eq_getD_getElem?]
    show ((Array.replicate (max cells 2) false)[i]?).getD false = false
    rw [Array.getElem?_replicate]
    split <;> rfl
  blockUnmarked o r hr := by
    exfalso
    revert hr
    simp [Heap.new, Arena.new, Arena.record?]

theorem State.cell?_of_mem_rootValues_initial (hv : v ∈ (initial config world).rootValues) :
    v.cell? = none := by
  have hnil : v = .nil := by
    simpa [rootValues, initial, SymbolTable.new] using hv
  rw [hnil]
  rfl

theorem State.wellFormed_initial (config : Config) (world : World) :
    (initial config world).WellFormed none where
  heap := Heap.wellFormed_new _ _ _
  roots v hv := Heap.holds_of_cell?_eq_none (cell?_of_mem_rootValues_initial hv)
  pending c hc := by cases hc

theorem State.WellFormed.with_pending (hs : s.WellFormed none) (hc : s.heap.Sound c) :
    s.WellFormed (some c) where
  heap := hs.heap
  roots := hs.roots
  pending := by
    rintro _ ⟨⟩
    exact hc

/-- One change. -/
theorem State.Changes.wellFormed (h : s.Changes s') (hs : s.WellFormed none) :
    s'.WellFormed none := by
  cases h with
  | roots hheap hroots =>
      refine ⟨?_, ?_, fun c hc => by cases hc⟩
      · rw [hheap]
        exact hs.heap
      · rw [hheap]
        exact hroots
  | cell hi hc htag hsound =>
      refine ⟨hs.heap.set hi hc htag hsound, fun v hv => ?_, fun c hc => by cases hc⟩
      exact (hs.roots v hv).set hi hc htag
  | block hb hf =>
      refine ⟨hs.heap.modifyPayload hb hf, fun v hv => ?_, fun c hc => by cases hc⟩
      exact hs.roots v hv
  | claim bytes =>
      cases hclaim : s.heap.arena.claim bytes with
      | mk b? a =>
          have heq : (s.heap.claim bytes).2 = { s.heap with arena := a } := by
            simp only [Heap.claim, hclaim]
          rw [heq]
          cases b? with
          | none =>
              obtain rfl := Arena.eq_of_claim_none hclaim
              exact hs
          | some b =>
              have hc := Arena.claimed_of_claim hs.heap.tiled hs.heap.top_le hclaim
              refine ⟨hs.heap.claim hc, fun v hv => ?_, fun c hc => by cases hc⟩
              exact (Heap.extends_claim hc).holds (hs.roots v hv)
  | collect => exact (collect_exact hs).2.1

/-- Any number of changes and placements. -/
theorem State.Reached.wellFormed (hs : Reached config world s) : s.WellFormed none := by
  induction hs with
  | initial => exact wellFormed_initial config world
  | change _ h ih => exact h.wellFormed ih
  | place _ hc hsound h ih => exact ((ih.with_pending hsound).supplied hc h).2

theorem State.Reached.changes (hs : Reached config world s)
    (h : Relation.ReflTransGen State.Changes s s') : Reached config world s' := by
  induction h with
  | refl => exact hs
  | tail _ h ih => exact ih.change h

/-! ## Placements -/

/-- One placement. -/
theorem State.Reached.exists_place (hs : Reached config world s) (hc : c.isFree = false)
    (hsound : s.heap.Sound c) (hroom : ¬s.Full c) :
    ∃ v s', allocCell c s = .ok v s' ∧ s.Supplied c v s' ∧ Reached config world s' := by
  have hw := hs.wellFormed.with_pending hsound
  obtain ⟨v, s', h, hsup, -⟩ := hw.allocCell_of_not_full hc hroom
  exact ⟨v, s', h, hsup, hs.place hc hsound h⟩

/-- Any number of them. -/
theorem State.Reached.exists_burst {demand : Demand} {n : Nat} (hs : Reached config world s)
    (h : demand.Fits n v s) : ∃ v' s', burst demand n v s = .ok v' s' := by
  induction n generalizing v s with
  | zero => exact ⟨v, s, rfl⟩
  | succ n ih =>
      obtain ⟨hch, hc, hsound, hroom, hnext⟩ := h
      have hs₁ := hs.changes hch
      obtain ⟨v₁, s₂, h₁, -, hs₂⟩ := hs₁.exists_place hc hsound hroom
      obtain ⟨v₂, s₃, h₂⟩ := ih hs₂ (hnext v₁ s₂ h₁)
      refine ⟨v₂, s₃, ?_⟩
      rw [burst, act_bind, act_modifyGet]
      show (allocCell (demand n v s).2 >>= burst demand n) (demand n v s).1 = _
      rw [act_bind, h₁]
      exact h₂

/-- In every state of a run a placement fails exactly when every cell but cell zero is led to,
from the roots or from the cell to be placed.  In any other it gives out a cell that nothing led
to, under the tag of its kind, and leaves all that is led to as it is.  So no sequence of
placements fails that leaves room for each. -/
theorem State.Reached.allocCell_exhausted_iff (hs : Reached config world s) :
    (∀ c : Cell, c.isFree = false → s.heap.Sound c →
      ((∃ s', allocCell c s = .error (.fatal .cellsExhausted) s') ↔ s.Full c) ∧
      (¬s.Full c →
        ∃ v s', allocCell c s = .ok v s' ∧ s.Supplied c v s' ∧ Reached config world s')) ∧
    ∀ (demand : Demand) (n : Nat) (v : Value), demand.Fits n v s →
      ∃ v' s', burst demand n v s = .ok v' s' := by
  refine ⟨fun c hc hsound => ⟨⟨?_, ?_⟩, hs.exists_place hc hsound⟩,
    fun demand n v h => hs.exists_burst h⟩
  · rintro ⟨s', h⟩
    refine Classical.byContradiction fun hroom => ?_
    obtain ⟨v, s₁, h₁, -⟩ := hs.exists_place hc hsound hroom
    rw [h] at h₁
    cases h₁
  · intro hfull
    exact (hs.wellFormed.with_pending hsound).allocCell_of_full hfull

end Order

/-! ### A pool with a single cell to give out -/

/-- Two cells, one of them cell zero; a placement collects whatever is free. -/
def Config.cramped : Config := { cells := 2, lowWater := 1 }

/-- A world without files. -/
def World.empty : World := { input := [], output := .empty, log := #[], files := [] }

/-- Pairs that are dropped as soon as they are there. -/
def Demand.litter : Demand := fun n _ s => (s, .pair (.int n) .nil)

/-- Roots that refer to nothing leave room. -/
theorem State.not_full_of_roots {s : State} {head tail : Value}
    (hroots : ∀ v ∈ s.rootValues, v.cell? = none) (hhead : head.cell? = none)
    (htail : tail.cell? = none) (hsize : 1 < s.heap.cells.size) : ¬s.Full (.pair head tail) := by
  intro hfull
  have hr := hfull 1 (by decide) hsize
  have hnone : ∀ v ∈ s.startValues (.pair head tail), v.cell? = none := by
    intro v hv
    rcases List.mem_append.1 hv with hv | hv
    · have hv : v = head ∨ v = tail := by
        simpa [Heap.references, Cell.block?, Cell.values] using hv
      rcases hv with rfl | rfl
      · exact hhead
      · exact htail
    · exact hroots v hv
  generalize 1 = i at hr
  induction hr with
  | root hv hi =>
      rw [hnone _ hv] at hi
      cases hi
  | step _ _ _ ih => exact ih

theorem Demand.fits_litter {s : State} {v : Value} {config : Config} {world : World} {n : Nat}
    (hs : State.Reached config world s) (hroots : ∀ v ∈ s.rootValues, v.cell? = none)
    (hsize : 1 < s.heap.cells.size) : Demand.litter.Fits n v s := by
  induction n generalizing v s with
  | zero => trivial
  | succ n ih =>
      have hsound : s.heap.Sound (.pair (.int n) .nil) := by
        refine ⟨fun v hv => Heap.holds_of_cell?_eq_none ?_, fun b hb => by cases hb⟩
        have hv : v = .int n ∨ v = .nil := by
          simpa [Heap.references, Cell.block?, Cell.values] using hv
        rcases hv with rfl | rfl <;> rfl
      have hroom : ¬s.Full (.pair (.int n) .nil) := State.not_full_of_roots hroots rfl rfl hsize
      refine ⟨.refl, rfl, hsound, hroom, fun v' s' h => ?_⟩
      obtain ⟨hsup, -⟩ := (hs.wellFormed.with_pending hsound).supplied rfl h
      obtain ⟨h', w, hrest⟩ := hsup.rest
      refine ih (hs.place rfl hsound h) ?_ ?_
      · rw [hrest]
        exact hroots
      · rw [hsup.size]
        exact hsize

theorem State.sound_nils (h : Heap) : h.Sound (.pair .nil .nil) := by
  refine ⟨fun v hv => Heap.holds_of_cell?_eq_none ?_, fun b hb => by cases hb⟩
  have hv : v = .nil := by simpa [Heap.references, Cell.block?, Cell.values] using hv
  rw [hv]
  rfl

/-- The one cell is given out and protected, and the pool is full. -/
theorem State.exists_crowded : ∃ s, State.Reached .cramped .empty s ∧ s.Full (.pair .nil .nil) := by
  have hs : Reached .cramped .empty (initial .cramped .empty) := .initial
  have hnone : ∀ v ∈ (initial .cramped .empty).rootValues, v.cell? = none :=
    fun _ hv => cell?_of_mem_rootValues_initial hv
  have hroom : ¬(initial .cramped .empty).Full (.pair .nil .nil) :=
    not_full_of_roots hnone rfl rfl (by decide)
  obtain ⟨v, s, -, hsup, hs'⟩ := hs.exists_place rfl (sound_nils _) hroom
  obtain ⟨i, rfl, hi, hlt, -, hcell⟩ := hsup.fresh
  obtain ⟨h, w, rfl⟩ := hsup.rest
  have hone : i = 1 := by
    have hsize : (initial .cramped .empty).heap.cells.size = 2 := rfl
    omega
  refine ⟨{ initial .cramped .empty with heap := h, world := w, roots := #[.ref .pair i] },
    hs'.change (.roots rfl fun u hu => ?_), fun j hj hlt' => ?_⟩
  · have hu : u = .ref .pair i ∨ u = .nil := by
      simpa [rootValues, initial, SymbolTable.new, or_comm] using hu
    rcases hu with rfl | rfl
    · rintro tag j ⟨⟩ -
      rw [hcell]
      exact ⟨rfl, rfl⟩
    · exact Heap.holds_of_cell?_eq_none rfl
  · have hjone : j = i := by
      have hsize : h.cells.size = 2 := hsup.size
      rw [hsize] at hlt'
      omega
    refine .root (v := .ref .pair i) (List.mem_append_right _ ?_) ?_
    · simp [rootValues]
    · rw [hjone]
      exact Value.cell?_eq_some_iff.2 ⟨_, rfl, hi⟩

/-- There is no room for a second pair; but a hundred pairs can be placed when none is kept. -/
theorem State.Reached.allocCell_exhausted_cramped :
    (∃ s : State, Reached .cramped .empty s ∧
      ∃ s', allocCell (.pair .nil .nil) s = .error (.fatal .cellsExhausted) s') ∧
    ∃ v s', burst .litter 100 .nil (.initial .cramped .empty) = .ok v s' := by
  constructor
  · obtain ⟨s, hs, hfull⟩ := exists_crowded
    have hnil := hs.allocCell_exhausted_iff.1 (.pair .nil .nil) rfl (sound_nils _)
    exact ⟨s, hs, hnil.1.2 hfull⟩
  · have hs : Reached .cramped .empty (.initial .cramped .empty) := .initial
    refine hs.allocCell_exhausted_iff.2 .litter 100 .nil (Demand.fits_litter hs ?_ (by decide))
    exact fun _ hv => cell?_of_mem_rootValues_initial hv

end CellLisp
