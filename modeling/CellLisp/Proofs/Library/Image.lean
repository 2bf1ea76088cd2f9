import CellLisp.Proofs.Heap.LaidOut
import CellLisp.Proofs.Library.Loaded

/-!
# `CellLisp.Proofs.Library.Image` — systems with the core library that are written down

Whether the procedures of the core library are there can be computed from a state.  `Image.state`
is one where they are: a symbol for each name that they use, in one chain, the value of each behind
the symbols, and then some lists.

| cells | |
| :-- | :-- |
| 0 | never in use |
| `1 …` | the texts of the names |
| `Image.cellOf name …` | their symbols |
| `Image.valueAt 0 …` | the values of the first of them, built-in procedures and then code |
| `Image.listAt 0 …` | lists |
| `Image.free` | free cells |
-/

namespace CellLisp

open Library

/-! ## What can be computed -/

instance Heap.decidableServes (h : Heap) (arity : Arity) (p : Primitive) :
    (v : Value) → Decidable (h.Serves v arity p)
  | .ref .native i => decidable_of_iff ((match h.cell i with
      | .native n => n.arity == arity && n.procedure == p
      | _ => false) = true) <| by
      constructor
      · intro hn
        split at hn
        · rename_i n hc
          simp only [Bool.and_eq_true, beq_iff_eq] at hn
          obtain ⟨rfl, rfl⟩ := hn
          exact ⟨i, n.name, rfl, hc⟩
        · cases hn
      · rintro ⟨_, name, ⟨⟩, hc⟩
        rw [hc]
        simp
  | .ref .object _ | .ref .pair _ | .ref .symbol _ | .ref .closure _ | .ref .bytecode _
  | .nil | .int _ | .float _ _ | .stray _ => isFalse fun ⟨_, _, hv, _⟩ => by cases hv

instance Heap.decidableCarries (h : Heap) (arity : Arity) (p : Proc) (v : Value) :
    Decidable (h.Carries v arity p) :=
  decidable_of_iff (v.isBytecode = true ∧
      (h.listing? v).any (fun e => e.2 == p.instrs.toArray && e.1.arity == arity) = true) <| by
    unfold Carries
    simp only [Option.any_eq_true, Bool.and_eq_true, beq_iff_eq, Prod.exists]
    refine and_congr_right fun _ => ⟨?_, ?_⟩
    · rintro ⟨b, _, hlisting, rfl, harity⟩
      exact ⟨b, hlisting, harity⟩
    · rintro ⟨b, hlisting, harity⟩
      exact ⟨b, _, hlisting, rfl, harity⟩

/-- What is said of the value of a global. -/
instance Heap.decidableGlobal (h : Heap) (x : Value) (P : Value → Prop) [DecidablePred P] :
    Decidable (∃ v, h.global? x = some v ∧ P v) :=
  decidable_of_iff ((h.global? x).any (fun v => P v) = true) (by simp [Option.any_eq_true])

instance State.decidableLoaded (σ : String → Nat) (t : State) : Decidable (t.Loaded σ) :=
  decidable_of_iff ((∀ e ∈ Library.builtins, t.findSymbol? e.1 = some (sym σ e.1) ∧
        ∃ v, t.heap.global? (sym σ e.1) = some v ∧ t.heap.Serves v ⟨e.2.1⟩ e.2.2) ∧
      (∀ e ∈ Library.procedures σ, t.findSymbol? e.1 = some (sym σ e.1) ∧
        ∃ v, t.heap.global? (sym σ e.1) = some v ∧ t.heap.Carries v (.exactly e.2.1) e.2.2) ∧
      t.findSymbol? "t" = some t.known.t)
    ⟨fun ⟨hb, hp, ht⟩ => ⟨fun _ _ _ h => hb _ h, fun _ _ _ h => hp _ h, ht⟩,
      fun h => ⟨fun _ he => h.builtins _ _ _ he, fun _ he => h.procedures _ _ _ he, h.truth⟩⟩

/-! ## A system with the library -/

namespace Image

/-- The names in use, those with a value first. -/
def names : List String :=
  builtins.map (·.1) ++ (procedures fun _ => 0).map (·.1) ++ "defun" :: "t" :: formNames ++
    ["variable", "constant", "f", "x", "y"]

def cellOf (name : String) : Nat := 1 + names.length + names.idxOf name

def valueAt (n : Nat) : Nat := 1 + 2 * names.length + n

/-- The first list is the one that the code of `defun` refers to. -/
def listAt (n : Nat) : Value :=
  .ref .pair (valueAt (builtins.length + (procedures cellOf).length + 1 + n))

/-- Compiled code, with its arity. -/
def codes : List (Arity × Proc) :=
  (procedures cellOf).map (fun e => (.exactly e.2.1, e.2.2)) ++ [(⟨-3⟩, defun cellOf (listAt 0))]

/-- The blocks of the texts, two words each, and of the codes. -/
def blocks : List BlockRecord :=
  names.map (fun name => ⟨2, true, false, .text name⟩) ++
    codes.map fun e => ⟨2 * e.2.instrs.length, true, false, .code e.2.instrs.toArray⟩

def blockAt (n : Nat) : Block := ⟨((blocks.take n).map fun r => r.words + 1).sum⟩

def valueOf (name : String) : Option Value :=
  let i := names.idxOf name
  if i < builtins.length then some (.ref .native (valueAt i))
  else if i < builtins.length + codes.length then some (.ref .bytecode (valueAt i))
  else if name = "t" then some (sym cellOf "t")
  else none

def symbolOf (name : String) (i : Nat) : Symbol where
  name := .ref .object (1 + i)
  hash := hashName (Utf8.encode name)
  role := .plain
  arity := none
  declared := false
  value := valueOf name
  next := (names[i + 1]?.map (sym cellOf)).getD .nil

/-- The cells in use.  The lists are `('function)` in full, `((1 . 2) (3 . 4))` and `(x . y)`. -/
def cells : List Cell :=
  [.free 0] ++ names.mapIdx (fun i _ => .string (blockAt i)) ++
    names.mapIdx (fun i name => .symbol (symbolOf name i)) ++
    builtins.map (fun e => .native ⟨sym cellOf e.1, ⟨e.2.1⟩, e.2.2⟩) ++
    codes.mapIdx (fun i e => .bytecode ⟨.nil, .nil, e.1, blockAt (names.length + i)⟩) ++
    [.pair (sym cellOf "quote") (listAt 1), .pair (sym cellOf "function") .nil,
     .pair (listAt 4) (listAt 3), .pair (listAt 5) .nil, .pair (.int 1) (.int 2),
     .pair (.int 3) (.int 4), .pair (sym cellOf "x") (sym cellOf "y")]

def free : List Nat := (List.range 16).map (cells.length + ·)

def heap : Heap where
  cells := (cells ++ free.tail.map Cell.free ++ [Cell.free 0]).toArray
  marks := Array.replicate (cells.length + free.length) false
  firstFree := cells.length
  freeCount := free.length
  lowWater := 0
  arena := ⟨(Arena.tiling blocks).toArray, #[], 4096⟩
  collections := 0

/-- No run is under way. -/
def state : State where
  heap := heap
  symbols := ⟨#[sym cellOf "+"], names.length⟩
  machine := { limit := 64 }
  roots := #[]
  known :=
    { t := sym cellOf "t"
      plainRole := sym cellOf "variable"
      constantRole := sym cellOf "constant"
      functionRole := sym cellOf "function"
      quote := sym cellOf "quote"
      doForm := sym cellOf "do"
      set := sym cellOf "set!"
      comptime := sym cellOf "comptime"
      namedLambda := sym cellOf "named-lambda" }
  config := {}
  gensyms := 0
  failure := none
  world := { input := [], output := .empty, log := #[], files := [] }

theorem laidOut : heap.LaidOut blocks free := by decide +kernel

theorem wellFormed_heap : heap.WellFormed := by
  refine laidOut.wellFormed ?_
  unfold heap
  rfl

theorem holds_roots : ∀ v ∈ state.rootValues, heap.Holds v := by decide +kernel

theorem wellFormed : state.WellFormed none where
  heap := wellFormed_heap
  roots := holds_roots
  pending _ hc := absurd hc (Option.some_ne_none _).symm

theorem loaded : state.Loaded cellOf := by decide +kernel

theorem defining : state.Defining cellOf (listAt 0) where
  loaded := loaded
  names := by decide +kernel
  expander := by decide +kernel
  role := by
    have hfirst : heap.pair? (listAt 0) = some (sym cellOf "quote", listAt 1) := by decide +kernel
    have hsecond : heap.pair? (listAt 1) = some (sym cellOf "function", .nil) := by decide +kernel
    exact .cons hfirst (.cons hsecond .nil)
  roles := by decide +kernel

end Image

end CellLisp
