import CellLisp.Alloc
import CellLisp.Object
import CellLisp.Proofs.Code.Proc
import CellLisp.Proofs.Heap.Orderly

/-!
# `CellLisp.Proofs.State.Typed` — what is known of the values of a state

Compiled code that copies variables of its surroundings may be run only with an environment
that holds them.  A *plan* says of a cell of compiled code what it was compiled from; a
value that a program may hold (`Proper`) is compiled code only if that copies nothing.

| | |
| :-- | :-- |
| `Plan` | the sites emitted so far, or the procedure when it is finished |
| `Proper` | a value that a program may hold |
| `CellTyped` | a cell holds proper values, a closure code and an environment that fit |
| `State.Typed` | a state whose heap is orderly and whose cells are typed |

`System` is a typed state with its plans.
-/

namespace CellLisp

/-- What a cell of compiled code was compiled from; or that a pair is hidden. -/
inductive Plan where
  /-- Instructions are still being emitted, or it is not for programs to run. -/
  | draft (sites : List Site)
  | done (p : Proc)
  /-- A pair of a list that the system keeps to itself. -/
  | hidden

/-- The sites of compiled code. -/
def Plan.sites : Plan → List Site
  | .draft sites => sites
  | .done p => p.sites
  | .hidden => []

/-- Plans by cell. -/
abbrev Plans := Nat → Option Plan

/-- A value that a program may hold: if it is compiled code, then of a procedure that copies
nothing, and no hidden pair. -/
structure Proper (plans : Plans) (v : Value) : Prop where
  code : ∀ i, v = .ref .bytecode i → i ≠ 0 → ∃ p, plans i = some (.done p) ∧ p.copies = 0
  shown : ∀ i, v = .ref .pair i → i ≠ 0 → plans i ≠ some .hidden

/-- A hidden pair. -/
def Hidden (plans : Plans) (v : Value) : Prop :=
  ∃ i, v = .ref .pair i ∧ i ≠ 0 ∧ plans i = some .hidden

/-- Compiled code of a procedure with so many copies. -/
def CodeOf (plans : Plans) (n : Nat) (v : Value) : Prop :=
  ∃ i p, v = .ref .bytecode i ∧ i ≠ 0 ∧ plans i = some (.done p) ∧ p.copies = n

/-- A constant is of a kind. -/
def ConstOk (plans : Plans) (maker v : Value) : Kind → Prop
  | .any => Proper plans v
  | .code n => n ≠ 0 ∧ CodeOf plans n v
  | .maker => v = maker
  | .saved | .env _ => False

/-- The constants of code are of the kinds noted. -/
def ConstsOk (plans : Plans) (maker : Value) (sites : List Site) : Prop :=
  ∀ s ∈ sites, s.instr.op = .const → ConstOk plans maker s.instr.operand s.gives

/-- The words of a frame below the operands, as a call lays them out. -/
def frameKinds (copies args : Nat) : List Kind :=
  (if copies = 0 then [] else [.env copies])
    ++ ([.saved, .saved, .saved] ++ List.replicate args .any)

/-- A procedure whose frame is laid out as its arity says.  The arguments of a unit have no
place in its scope. -/
structure Proc.Fits (p : Proc) (a : Arity) : Prop where
  conts : p.scope.conts = []
  body : p.body.Ok p.scope
  fixed : ∃ args, p.fixed = frameKinds p.copies args ∧
    (args = a.slots ∨ args = 0 ∧ p.least? = none)
  least : ∀ n, p.least? = some n → a.isVariadic = true ∧ a.required = n
  exact : p.least? = none → a.isVariadic = false

/-- An array of a number of elements. -/
def Heap.IsArray (h : Heap) (v : Value) (n : Nat) : Prop :=
  ∃ i b, v = .ref .object i ∧ i ≠ 0 ∧ h.cell i = .array b ∧ (h.payload b).items.size = n

/-- Contents of a cell are what their kind asks for; `plan?` is the cell's plan. -/
def ContentsOk (plans : Plans) (maker : Value) (h : Heap) (plan? : Option Plan) (c : Cell) : Prop :=
  match c with
  | .pair head tail => Proper plans head ∧ (Proper plans tail ∨ plan? = some .hidden ∧ Hidden plans tail)
  | .closure code env => ∃ n, n ≠ 0 ∧ CodeOf plans n code ∧ h.IsArray env n
  | .bytecode b =>
    ∃ plan, plan? = some plan ∧
      h.payload b.code = .code (plan.sites.map (·.instr)).toArray ∧
      Instr.bytes ≤ h.arena.capacity b.code ∧ ConstsOk plans maker plan.sites ∧
      Proper plans b.name ∧ Proper plans b.doc ∧ ∀ p, plan = .done p → p.Fits b.arity
  | .cont _ => True
  | c => ∀ v ∈ h.references c, Proper plans v

/-- The contents of a cell are what its kind asks for. -/
def CellTyped (plans : Plans) (maker : Value) (h : Heap) (i : Nat) : Prop :=
  ContentsOk plans maker h (plans i) (h.cell i)

/-- Values that cells hold on to for good: elements of lists if lists stay as they are, and
the next symbol of a chain. -/
def Cell.lasting (pairs : Bool) : Cell → List Value
  | .pair head tail => if pairs then [head, tail] else []
  | .symbol s => [s.next]
  | _ => []

/-- A value is found from another one for good. -/
inductive Lasting (h : Heap) (pairs : Bool) (u : Value) : Value → Prop
  | refl : Lasting h pairs u u
  | step {v w : Value} {i : Nat} : Lasting h pairs u v → v.cell? = some i →
      w ∈ (h.cell i).lasting pairs → Lasting h pairs u w

/-- Symbols that the system itself refers to. -/
def WellKnown.symbols (k : WellKnown) : List Value :=
  [k.quote, k.letForm, k.dynamicLet, k.set, k.comptime, k.namedLambda, k.doForm, k.ifForm,
    k.withCont, k.exit, k.loop, k.t, k.standardOutput, k.standardInput, k.toplevel, k.plainRole,
    k.constantRole, k.functionRole, k.expanderRole]

/-- What the system refers to is there, if it has been made. -/
structure KnownOk (plans : Plans) (s : State) : Prop where
  halt : s.known.halt = .nil ∨ ∃ i sites, s.known.halt = .ref .bytecode i ∧ i ≠ 0 ∧
    plans i = some (.draft sites) ∧ ∀ site ∈ sites, site.instr.op = .halt
  maker : s.known.makeClosure = .nil ∨ ∃ i n, s.known.makeClosure = .ref .native i ∧ i ≠ 0 ∧
    s.heap.cell i = .native n ∧ n.procedure = .makeClosure
  symbols : ∀ v ∈ s.known.symbols, v = .nil ∨ (∃ i, v = .ref .symbol i ∧ i ≠ 0) ∧
    ∃ u ∈ s.symbols.buckets.toList, Lasting s.heap false u v

/-- A state whose heap is orderly and whose cells are typed, with nothing said of the
continuations in force. -/
structure State.TypedCells (plans : Plans) (s : State) : Prop where
  heap : s.heap.Orderly
  roots : ∀ v ∈ s.rootValues, s.heap.Holds v
  cells : ∀ i, CellTyped plans s.known.makeClosure s.heap i
  buckets : ∀ v ∈ s.symbols.buckets.toList, Proper plans v
  dyns : ∀ b ∈ s.machine.dyns.toList, ∀ v, b.old = some v → Proper plans v
  known : KnownOk plans s

/-- A state whose heap is orderly and whose cells are typed; a continuation that has not been
left is among those in force. -/
structure State.Typed (plans : Plans) (s : State) : Prop extends State.TypedCells plans s where
  conts : ∀ i k, s.heap.cell i = .cont k → k.exited = false →
    .ref .object i ∈ s.machine.conts.toList

/-- A typed state with its plans. -/
structure System where
  plans : Plans
  state : State
  typed : State.Typed plans state

namespace System

/-- Its heap. -/
abbrev heap (w : System) : Heap := w.state.heap

/-- A value that may be stored anywhere. -/
structure Good (w : System) (v : Value) : Prop where
  holds : w.heap.Holds v
  proper : Proper w.plans v

end System

/-! ## Values -/

section Values

variable {plans : Plans}

/-- What refers to neither code nor a pair is proper. -/
theorem proper_of_tag {tag : Tag} {i : Nat} (hcode : tag ≠ .bytecode) (hpair : tag ≠ .pair) :
    Proper plans (.ref tag i) := by
  constructor <;> rintro j he
  · exact absurd (Value.ref.inj he).1 hcode
  · exact absurd (Value.ref.inj he).1 hpair

theorem proper_of_cell?_eq_none {v : Value} (hv : v.cell? = none) : Proper plans v := by
  constructor <;> rintro i rfl hi <;> simp [Value.cell?, hi] at hv

@[simp] theorem proper_nil : Proper plans .nil := proper_of_cell?_eq_none rfl

@[simp] theorem proper_int (i : Int) : Proper plans (.int i) := proper_of_cell?_eq_none rfl

@[simp] theorem proper_ofInt (i : Int) : Proper plans (.ofInt i) := proper_of_cell?_eq_none rfl

@[simp] theorem holds_nil (h : Heap) : h.Holds .nil := Heap.holds_of_cell?_eq_none rfl

@[simp] theorem holds_int (h : Heap) (i : Int) : h.Holds (.int i) :=
  Heap.holds_of_cell?_eq_none rfl

@[simp] theorem holds_ofInt (h : Heap) (i : Int) : h.Holds (.ofInt i) :=
  Heap.holds_of_cell?_eq_none rfl

theorem System.good_nil (w : System) : w.Good .nil := ⟨holds_nil _, proper_nil⟩

theorem System.good_ofInt (w : System) (i : Int) : w.Good (.ofInt i) :=
  ⟨holds_ofInt _ i, proper_ofInt i⟩

/-- Finished procedures that a value refers to stay so, and it is hidden only if it was. -/
structure KeepsPlan (plans plans' : Plans) (v : Value) : Prop where
  done : ∀ i p, v = .ref .bytecode i → i ≠ 0 → plans i = some (.done p) →
    plans' i = some (.done p)
  hidden : ∀ i, v = .ref .pair i → i ≠ 0 → (plans' i = some .hidden ↔ plans i = some .hidden)

theorem KeepsPlan.of_eq {plans' : Plans} {v : Value}
    (h : ∀ i, v.cell? = some i → plans' i = plans i) : KeepsPlan plans plans' v := by
  constructor
  · rintro i p rfl hi hp
    rw [h i (Value.cell?_eq_some_iff.2 ⟨_, rfl, hi⟩)]
    exact hp
  · rintro i rfl hi
    rw [h i (Value.cell?_eq_some_iff.2 ⟨_, rfl, hi⟩)]

theorem Proper.congr {plans' : Plans} {v : Value} (hv : Proper plans v)
    (he : KeepsPlan plans plans' v) : Proper plans' v := by
  refine ⟨?_, fun i hi hne h => hv.shown i hi hne ((he.hidden i hi hne).1 h)⟩
  rintro i rfl hi
  obtain ⟨p, hp, hc⟩ := hv.code i rfl hi
  exact ⟨p, he.done i p rfl hi hp, hc⟩

theorem CodeOf.congr {plans' : Plans} {n : Nat} {v : Value} (hv : CodeOf plans n v)
    (he : KeepsPlan plans plans' v) : CodeOf plans' n v := by
  obtain ⟨i, p, rfl, hi, hp, hc⟩ := hv
  exact ⟨i, p, rfl, hi, he.done i p rfl hi hp, hc⟩

theorem Hidden.congr {plans' : Plans} {v : Value} (hv : Hidden plans v)
    (he : KeepsPlan plans plans' v) : Hidden plans' v := by
  obtain ⟨i, rfl, hi, hp⟩ := hv
  exact ⟨i, rfl, hi, (he.hidden i rfl hi).2 hp⟩

end Values

/-! ## Cells -/

section Cells

variable {plans : Plans} {maker : Value} {h h' : Heap}

theorem Heap.IsArray.congr {v : Value} {n : Nat} (hv : h.IsArray v n)
    (hcell : ∀ i, v.cell? = some i → h'.cell i = h.cell i)
    (hrec : ∀ i b, v.cell? = some i → (h.cell i).block? = some b →
      h'.arena.record? b.offset = h.arena.record? b.offset) : h'.IsArray v n := by
  obtain ⟨i, b, rfl, hi, hc, hn⟩ := hv
  have hcell? := Value.cell?_eq_some_iff.2 ⟨Tag.object, rfl, hi⟩
  refine ⟨i, b, rfl, hi, (hcell i hcell?).trans hc, ?_⟩
  rw [Heap.payload_eq_of_record? (hrec i b hcell? (by rw [hc]; rfl))]
  exact hn

/-- Contents are typed as before when their block is as before and the arrays they refer to are
as long as before. -/
theorem ContentsOk.congr {plan? : Option Plan} {c : Cell} (ht : ContentsOk plans maker h plan? c)
    (hrec : ∀ b, c.block? = some b → h'.arena.record? b.offset = h.arena.record? b.offset)
    (harrays : ∀ v ∈ h.references c, ∀ n, h.IsArray v n → h'.IsArray v n) :
    ContentsOk plans maker h' plan? c := by
  have hrefs := Heap.references_eq_of_record? hrec
  unfold ContentsOk at *
  cases c with
  | closure code env =>
      obtain ⟨n, hn, hcode, henv⟩ := ht
      have hmem : env ∈ h.references (.closure code env) := by
        simp [Heap.references, Cell.block?, Cell.values]
      exact ⟨n, hn, hcode, harrays env hmem n henv⟩
  | bytecode b =>
      obtain ⟨plan, hp, hpay, hroom, hrest⟩ := ht
      refine ⟨plan, hp, ?_, ?_, hrest⟩
      · rw [Heap.payload_eq_of_record? (hrec _ rfl)]
        exact hpay
      · rw [Arena.capacity, hrec _ rfl]
        exact hroom
  | cont k => trivial
  | pair head tail => exact ht
  | free | symbol | native | array | string | stringStream | fileStream =>
      simpa only [hrefs] using ht

/-- Finished procedures that contents refer to are still there. -/
def Finished (plans plans' : Plans) (vs : List Value) : Prop := ∀ v ∈ vs, KeepsPlan plans plans' v

theorem ConstOk.congr_plans {plans' : Plans} {v : Value} {k : Kind} (hv : ConstOk plans maker v k)
    (hf : Finished plans plans' [v]) : ConstOk plans' maker v k := by
  have hf := hf v (List.mem_singleton_self v)
  cases k with
  | any => exact Proper.congr hv hf
  | code n => exact ⟨hv.1, hv.2.congr hf⟩
  | maker => exact hv
  | saved | env => exact hv

/-- Contents stay typed under other plans that have the finished procedures they refer to. -/
theorem ContentsOk.congr_plans {plans' : Plans} {plan? : Option Plan} {c : Cell}
    (ht : ContentsOk plans maker h plan? c) (hf : Finished plans plans' (h.references c)) :
    ContentsOk plans' maker h plan? c := by
  unfold ContentsOk at *
  cases c with
  | closure code env =>
      obtain ⟨n, hn, hcode, henv⟩ := ht
      have hmem : code ∈ h.references (.closure code env) := by
        simp [Heap.references, Cell.block?, Cell.values]
      exact ⟨n, hn, hcode.congr (hf code hmem), henv⟩
  | bytecode b =>
      obtain ⟨plan, hp, hpay, hroom, hconsts, hname, hdoc, hfits⟩ := ht
      have hrefs : h.references (.bytecode b) =
          plan.sites.map (fun s => s.instr.operand) ++ [b.name, b.doc] := by
        simp [Heap.references, Cell.block?, Cell.values, hpay, Payload.references]
      rw [hrefs] at hf
      refine ⟨plan, hp, hpay, hroom, ?_, hname.congr (hf _ (by simp)), hdoc.congr (hf _ (by simp)), hfits⟩
      intro s hs hop
      refine (hconsts s hs hop).congr_plans ?_
      intro v hv
      obtain rfl := List.mem_singleton.1 hv
      exact hf _ (List.mem_append_left _ (List.mem_map_of_mem hs))
  | cont k => trivial
  | pair head tail =>
      have hhead := hf head (by simp [Heap.references, Cell.block?, Cell.values])
      have htail := hf tail (by simp [Heap.references, Cell.block?, Cell.values])
      exact ⟨ht.1.congr hhead, ht.2.imp (·.congr htail) fun h => ⟨h.1, h.2.congr htail⟩⟩
  | free | symbol | native | array | string | stringStream | fileStream =>
      intro v hv
      exact (ht v hv).congr (hf v hv)

/-- A free cell is typed. -/
theorem contentsOk_of_isFree {plan? : Option Plan} {c : Cell} (hf : c.isFree = true) :
    ContentsOk plans maker h plan? c := by
  cases c with
  | free next => simp [ContentsOk, Heap.references, Cell.block?, Cell.values]
  | pair | symbol | native | closure | bytecode | cont | array | string | stringStream
  | fileStream => cases hf

end Cells

theorem Cell.exists_of_tag_bytecode {c : Cell} (h : c.tag = .bytecode) : ∃ b, c = .bytecode b := by
  cases c <;> simp_all [Cell.tag]

theorem Cell.exists_of_tag_pair {c : Cell} (h : c.tag = .pair) : ∃ a d, c = .pair a d := by
  cases c <;> simp_all [Cell.tag]

/-! ## Lasting values -/

section Lasting

variable {h : Heap} {pairs : Bool} {u v w : Value}

theorem Lasting.trans (h₁ : Lasting h pairs u v) (h₂ : Lasting h pairs v w) :
    Lasting h pairs u w := by
  induction h₂ with
  | refl => exact h₁
  | step _ hc hw ih => exact .step ih hc hw

theorem Cell.lasting_subset (pairs : Bool) (c : Cell) : c.lasting pairs ⊆ c.values := by
  cases c with
  | pair a d => cases pairs <;> simp [lasting, values]
  | symbol s => simp [lasting, values]
  | free | native | closure | bytecode | cont | array | string | stringStream | fileStream =>
      simp [lasting]

theorem Lasting.mono (hl : Lasting h false u v) : Lasting h pairs u v := by
  induction hl with
  | refl => exact .refl
  | step _ hc hw ih =>
      refine .step ih hc ?_
      revert hw
      cases h.cell _ <;> simp [Cell.lasting]

theorem Heap.mem_references_of_mem_values {c : Cell} (h : Heap) (hv : v ∈ c.values) :
    v ∈ h.references c := by
  unfold references
  split
  · exact List.mem_append_right _ hv
  · exact hv

/-- A cell that is found for good is reachable. -/
theorem Lasting.reachable {rs : List Value} {i : Nat} (hl : Lasting h pairs u v) (hu : u ∈ rs)
    (hi : v.cell? = some i) : h.Reachable rs i := by
  induction hl generalizing i with
  | refl => exact .root hu hi
  | step _ hc hw ih =>
      exact .step (ih hc) (h.mem_references_of_mem_values (Cell.lasting_subset _ _ hw)) hi

end Lasting

end CellLisp
