import CellLisp.Compile.Scope
import CellLisp.Code.Instr

/-!
# `CellLisp.Proofs.Code.Site` — code with what is known at each instruction

A *site* is an instruction together with what was known when it was emitted: the scope
the compiler had built up, and the *shape* of the machine that will come to it.

| shape | |
| :-- | :-- |
| `val` | what the value register holds, if that matters |
| `ops` | what the operands hold, the top first |
| `labels` | the continuations established by the procedure, the newest first |
| `dyns` | how many dynamic bindings the procedure has made |

Below the operands a frame has a fixed part: the environment, the saved words and the
arguments.  `Site.Safe` says of one instruction that the machine, coming to it in the shape
noted there, finds what the instruction takes and goes on to sites whose shapes are those
that it leaves.  A listing is `Verified` when every site is safe; nothing but the listing is
looked at.
-/

namespace CellLisp

/-- What a word of the machine holds. -/
inductive Kind where
  /-- A value that a program may hold. -/
  | any
  /-- A word of a frame that a call saved. -/
  | saved
  /-- An array of so many copies. -/
  | env (size : Nat)
  /-- Compiled code that has yet to be joined to an environment of so many copies. -/
  | code (copies : Nat)
  /-- The procedure that makes closures. -/
  | maker
  deriving DecidableEq, Inhabited, Repr

/-- Where an exit goes on, and what the machine is brought back to. -/
structure Label where
  /-- Instruction to go on at. -/
  target : Nat
  /-- Operands there. -/
  ops : List Kind
  /-- Dynamic bindings there. -/
  dyns : Nat
  deriving DecidableEq, Inhabited, Repr

/-- What is known of the machine at an instruction. -/
structure Shape where
  /-- The value register, if that matters. -/
  val : Option Kind
  /-- The operands, the top first. -/
  ops : List Kind
  /-- Continuations of the procedure, the newest first. -/
  labels : List Label
  /-- Dynamic bindings of the procedure. -/
  dyns : Nat
  deriving DecidableEq, Inhabited, Repr

/-- An instruction and what is known there. -/
structure Site where
  /-- The instruction. -/
  instr : Instr
  /-- The compiler's scope. -/
  scope : Scope
  /-- The machine that comes to it. -/
  shape : Shape
  /-- What a constant is. -/
  gives : Kind
  deriving Inhabited, Repr

/-- The site of a constant of a kind. -/
def Site.giving (s : Site) (k : Kind) : Site := { s with gives := k }

/-- The shape without what the value register holds. -/
def Shape.forget (sh : Shape) : Shape := { sh with val := none }

/-- The shape with a value in the value register. -/
def Shape.withVal (sh : Shape) (k : Kind) : Shape := { sh with val := some k }

/-- A machine of one shape may come to an instruction: there is a site, which asks for no
more than that shape. -/
def Arrives (l : List Site) (n : Nat) (sh : Shape) : Prop :=
  ∃ s, l[n]? = some s ∧ s.shape.forget = sh.forget ∧ ∀ k, s.shape.val = some k → sh.val = some k

/-- The continuations of a shape lead back to it: each was established among the operands
that are left, and what it resumes at takes the machine it restores. -/
def Nested (l : List Site) (ops : List Kind) (dyns : Nat) : List Label → Prop
  | [] => True
  | k :: older =>
    k.ops <:+ ops ∧ k.dyns ≤ dyns ∧ Arrives l k.target ⟨some .any, k.ops, older, k.dyns⟩ ∧
      Nested l k.ops k.dyns older

/-- What an instruction finds and where it goes on.  `fixed` is what the words below the
operands hold, the top first. -/
def Site.Safe (fixed : List Kind) (l : List Site) (i : Nat) (s : Site) : Prop :=
  let sh := s.shape
  let m := s.instr.modifier
  let x := s.instr.operand
  let slots := sh.ops ++ fixed
  match s.instr.op with
  | .halt => False
  | .const => Arrives l (i + 1) (sh.withVal s.gives)
  | .push => ∃ k, sh.val = some k ∧ Arrives l (i + 1) { sh with ops := k :: sh.ops }
  | .drop => m ≤ sh.ops.length ∧ Arrives l (i + 1) { sh with ops := sh.ops.drop m }
  | .stackRef => slots[m]? = some .any ∧ Arrives l (i + 1) (sh.withVal .any)
  | .stackSet => slots[m]? = some .any ∧ sh.val = some .any ∧ Arrives l (i + 1) sh
  | .envRef => (∃ n j : Nat, slots[m]? = some (.env n) ∧ x = .ofInt j ∧ j < n) ∧
      Arrives l (i + 1) (sh.withVal .any)
  | .envSet => (∃ n j : Nat, slots[m]? = some (.env n) ∧ x = .ofInt j ∧ j < n) ∧
      sh.val = some .any ∧ Arrives l (i + 1) sh
  | .globalRef => Arrives l (i + 1) (sh.withVal .any)
  | .globalSet => sh.val = some .any ∧ Arrives l (i + 1) sh
  | .jump => ∃ t : Nat, x = .ofInt t ∧ Arrives l t sh
  | .jumpIfFalse => (∃ t : Nat, x = .ofInt t ∧ Arrives l t sh) ∧ Arrives l (i + 1) sh
  | .call =>
    (sh.val = some .any ∧ m ≤ sh.ops.length ∧ (∀ k ∈ sh.ops.take m, k = .any) ∧
      Arrives l (i + 1) ⟨some .any, sh.ops.drop m, sh.labels, sh.dyns⟩) ∨
    (sh.val = some .maker ∧ m = 2 ∧ ∃ n ops, sh.ops = .env n :: .code n :: ops ∧
      Arrives l (i + 1) ⟨some .any, ops, sh.labels, sh.dyns⟩)
  | .tailCall => sh.val = some .any ∧ m ≤ sh.ops.length ∧ (∀ k ∈ sh.ops.take m, k = .any) ∧
      sh.labels = [] ∧ sh.dyns = 0
  | .ret => sh.val = some .any ∧ sh.labels = [] ∧ sh.dyns = 0
  | .varargs => i = 0 ∧ sh.ops = [] ∧ sh.val = some .saved ∧ Arrives l (i + 1) sh.forget
  | .makeArray => m ≤ sh.ops.length ∧ (∀ k ∈ sh.ops.take m, k = .any) ∧
      -- the array goes to the procedure that makes closures, three instructions on
      (∃ t, l[i + 3]? = some t ∧ t.instr.op = .call ∧ t.shape.val = some .maker) ∧
      Arrives l (i + 1) ⟨some (.env m), sh.ops.drop m, sh.labels, sh.dyns⟩
  | .withCont => ∃ t : Nat, x = .ofInt t ∧ Arrives l t (sh.withVal .any) ∧
      Arrives l (i + 1) { sh with labels := ⟨t, sh.ops, sh.dyns⟩ :: sh.labels }
  | .popCont => ∃ k older, sh.labels = k :: older ∧ Arrives l (i + 1) { sh with labels := older }
  | .contRef => m < sh.labels.length ∧ Arrives l (i + 1) (sh.withVal .any)
  | .exit => m < sh.labels.length ∧ sh.val = some .any
  | .envExit => (∃ n j : Nat, slots[m]? = some (.env n) ∧ x = .ofInt j ∧ j < n) ∧
      sh.val = some .any
  | .dynBind => sh.val = some .any ∧ Arrives l (i + 1) { sh with dyns := sh.dyns + 1 }
  | .dynUnbind => m ≤ sh.dyns ∧ Arrives l (i + 1) { sh with dyns := sh.dyns - m }

/-- Code that a machine may run: every site is safe, and the scope noted there has the
depth of the shape.  The instruction that collects arguments asks for a saved word in the
value register, where none is ever found: only a call comes to it. -/
structure Verified (fixed : List Kind) (variadic : Bool) (l : List Site) : Prop where
  start : Arrives l 0 ⟨if variadic then some .saved else none, [], [], 0⟩
  safe : ∀ i s, l[i]? = some s → Site.Safe fixed l i s
  nested : ∀ s ∈ l, Nested l s.shape.ops s.shape.dyns s.shape.labels
  depth : ∀ s ∈ l, s.scope.depth = s.shape.ops.length + fixed.length
  first : ∀ i s, l[i]? = some s → (s.instr.op = .varargs ↔ i = 0 ∧ variadic = true)

end CellLisp
