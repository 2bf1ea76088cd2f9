import CellLisp.Code.Buffer
import CellLisp.Proofs.State.Act
import CellLisp.Stream
import CellLisp.Syntax.Reader

/-!
# `CellLisp.Proofs.State.Uncounted` — which errors an action can fail with

An action fails with errors of a kind only (`Raises`) if its parts do.  To allocate fails with
none, since a full store is no error, and the reader only with faults of the text.

A violation of an arity is an error like others; to know where it can come from is to know that
most actions never fail with it (`Uncounted`): those that allocate, read text, make symbols and
code, or read and write bytes.
-/

namespace CellLisp

/-- A call with a wrong number of arguments. -/
def Error.isArity : Error → Bool
  | .arity .. => true
  | _ => false

/-- All errors of an action are of a kind. -/
def Raises {α : Type} (E : Error → Prop) (act : Act α) : Prop :=
  ∀ s cause s', act s = .error (.error cause) s' → E cause

/-- None of the errors of an action is about a number of arguments. -/
def Uncounted {α : Type} (act : Act α) : Prop := Raises (·.isArity = false) act

namespace Raises

section

variable {α β : Type} {E : Error → Prop} {act x y : Act α} {f : α → Act β} {xs : List α}

theorem pure {a : α} : Raises E (pure a) := fun _ _ _ h => by cases h

theorem halt {cause : Fatal} : Raises E (CellLisp.halt cause : Act α) := fun _ _ _ h => by cases h

theorem fail {cause : Error} (h : E cause) : Raises E (CellLisp.fail cause : Act α) := by
  intro s cause' s' hs
  cases hs
  exact h

theorem gets {g : State → α} : Raises E (CellLisp.gets g) := fun _ _ _ h => by cases h

theorem modify {g : State → State} : Raises E (modify g) := fun _ _ _ h => by cases h

theorem modifyGet {g : State → α × State} : Raises E (modifyGet g : Act α) :=
  fun _ _ _ h => by cases h

theorem bind (hx : Raises E x) (hf : ∀ a, Raises E (f a)) : Raises E (x >>= f) := by
  intro s cause s' h
  rw [act_bind] at h
  cases hs : x s with
  | ok a t =>
      rw [hs] at h
      exact hf a t cause s' h
  | error c t =>
      rw [hs] at h
      cases h
      exact hx s cause s' hs

/-- What is looked up first. -/
theorem look {g : State → α} {f : α → Act β} (hf : ∀ a, Raises E (f a)) :
    Raises E (CellLisp.gets g >>= f) := bind gets hf

theorem ite {c : Prop} [Decidable c] (hx : Raises E x) (hy : Raises E y) :
    Raises E (if c then x else y) := by
  split
  · exact hx
  · exact hy

/-- An action that may be left out. -/
theorem when {c : Prop} [Decidable c] {u : Act Unit} (hu : Raises E u) (hx : Raises E x) :
    Raises E (if c then u >>= fun _ => x else x) :=
  ite (bind hu fun _ => hx) hx

/-- A check. -/
theorem check {c : Prop} [Decidable c] {cause : Error} (hcause : E cause)
    (h : Raises E act) : Raises E (do
      if c then CellLisp.fail cause
      act) :=
  ite (bind (fail hcause) fun _ => h) h

theorem withRoots (h : Raises E act) : Raises E (CellLisp.withRoots act) := by
  intro s cause s' hs
  unfold CellLisp.withRoots at hs
  cases hact : act s with
  | ok a t =>
      rw [hact] at hs
      cases hs
  | error c t =>
      rw [hact] at hs
      cases hs
      exact h s cause t hact

theorem foldlM {f : β → α → Act β} (hf : ∀ b a, Raises E (f b a)) {b : β} :
    Raises E (xs.foldlM f b) := by
  induction xs generalizing b with
  | nil => exact pure
  | cons a xs ih =>
      rw [List.foldlM_cons]
      exact bind (hf b a) fun _ => ih

end

end Raises

/-! ## Stores -/

section Stores

variable {E : Error → Prop}

theorem raises_exhausted {α : Type} (what : String) (cause : Fatal) :
    Raises E (exhausted what cause : Act α) :=
  .bind .modify fun _ => .halt

theorem raises_allocCell (c : Cell) : Raises E (allocCell c) := by
  refine .look fun low => .when .modify (.bind .modifyGet fun place => ?_)
  cases place with
  | none => exact raises_exhausted _ _
  | some index => exact .pure

theorem raises_allocBlock (bytes : Nat) : Raises E (allocBlock bytes) := by
  have hclaim : Raises E (claimBlock bytes) := .modifyGet
  refine .bind hclaim fun block => ?_
  cases block with
  | some block => exact .pure
  | none =>
      refine .bind .modify fun _ => .bind hclaim fun block => ?_
      cases block with
      | some block => exact .pure
      | none => exact raises_exhausted _ _

theorem raises_allocPayload (bytes : Nat) (p : Payload) : Raises E (allocPayload bytes p) :=
  .bind (raises_allocBlock _) fun _ => .bind .modify fun _ => .pure

theorem raises_makeString (text : String) : Raises E (makeString text) :=
  .bind (raises_allocPayload _ _) fun _ => raises_allocCell _

theorem raises_protect (v : Value) : Raises E (protect v) := by
  refine .bind .gets fun s => .ite (.bind .modify fun _ => .halt) (.bind ?_ fun _ => .pure)
  exact fun _ _ _ h => by cases h

theorem raises_consRoots (base n : Nat) (tail : Value) : Raises E (consRoots base n tail) := by
  induction n generalizing tail with
  | zero => exact .pure
  | succ n ih => exact .look fun _ => .bind (raises_allocCell _) fun _ => ih _

theorem raises_listFromRoots (base : Nat) (tail : Value) : Raises E (listFromRoots base tail) :=
  .look fun _ => raises_consRoots _ _ _

end Stores

/-! ## Symbols and text -/

section Symbols

variable {E : Error → Prop}

theorem uncounted_typeError {α : Type} (expected : Expected) (v : Value) :
    Uncounted (typeError expected v : Act α) :=
  .look fun _ => .fail rfl

theorem raises_newSymbol (name : String) (hash : UInt32) (next : Value) :
    Raises E (newSymbol name hash next) :=
  .bind (raises_makeString _) fun _ => raises_allocCell _

theorem raises_intern (name : String) : Raises E (intern name) := by
  refine .look fun found => ?_
  cases found with
  | some v => exact .pure
  | none =>
      refine .look fun _ => .look fun _ => .bind (raises_newSymbol _ _ _) fun _ => ?_
      exact .bind .modify fun _ => .pure

namespace Reader

theorem raises_deliver (form : Value) (frames : List Frame) : Raises E (deliver form frames) := by
  induction frames generalizing form with
  | nil => exact .pure
  | cons f rest ih =>
      cases f with
      | list base => exact .bind (raises_protect _) fun _ => .pure
      | dotted base | ended base tail => exact .pure
      | quoted =>
          exact .bind (raises_allocCell _) fun _ => .look fun _ =>
            .bind (raises_allocCell _) fun _ => ih _

theorem raises_close (base : Nat) (tail : Value) (rest : List Frame) :
    Raises E (close base tail rest) :=
  .bind (raises_listFromRoots _ _) fun _ => .bind .modify fun _ => raises_deliver _ _

theorem raises_atomValue (text : String) : Raises E (atomValue text) := by
  unfold atomValue
  split
  · exact .pure
  · exact raises_intern _

/-- A token is never a list without an end, and a string without one only if it is that token. -/
theorem raises_step {t : Token} {frames : List Frame} (hE : ∀ fault : ReadError, fault ≠ .unmatchedOpen →
    (fault = .unterminatedString → t = .unterminated) → E (.read fault)) :
    Raises E (step t frames) := by
  unfold step
  split
  · exact .fail (hE _ nofun fun _ => rfl)
  · exact raises_close _ _ _
  · exact .fail (hE _ nofun nofun)
  · exact raises_close _ _ _
  · exact .fail (hE _ nofun nofun)
  · exact .look fun _ => .ite (.fail (hE _ nofun nofun)) .pure
  · exact .fail (hE _ nofun nofun)
  · exact .look fun _ => .pure
  · exact .pure
  · exact .bind (raises_makeString _) fun _ => raises_deliver _ _
  · exact .bind (raises_atomValue _) fun _ => raises_deliver _ _

end Reader

end Symbols

/-! ## Code -/

section Code

theorem uncounted_makeBytecode (name doc : Value) (arity : Arity) :
    Uncounted (makeBytecode name doc arity) :=
  .bind (raises_allocPayload _ _) fun _ => raises_allocCell _

theorem uncounted_bytecodeOf (code : Value) : Uncounted (bytecodeOf code) := by
  refine .look fun b? => ?_
  cases b? with
  | some b => exact .pure
  | none => exact .halt

theorem uncounted_codeLength (code : Value) : Uncounted (codeLength code) :=
  .bind (uncounted_bytecodeOf _) fun _ => .gets

theorem uncounted_growCode (code : Value) (b : Bytecode) (length : Nat) (operand : Value) :
    Uncounted (growCode code b length operand) :=
  .bind (raises_protect _) fun _ => .bind (raises_allocBlock _) fun _ =>
    .bind .modify fun _ => .bind .modify fun _ => .bind .modify fun _ => .pure

theorem uncounted_emit (code : Value) (op : Opcode) (modifier : Nat) (operand : Value) :
    Uncounted (emit code op modifier operand) := by
  refine .bind (uncounted_bytecodeOf _) fun b => .look fun length => .look fun capacity => ?_
  have hpush (block : Block) : Uncounted (do
      modifyHeap (·.modifyPayload block (.pushInstr ⟨op, modifier, operand⟩))
      return length : Act Nat) := .bind .modify fun _ => .pure
  exact .ite (.bind (uncounted_growCode _ _ _ _) hpush) (hpush _)

theorem uncounted_patch (code : Value) (place target : Nat) : Uncounted (patch code place target) :=
  .bind (uncounted_bytecodeOf _) fun _ => .modify

end Code

/-! ## Streams -/

section Streams

/-- What is asked of the world, and what is done about the answer. -/
theorem Raises.ask {α β : Type} {E : Error → Prop} {f : World → Except Error α × World}
    {k : Except Error α → Act β} (hf : ∀ w cause, (f w).1 = .error cause → E cause)
    (herror : ∀ cause, E cause → Raises E (k (.error cause)))
    (hok : ∀ a, Raises E (k (.ok a))) : Raises E (onWorld f >>= k) := by
  intro s cause s' h
  have hs : onWorld f s = .ok (f s.world).1 { s with world := (f s.world).2 } := rfl
  rw [act_bind, hs] at h
  cases hanswer : (f s.world).1 with
  | error c =>
      rw [hanswer] at h
      exact herror c (hf _ _ hanswer) _ _ _ h
  | ok a =>
      rw [hanswer] at h
      exact hok a _ _ _ h

end Streams

end CellLisp
