import CellLisp.Value

/-!
# `CellLisp.Compile.Scope` — what the operand stack will hold

While a procedure body is compiled, its scope models the part of the operand stack
that belongs to the procedure's frame, the top first.

    entry          slots    stands for
    var x          1        an argument or a let variable
    env            1        the closure's environment
    frame          3        the words saved by the call
    temp           1        an operand
    dynamic x      0        a dynamic binding, which hides variables of that name

A name is looked up from the top.  Behind the entries stand the variables copied into
the environment, which lie after the copied continuations there.
-/

namespace CellLisp

/-- One entry of the modelled stack. -/
inductive Entry where
  | var (name : Value)
  | env
  | frame
  | temp
  | dynamic (name : Value)
  deriving DecidableEq, Inhabited, Repr

/-- Stack slots of an entry. -/
def Entry.slots : Entry → Nat
  | .frame => 3
  | .dynamic _ => 0
  | _ => 1

/-- Where a variable is found. -/
inductive VarPlace where
  /-- So many slots below the top. -/
  | stack (offset : Nat)
  /-- In the environment so many slots below the top. -/
  | env (offset index : Nat)
  | global
  deriving DecidableEq, Inhabited, Repr

/-- Where a continuation is found. -/
inductive ContPlace where
  /-- So many below the newest. -/
  | stack (offset : Nat)
  | env (offset index : Nat)
  deriving DecidableEq, Inhabited, Repr

/-- Scope of a procedure body. -/
structure Scope where
  /-- Code being built. -/
  code : Value
  /-- Modelled stack, the top first. -/
  entries : List Entry
  /-- Continuations established in this body, the newest first. -/
  conts : List Value
  /-- Variables copied into the environment. -/
  closedVars : List Value
  /-- Continuations copied into the environment, in front of the variables. -/
  closedConts : List Value
  deriving Inhabited, Repr

namespace Scope

/-- A scope without continuations or copies. -/
def new (code : Value) (entries : List Entry) : Scope := ⟨code, entries, [], [], []⟩

/-- Slots of the modelled stack. -/
def depth (s : Scope) : Nat := s.entries.foldr (fun e n => e.slots + n) 0

/-- How far below the top a name is found among entries, unless it is hidden or not
there. -/
def findEntry (name : Value) : Nat → List Entry → Option VarPlace
  | _, [] => none
  | offset, .var x :: rest =>
    if x = name then some (.stack offset) else findEntry name (offset + 1) rest
  | offset, .dynamic x :: rest => if x = name then some .global else findEntry name offset rest
  | offset, .frame :: rest => findEntry name (offset + 3) rest
  | offset, .env :: rest | offset, .temp :: rest => findEntry name (offset + 1) rest

/-- How far below the top the environment lies. -/
def findEnv : Nat → List Entry → Option Nat
  | _, [] => none
  | offset, e :: rest => if e = .env then some offset else findEnv (offset + e.slots) rest

/-- Where the environment lies. -/
def envOffset (s : Scope) : Option Nat := findEnv 0 s.entries

/-- Where a variable is found. -/
def resolve (s : Scope) (name : Value) : VarPlace :=
  match findEntry name 0 s.entries with
  | some place => place
  | none =>
    match s.closedVars.idxOf? name with
    | none => .global
    | some i =>
      match s.envOffset with
      | some offset => .env offset (s.closedConts.length + i)
      | none => .global

/-- Whether a name is bound lexically. -/
def binds (s : Scope) (name : Value) : Bool := s.resolve name != .global

/-- Where a continuation is found. -/
def resolveCont (s : Scope) (name : Value) : Option ContPlace :=
  match s.conts.idxOf? name with
  | some i => some (.stack i)
  | none =>
    match s.closedConts.idxOf? name, s.envOffset with
    | some i, some offset => some (.env offset i)
    | _, _ => none

/-- Pushes an entry. -/
def push (s : Scope) (e : Entry) : Scope := { s with entries := e :: s.entries }

/-- Drops the top `n` entries. -/
def drop (s : Scope) (n : Nat) : Scope := { s with entries := s.entries.drop n }

/-- Turns the top entries into variables: the last name names the top. -/
def nameTop (s : Scope) (names : List Value) : Scope :=
  { s with entries := (names.map Entry.var).reverse ++ s.entries.drop names.length }

end Scope
end CellLisp
