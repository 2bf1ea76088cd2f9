import CellLisp.Alloc
import CellLisp.Object

/-!
# `CellLisp.Symbols` — the table of symbols

A symbol is an ordinary cell.  The interned ones are found through chains, one per
bucket, linked through the symbols themselves; the bucket of a name is its hash
modulo the number of buckets.

    hash        1, then for each byte: 33 times the hash so far plus the byte,
                in 32 bits
    intern      the symbol of a name, made on first use
    findSymbol? the same without making one
    makeSymbol  a symbol that no name leads to
-/

namespace CellLisp

/-- Hash of a name's bytes. -/
def hashName (bytes : List UInt8) : UInt32 :=
  bytes.foldl (fun acc b => acc + (acc <<< 5) + b.toUInt32) 1

namespace SymbolTable

/-- An empty table with at least one bucket. -/
def new (buckets : Nat) : SymbolTable := ⟨Array.replicate (max buckets 1) .nil, 0⟩

/-- Bucket of a hash. -/
def slot (t : SymbolTable) (hash : UInt32) : Nat := hash.toNat % t.buckets.size

/-- First symbol of a bucket, or nil. -/
def head (t : SymbolTable) (slot : Nat) : Value := t.buckets.getD slot .nil

/-- Puts a symbol in front of its chain. -/
def link (t : SymbolTable) (slot : Nat) (symbol : Value) : SymbolTable :=
  { t with buckets := t.buckets.setIfInBounds slot symbol, count := t.count + 1 }

end SymbolTable

/-- The symbol with a name in the chain from `v`, among the next `n`. -/
def Heap.findInChain (h : Heap) (hash : UInt32) (name : String) : Nat → Value → Option Value
  | 0, _ => none
  | n + 1, v =>
    if !v.isSymbol then none
    else match h.symbol? v with
      | none => none
      | some s =>
        if s.hash == hash && h.text? s.name == some name then some v
        else h.findInChain hash name n s.next

/-- The interned symbol of a name, if there is one. -/
def State.findSymbol? (s : State) (name : String) : Option Value :=
  let hash := hashName (Utf8.encode name)
  s.heap.findInChain hash name s.heap.cells.size (s.symbols.head (s.symbols.slot hash))

/-- A new symbol. -/
def newSymbol (name : String) (hash : UInt32) (next : Value) : Act Value := do
  let nameValue ← makeString name
  allocCell (.symbol
    { name := nameValue, hash, role := .plain, arity := none, declared := false, value := none,
      next })

/-- The symbol of a name. -/
def intern (name : String) : Act Value := do
  match ← gets (·.findSymbol? name) with
  | some v => return v
  | none =>
    let hash := hashName (Utf8.encode name)
    let slot ← gets (·.symbols.slot hash)
    let next ← gets (·.symbols.head slot)
    let v ← newSymbol name hash next
    modify fun s => { s with symbols := s.symbols.link slot v }
    return v

/-- A symbol outside the table. -/
def makeSymbol (name : String) : Act Value := newSymbol name (hashName (Utf8.encode name)) .nil

/-- Stops because a value is not what was expected. -/
def typeError {α : Type} (expected : Expected) (found : Value) : Act α := do
  fail (.type expected (← gets fun s => s.heap.print found))

/-- Changes the record of a symbol. -/
def updateSymbol (v : Value) (f : Symbol → Symbol) : Act Unit := modifyHeap (·.modifySymbol v f)

/-- Gives a symbol a global value. -/
def setGlobal (v value : Value) : Act Unit := updateSymbol v fun s => { s with value := some value }

/-- Records a declaration. -/
def declare (v : Value) (role : Role) (arity : Option Arity) : Act Unit := do
  if v.isSymbol then updateSymbol v fun s => { s with role, arity, declared := true }
  else typeError .symbol v

end CellLisp
