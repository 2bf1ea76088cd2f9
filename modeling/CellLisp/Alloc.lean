import CellLisp.State

/-!
# `CellLisp.Alloc` — taking cells and blocks, and keeping values alive

An allocation may collect first, and a collection keeps only what it can reach: the
symbol table, the protected values, the machine, and what the cell being placed
refers to.  Code that holds a value across an allocation protects it.

    allocCell     collects when few cells are free; fatal when none is left
    allocBlock    collects when no block fits; fatal when none fits then
    protect       adds a protected value; fatal beyond the capacity
    withRoots     drops what an action left protected, however it ends
-/

namespace CellLisp

/-- The values that a collection starts from. -/
def State.rootValues (s : State) : List Value :=
  let m := s.machine
  s.symbols.buckets.toList ++ s.roots.toList ++ [s.known.halt, s.known.makeClosure, m.val, m.code]
    ++ m.native.toList ++ m.stack.toList
    ++ m.dyns.toList.flatMap (fun b => b.symbol :: b.old.toList) ++ m.conts.toList

/-- Log text of a collection. -/
def collectionText (number : Nat) (r : Heap.Reclaimed) (free : Nat) : String :=
  "gc #" ++ toString number ++ ": " ++ toString r.cells ++ " cells and " ++ toString r.blocks
    ++ " blocks reclaimed, " ++ toString free ++ " cells free"

/-- The state after a collection that also keeps what `pending` refers to. -/
def State.collect (s : State) (pending : Option Cell) : State :=
  let roots := s.rootValues
  let (heap, reclaimed) := s.heap.collect roots pending
  let text := collectionText heap.collections reclaimed heap.freeCount
  { s with heap, world := s.world.addLog .debug text }

/-- Collects. -/
def collect : Act Unit := modify fun s => s.collect none

/-- Stops because a store is full after a collection. -/
def exhausted {α : Type} (what : String) (cause : Fatal) : Act α := do
  logLine .error (what ++ " exhausted after collection")
  halt cause

/-- Places a cell in the pool. -/
def allocCell (c : Cell) : Act Value := do
  if (← gets fun s => s.heap.isLow) then modify fun s => s.collect (some c)
  match ← modifyGet fun s =>
      let (place, heap) := s.heap.take c
      (place, { s with heap }) with
  | some index => return .ref c.tag index
  | none => exhausted "cell pool" .cellsExhausted

/-- Claims a blank block if one fits. -/
def claimBlock (bytes : Nat) : Act (Option Block) :=
  modifyGet fun s =>
    let (block, heap) := s.heap.claim bytes
    (block, { s with heap })

/-- Claims a blank block for a number of bytes. -/
def allocBlock (bytes : Nat) : Act Block := do
  match ← claimBlock bytes with
  | some block => return block
  | none =>
    collect
    match ← claimBlock bytes with
    | some block => return block
    | none => exhausted "payload heap" .payloadExhausted

/-- Claims a block with contents. -/
def allocPayload (bytes : Nat) (p : Payload) : Act Block := do
  let block ← allocBlock bytes
  modifyHeap (·.putPayload block p)
  return block

/-- A new pair. -/
def cons (head tail : Value) : Act Value := allocCell (.pair head tail)

/-- A new string. -/
def makeString (text : String) : Act Value := do
  let data ← allocPayload text.utf8ByteSize (.text text)
  allocCell (.string data)

/-- A new array. -/
def makeArray (items : Array Value) : Act Value := do
  let data ← allocPayload (8 * items.size) (.values items)
  allocCell (.array data)

/-! ## Protected values -/

/-- Protects a value; yields its place. -/
def protect (v : Value) : Act Nat := do
  let s ← get
  if s.config.rootCapacity ≤ s.roots.size then
    logLine .error "root stack overflow"
    halt .rootsExhausted
  else
    let place := s.roots.size
    set { s with roots := s.roots.push v }
    return place

/-- Replaces the protected value at a place. -/
def setRoot (place : Nat) (v : Value) : Act Unit :=
  modify fun s => { s with roots := s.roots.setIfInBounds place v }

/-- Gives up the newest `count` protected values. -/
def unprotect (count : Nat) : Act Unit :=
  modify fun s => { s with roots := s.roots.shrink (s.roots.size - count) }

/-- Runs an action and drops what it left protected, however it ends. -/
@[inline] def withRoots {α : Type} (act : Act α) : Act α := fun s =>
  let depth := s.roots.size
  match act s with
  | .ok a s => .ok a { s with roots := s.roots.shrink depth }
  | .error e s => .error e { s with roots := s.roots.shrink depth }

/-- Puts the protected values at `base` and above in front of `tail`, taking them
from the top: `n` of them are still to come. -/
def consRoots (base : Nat) : Nat → Value → Act Value
  | 0, tail => return tail
  | n + 1, tail => do
    let head ← gets fun s => s.roots.getD (base + n) .nil
    consRoots base n (← cons head tail)

/-- A list of the protected values at `base` and above, ending in `tail`. -/
def listFromRoots (base : Nat) (tail : Value) : Act Value := do
  let n ← gets fun s => s.roots.size - base
  consRoots base n tail

end CellLisp
