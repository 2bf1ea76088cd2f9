import CellLisp.Heap.Image

/-!
# `CellLisp.Heap.Arena` — the payload arena

The arena is a run of words of eight bytes.  It is tiled from its start by blocks,
each a header of one word and a positive number of payload words; behind the last
block it is untouched.

    claim      the lowest free block that is large enough, else a new block behind
               the last, else nothing; a remainder of three words or more is split off
    mark       notes that a block is to be kept
    release    blocks that are not marked become free, and a run of free blocks one;
               the others lose their marks

    word?      the word at an offset, whatever lies there

A block's place is the offset of its header, so the tiling is read off the headers
alone (`tiles`).  Words inside a block hold `Slot.inner`; contents are kept with the
header.  A released block keeps its words until it is claimed again, and so does a
header that was joined to the block before it: both are the arena's `residue`.
-/

namespace CellLisp

/-- Header of a block and its contents. -/
structure BlockRecord where
  /-- Payload words, the header apart. -/
  words : Nat
  /-- Whether it is claimed. -/
  used : Bool
  /-- Whether a collection has come upon it. -/
  marked : Bool
  /-- What it holds. -/
  payload : Payload
  deriving Inhabited, Repr

/-- Word of a header. -/
def BlockRecord.image (r : BlockRecord) : Nat :=
  8 * r.words + (if r.used then 0x100000000 else 0) + if r.marked then 0x200000000 else 0

/-- Whether a collection keeps the block. -/
def BlockRecord.isLive (r : BlockRecord) : Bool := r.used && r.marked

/-- One word of the arena. -/
inductive Slot where
  /-- A word inside a block. -/
  | inner
  /-- A block starts here. -/
  | header (record : BlockRecord)
  deriving Inhabited, Repr

/-- The payload arena. -/
structure Arena where
  /-- The words in use, from the start. -/
  slots : Array Slot
  /-- What the words inside free blocks were left at; zero past its end. -/
  residue : Array Nat
  /-- Words there are. -/
  limit : Nat
  deriving Inhabited, Repr

namespace Arena

/-- An arena of a number of bytes, nothing claimed. -/
def new (bytes : Nat) : Arena := ⟨#[], #[], bytes / 8⟩

/-- Words in use: the offset behind the last block. -/
def top (a : Arena) : Nat := a.slots.size

/-- Payload words for a request of a number of bytes: at least one. -/
def wordsFor (bytes : Nat) : Nat := max 1 ((bytes + 7) / 8)

/-- The block at an offset. -/
def record? (a : Arena) (offset : Nat) : Option BlockRecord :=
  match a.slots[offset]? with
  | some (.header r) => some r
  | _ => none

/-- The blocks from an offset on, with their offsets. -/
def tilesFrom (a : Arena) (offset : Nat) : List (Nat × BlockRecord) :=
  if h : offset < a.slots.size then
    match a.slots[offset] with
    | .inner => []
    | .header r => (offset, r) :: a.tilesFrom (offset + 1 + r.words)
  else []
  termination_by a.slots.size - offset

/-- All blocks in order, with their offsets. -/
def tiles (a : Arena) : List (Nat × BlockRecord) := a.tilesFrom 0

/-! ## Claiming -/

/-- Offset of the first free block at or behind `offset` with room for `need` words. -/
def firstFit? (a : Arena) (need offset : Nat) : Option Nat :=
  if h : offset < a.slots.size then
    match a.slots[offset] with
    | .inner => none
    | .header r =>
      if !r.used && need ≤ r.words then some offset
      else a.firstFit? need (offset + 1 + r.words)
  else none
  termination_by a.slots.size - offset

/-- Least surplus, in words, that is split off: a header and two words. -/
def splitAt : Nat := 3

/-- Takes a free block of `words` words at an offset for a request of `need`. -/
def occupy (slots : Array Slot) (offset words need : Nat) : Array Slot :=
  if splitAt ≤ words - need then
    (slots.setIfInBounds (offset + 1 + need) (.header ⟨words - need - 1, false, false, .blank⟩))
      |>.setIfInBounds offset (.header ⟨need, true, false, .blank⟩)
  else slots.setIfInBounds offset (.header ⟨words, true, false, .blank⟩)

/-- A new block behind the last. -/
def extend (slots : Array Slot) (need : Nat) : Array Slot :=
  slots.push (.header ⟨need, true, false, .blank⟩) ++ Array.replicate need .inner

/-- Claims a blank block for a number of bytes; nothing changes when none fits. -/
def claim (a : Arena) (bytes : Nat) : Option Block × Arena :=
  let need := wordsFor bytes
  match a.firstFit? need 0 with
  | some offset =>
    match a.record? offset with
    | some r => (some ⟨offset⟩, { a with slots := occupy a.slots offset r.words need })
    | none => (none, a)
  | none =>
    if a.limit < a.top + 1 + need then (none, a)
    else (some ⟨a.top⟩, { a with slots := extend a.slots need })

/-! ## Contents -/

/-- Bytes a block has room for. -/
def capacity (a : Arena) (b : Block) : Nat :=
  match a.record? b.offset with
  | some r => 8 * r.words
  | none => 0

/-- What a block holds. -/
def payload (a : Arena) (b : Block) : Payload :=
  match a.record? b.offset with
  | some r => r.payload
  | none => .blank

/-- Changes what a block holds. -/
def modify (a : Arena) (b : Block) (f : Payload → Payload) : Arena :=
  { a with
    slots := a.slots.modify b.offset fun
      | .inner => .inner
      | .header ⟨words, used, marked, payload⟩ => .header ⟨words, used, marked, f payload⟩ }

/-- Replaces what a block holds. -/
def put (a : Arena) (b : Block) (p : Payload) : Arena := a.modify b fun _ => p

/-! ## Releasing -/

/-- Marks a block. -/
def mark (a : Arena) (b : Block) : Arena :=
  { a with
    slots := a.slots.modify b.offset fun
      | .inner => .inner
      | .header r => .header { r with marked := true } }

/-- Adds the block of `words` words at `offset` to the free block at `start`, which
ends just before it. -/
def join (slots : Array Slot) (start offset words : Nat) : Array Slot :=
  (slots.setIfInBounds offset .inner).setIfInBounds start
    (.header ⟨offset + words - start, false, false, .blank⟩)

@[simp] theorem size_join (slots : Array Slot) (start offset words : Nat) :
    (join slots start offset words).size = slots.size := by
  simp [join]

/-- Frees every block that is not live, joins runs of free blocks and clears the marks.
`run` is the offset of the free block that ends just before `offset`, if one does, and
`freed` counts the blocks given up so far. -/
def releaseFrom (slots : Array Slot) (run : Option Nat) (freed offset : Nat) :
    Nat × Array Slot :=
  if h : offset < slots.size then
    match slots[offset] with
    | .inner => (freed, slots)
    | .header r =>
      if r.isLive then
        releaseFrom (slots.set offset (.header { r with marked := false })) none freed
          (offset + 1 + r.words)
      else
        let freed := if r.used then freed + 1 else freed
        match run with
        | none =>
          releaseFrom (slots.set offset (.header ⟨r.words, false, false, .blank⟩)) (some offset)
            freed (offset + 1 + r.words)
        | some start =>
          releaseFrom (join slots start offset r.words) (some start) freed
            (offset + 1 + r.words)
  else (freed, slots)
  termination_by slots.size - offset
  decreasing_by
    · simp only [Array.size_set]; omega
    · simp only [Array.size_set]; omega
    · simp only [size_join]; omega

/-- Puts `n` words, the `k`-th and following of an image, into a residue from `offset`
on; zeros behind the image. -/
def putWords (image residue : Array Nat) (offset k : Nat) : Nat → Array Nat
  | 0 => residue
  | n + 1 => putWords image (residue.setIfInBounds offset (image.getD k 0)) (offset + 1) (k + 1) n

/-- What a block at `offset` that is given up leaves behind.  A free block was given up
before, so that only its header counts. -/
def leave (residue : Array Nat) (offset : Nat) (r : BlockRecord) : Array Nat :=
  let residue := residue.setIfInBounds offset r.image
  if r.used then putWords r.payload.image residue (offset + 1) 0 r.words else residue

/-- What the blocks at or behind `offset` that are not live leave behind. -/
def leaveFrom (slots : Array Slot) (residue : Array Nat) (offset : Nat) : Array Nat :=
  if h : offset < slots.size then
    match slots[offset] with
    | .inner => residue
    | .header r =>
      leaveFrom slots (if r.isLive then residue else leave residue offset r)
        (offset + 1 + r.words)
  else residue
  termination_by slots.size - offset

/-- A residue with a word for each in use. -/
def residueInUse (a : Arena) : Array Nat :=
  a.residue ++ Array.replicate (a.top - a.residue.size) 0

/-- Frees every block that is not live and clears the marks; also how many there were. -/
def release (a : Arena) : Nat × Arena :=
  let residue := leaveFrom a.slots a.residueInUse 0
  let (freed, slots) := releaseFrom a.slots none 0 0
  (freed, { a with slots, residue })

/-! ## Words -/

/-- The block whose header stands last at or before an offset. -/
def blockAt? (a : Arena) : Nat → Option (Nat × BlockRecord)
  | 0 => (a.record? 0).map (0, ·)
  | n + 1 =>
    match a.record? (n + 1) with
    | some r => some (n + 1, r)
    | none => a.blockAt? n

/-- The word at an offset: a header, a word of a block's contents, what a released block
left behind, or zero behind the last block.  There is none past the end of the arena. -/
def word? (a : Arena) (offset : Nat) : Option Nat :=
  if a.limit ≤ offset then none
  else if a.top ≤ offset then some 0
  else (a.blockAt? offset).map fun (start, r) =>
    if offset = start then r.image
    else if r.used then r.payload.image.getD (offset - start - 1) 0
    else a.residue.getD offset 0

end Arena
end CellLisp
