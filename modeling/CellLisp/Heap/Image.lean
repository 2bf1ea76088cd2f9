import CellLisp.Heap.Cell

/-!
# `CellLisp.Heap.Image` — contents as words

A block is a run of words of 64 bits, and whatever it holds has an image in them.

    contents       image
    nil            1
    integer i      16 i + 2, in two's complement
    float          2^32 times its bits, plus 16 times the spare ones, plus 3
    reference      16 times the index, plus the number of its tag
    stray word     itself
    instruction    2^16 times the modifier, plus the number of the operation;
                   then the image of the operand
    text, bytes    eight bytes to a word, the first one lowest
    header         the bytes of the block, plus 2^32 while it is claimed

The rest of a block behind the image of its contents is zero.  Other modules work on the
contents themselves: images matter to a machine that was led away from the code it runs
and takes for instructions whatever lies there.
-/

namespace CellLisp

/-! ## Values -/

/-- Number of a tag in the image of a reference. -/
def Tag.number : Tag → Nat
  | .object => 0
  | .pair => 1
  | .symbol => 4
  | .native => 5
  | .closure => 6
  | .bytecode => 7

/-- Word of a value. -/
def Value.image : Value → Nat
  | .nil => 1
  | .int i => ((16 * i + 2) % 0x10000000000000000).toNat
  | .float x spare => 0x100000000 * x.bits.toNat + 16 * spare + 3
  | .ref tag index => 16 * index + tag.number
  | .stray word => word

/-- Value of a word. -/
def Value.ofImage (word : Nat) : Value :=
  let index := word / 16
  match word % 16 with
  | 0 => .ref .object index
  | 1 => if index = 0 then .nil else .ref .pair index
  | 2 => .ofInt index
  | 3 => .float ⟨UInt32.ofNat (word / 0x100000000)⟩ (index % 0x10000000)
  | 4 => .ref .symbol index
  | 5 => .ref .native index
  | 6 => .ref .closure index
  | 7 => .ref .bytecode index
  | _ => .stray word

@[simp] theorem Value.ofImage_image_nil : Value.ofImage Value.nil.image = .nil := rfl

/-- The image of an integer of 60 bits given as a natural. -/
theorem Value.image_ofInt_natCast {n : Nat} (h : n < 0x1000000000000000) :
    (Value.ofInt n).image = 16 * n + 2 := by
  simp only [Value.ofInt, Value.image, Int.bmod]
  split <;> omega

/-- No word is lost by being taken for a value. -/
theorem Value.image_ofImage {word : Nat} (h : word < 0x10000000000000000) :
    (Value.ofImage word).image = word := by
  simp only [Value.ofImage]
  split
  case h_2 =>
    split
    · simp only [Value.image]; omega
    · simp only [Value.image, Tag.number]; omega
  case h_3 => rw [Value.image_ofInt_natCast (by omega)]; omega
  case h_4 =>
    have hbits : (UInt32.ofNat (word / 0x100000000)).toNat = word / 0x100000000 :=
      UInt32.toNat_ofNat_of_lt (by simp only [UInt32.size]; omega)
    simp only [Value.image, hbits]; omega
  all_goals simp only [Value.image, Tag.number]
  all_goals omega

/-- A reference is read back from its word. -/
theorem Value.ofImage_image_ref (tag : Tag) {index : Nat} (h : index ≠ 0) :
    Value.ofImage (Value.ref tag index).image = .ref tag index := by
  have hlt : tag.number < 16 := by cases tag <;> decide
  have hdiv : (16 * index + tag.number) / 16 = index := by omega
  have hmod : (16 * index + tag.number) % 16 = tag.number := by omega
  simp only [Value.ofImage, Value.image, hdiv, hmod]
  cases tag <;> simp [Tag.number, h]

/-! ## Instructions -/

/-- All operations, each at its number. -/
def Opcode.all : List Opcode :=
  [.halt, .const, .push, .drop, .stackRef, .stackSet, .envRef, .envSet, .globalRef, .globalSet,
   .jump, .jumpIfFalse, .call, .tailCall, .ret, .varargs, .makeArray, .withCont, .popCont,
   .contRef, .exit, .envExit, .dynBind, .dynUnbind]

/-- Number of an operation. -/
def Opcode.number (op : Opcode) : Nat := Opcode.all.idxOf op

/-- The operation with a number. -/
def Opcode.ofNumber? (n : Nat) : Option Opcode := Opcode.all[n]?

@[simp] theorem Opcode.ofNumber?_number (op : Opcode) : Opcode.ofNumber? op.number = some op := by
  cases op <;> rfl

/-- First word of an instruction. -/
def Instr.image (i : Instr) : Nat := 0x10000 * i.modifier + i.op.number

/-- The instruction of two words, if the first names an operation. -/
def Instr.ofImage? (word operand : Nat) : Option Instr :=
  (Opcode.ofNumber? (word % 0x100)).map fun op =>
    ⟨op, word / 0x10000 % 0x10000, Value.ofImage operand⟩

/-! ## Payloads -/

/-- The `n` bytes from place `i` on as one number, the first one lowest. -/
def littleEndian (bytes : Array UInt8) (i : Nat) : Nat → Nat
  | 0 => 0
  | n + 1 => (bytes.getD i 0).toNat + 0x100 * littleEndian bytes (i + 1) n

/-- Bytes packed into words, eight to each. -/
def packBytes (bytes : Array UInt8) : Array Nat :=
  Array.ofFn fun k : Fin ((bytes.size + 7) / 8) => littleEndian bytes (8 * k) 8

/-- Words of a payload, without the zeros behind it. -/
def Payload.image : Payload → Array Nat
  | .blank => #[]
  | .text s => packBytes s.toUTF8.data
  | .bytes bs => packBytes bs
  | .values vs => vs.map Value.image
  | .code is => is.foldl (fun acc i => (acc.push i.image).push i.operand.image) #[]

end CellLisp
