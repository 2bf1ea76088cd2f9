import CellLisp.Symbols

/-!
# `CellLisp.Stream` — reading and writing bytes

A stream is a buffer of its own, to which bytes are written at the end and from which
they are read from the start, or an endpoint at the console or in a file.

    endpoint           read                     write
    standard input     next byte                refused
    standard output    refused                  at the end
    file for reading   at its position          bad descriptor
    file for writing   bad descriptor           at its position
    file for append    bad descriptor           at the end
    directory          is a directory           bad descriptor
    closed             refused                  refused

Writing no bytes to a file or directory always succeeds.
-/

namespace CellLisp

namespace Endpoint

/-- Reads a byte, `none` at the end. -/
def read (w : World) : Endpoint → Except Error (Option UInt8 × Endpoint) × World
  | .standardInput =>
    let (b, w) := w.readByte
    (.ok (b, .standardInput), w)
  | .file name .read pos =>
    match ((w.file? name).getD #[])[pos]? with
    | some b => (.ok (some b, .file name .read (pos + 1)), w)
    | none => (.ok (none, .file name .read pos), w)
  | .file _ _ _ => (.error (.io (.system .badDescriptor)), w)
  | .directory => (.error (.io (.system .isDirectory)), w)
  | .closed => (.error .closedStream, w)
  | .standardOutput => (.error (.io .notReadable), w)

/-- Writes bytes. -/
def write (w : World) (bytes : Array UInt8) : Endpoint → Except Error Endpoint × World
  | .standardOutput => (.ok .standardOutput, w.write ⟨bytes⟩)
  | .standardInput => (.error (.io .inputNotWritable), w)
  | .closed => (.error .closedStream, w)
  | .directory =>
    (if bytes.isEmpty then .ok .directory else .error (.io (.system .badDescriptor)), w)
  | .file name mode pos =>
    if bytes.isEmpty then (.ok (.file name mode pos), w)
    else
      let old := (w.file? name).getD #[]
      match mode with
      | .read => (.error (.io (.system .badDescriptor)), w)
      | .write =>
        (.ok (.file name .write (pos + bytes.size)), w.putFile name (World.overwrite old pos bytes))
      | .append =>
        (.ok (.file name .append (old.size + bytes.size)), w.putFile name (old ++ bytes))

end Endpoint

/-- Bytes that a new buffer has room for. -/
def streamRoom : Nat := 32

/-- A new stream over an empty buffer. -/
def makeStringStream : Act Value := do
  let data ← allocPayload streamRoom (.bytes #[])
  allocCell (.stringStream { data, pos := 0, isOpen := true })

/-- A new stream at an endpoint. -/
def makeFileStream (endpoint : Endpoint) : Act Value := allocCell (.fileStream endpoint)

/-- The mode that a word names. -/
def FileMode.ofString? (mode : String) : Option FileMode :=
  match mode with
  | "read" => some .read
  | "write" => some .write
  | "append" => some .append
  | _ => none

/-- Opens a file. -/
def openFile (path mode : String) : Act Value := do
  match FileMode.ofString? mode with
  | none => fail (.io (.unknownMode mode))
  | some m =>
    match ← onWorld fun w => w.openFile path m with
    | .error cause => fail (.io (.cannotOpen path cause))
    | .ok endpoint =>
      logLine .debug ("opened " ++ path ++ " for " ++ mode)
      makeFileStream endpoint

/-- A stream's cell, either kind. -/
inductive StreamCell where
  | buffer (index : Nat) (record : StringStream)
  | file (index : Nat) (endpoint : Endpoint)

/-- The stream that a value is, if it is one. -/
def Heap.stream? (h : Heap) (v : Value) : Option StreamCell :=
  match v.object? with
  | some i =>
    match h.cell i with
    | .stringStream s => some (.buffer i s)
    | .fileStream e => some (.file i e)
    | _ => none
  | none => none

/-- The stream that a value is. -/
def streamOf (v : Value) : Act StreamCell := do
  match ← gets fun s => s.heap.stream? v with
  | some c => return c
  | none => typeError .stream v

/-- Bytes in a buffer. -/
def Heap.buffered (h : Heap) (r : StringStream) : Array UInt8 := (h.payload r.data).octets

/-- Appends bytes to a payload. -/
def Payload.appendBytes (bytes : Array UInt8) : Payload → Payload
  | .bytes old => .bytes (old ++ bytes)
  | _ => .bytes bytes

/-- Makes room in a buffer for `extra` more bytes: the block it is in from now on. -/
def growBuffer (r : StringStream) (extra : Nat) : Act Block := do
  let length ← gets fun s => (s.heap.buffered r).size
  let capacity ← gets fun s => s.heap.arena.capacity r.data
  if capacity < length + extra then
    let grown ← allocBlock (max (capacity * 2) (length + extra))
    modifyHeap fun h => h.putPayload grown (h.payload r.data)
    return grown
  else return r.data

/-- Writes bytes to a stream, which must be reachable. -/
def writeBytes (stream : Value) (bytes : Array UInt8) : Act Unit := do
  match ← streamOf stream with
  | .buffer index r =>
    if !r.isOpen then fail .closedStream
    let data ← growBuffer r bytes.size
    modifyHeap fun h => (h.modifyPayload data (.appendBytes bytes)).set index
      (.stringStream { r with data })
  | .file index endpoint =>
    match ← onWorld fun w => endpoint.write w bytes with
    | .error cause => fail cause
    | .ok endpoint => modifyHeap (·.set index (.fileStream endpoint))

/-- Writes a text to a stream. -/
def writeText (stream : Value) (text : String) : Act Unit := writeBytes stream text.toUTF8.data

/-- Reads a byte from a stream, `none` at its end. -/
def readByte (stream : Value) : Act (Option UInt8) := do
  match ← streamOf stream with
  | .buffer index r =>
    if !r.isOpen then fail .closedStream
    match ← gets fun s => (s.heap.buffered r)[r.pos]? with
    | none => return none
    | some b =>
      modifyHeap (·.set index (.stringStream { r with pos := r.pos + 1 }))
      return some b
  | .file index endpoint =>
    match ← onWorld fun w => endpoint.read w with
    | .error cause => fail cause
    | .ok (b, endpoint) =>
      modifyHeap (·.set index (.fileStream endpoint))
      return b

/-- Reads `n` more bytes of a character. -/
def readTails (stream : Value) : Nat → Act (List UInt8)
  | 0 => return []
  | n + 1 => do
    match ← readByte stream with
    | none => fail (.io .truncatedUtf8)
    | some b => return b :: (← readTails stream n)

/-- Octets of the character that a lead octet begins, by its leading one bits. -/
def charWidth? (lead : UInt8) : Option Nat :=
  match Utf8.leadingOnes lead with
  | 0 => some 1
  | 2 => some 2
  | 3 => some 3
  | 4 => some 4
  | _ => none

/-- Reads a character from a stream, `none` at its end. -/
def readChar (stream : Value) : Act (Option Char) := do
  match ← readByte stream with
  | none => return none
  | some lead =>
    match charWidth? lead with
    | none => fail (.io .invalidUtf8)
    | some width =>
      let tails ← readTails stream (width - 1)
      match Utf8.decodeChars? [] (lead :: tails) with
      | some (c :: _) => return some c
      | _ => fail (.io .invalidUtf8)

/-- Closes a stream. -/
def closeStream (stream : Value) : Act Unit := do
  match ← streamOf stream with
  | .buffer index r => modifyHeap (·.set index (.stringStream { r with isOpen := false }))
  | .file index _ => modifyHeap (·.set index (.fileStream .closed))

/-- A new string of all that was written to a buffer. -/
def streamString (stream : Value) : Act Value := do
  match ← streamOf stream with
  | .buffer _ r => makeString (Utf8.lossy (← gets fun s => s.heap.buffered r).toList)
  | .file _ _ => typeError .stringStream stream

/-- Global value of a well-known symbol. -/
def globalOf (symbol : Value) : Act Value := do
  match ← gets fun s => s.heap.global? symbol with
  | some v => return v
  | none => fail (.unbound (← gets fun s => s.heap.symbolName symbol))

/-- The stream to write to by default. -/
def standardOutput : Act Value := do globalOf (← gets (·.known.standardOutput))

/-- The stream to read from by default. -/
def standardInput : Act Value := do globalOf (← gets (·.known.standardInput))

end CellLisp
