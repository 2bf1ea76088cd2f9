import CellLisp.Error
import CellLisp.Heap.Cell
import CellLisp.Text.Utf8

/-!
# `CellLisp.World` — console, log and files

Everything outside a running program is data: the bytes still to come on standard
input, the bytes written to standard output, the log, and the files of the
working directory.

    path                    found as
    "", a missing name      nothing
    ".", "/", ".." …        a directory
    a name in the directory a file
    name/…                  not a directory, if the name is a file
-/

namespace CellLisp

/-- Weight of a log line. -/
inductive LogLevel where
  | debug
  | warn
  | error
  deriving DecidableEq, Inhabited, Repr

/-- Name of a level in printed logs. -/
def LogLevel.label : LogLevel → String
  | .debug => "DEBUG"
  | .warn => "WARN"
  | .error => "ERROR"

/-- A line of the log. -/
structure LogLine where
  /-- Its weight. -/
  level : LogLevel
  /-- Its text. -/
  text : String
  /-- Bytes on standard output when it was written. -/
  place : Nat
  deriving DecidableEq, Inhabited, Repr

/-- A log line with its level. -/
def LogLine.render (l : LogLine) : String := l.level.label ++ " " ++ l.text

/-- Console, log and files. -/
structure World where
  /-- Bytes still to come on standard input. -/
  input : List UInt8
  /-- Bytes written to standard output. -/
  output : ByteArray
  /-- Log lines, oldest first. -/
  log : Array LogLine
  /-- Files of the working directory. -/
  files : List (String × Array UInt8)
  deriving Inhabited

namespace World

/-! ## Console -/

/-- Writes bytes to standard output. -/
def write (w : World) (bytes : ByteArray) : World := { w with output := w.output ++ bytes }

/-- Writes a text to standard output. -/
def print (w : World) (text : String) : World := w.write text.toUTF8

/-- Adds a line to the log. -/
def addLog (w : World) (level : LogLevel) (text : String) : World :=
  { w with log := w.log.push ⟨level, text, w.output.size⟩ }

/-- Takes one byte of standard input. -/
def readByte (w : World) : Option UInt8 × World :=
  match w.input with
  | [] => (none, w)
  | b :: bs => (some b, { w with input := bs })

/-- Splits off a line with its line feed, or all that is left. -/
def splitLine : List UInt8 → List UInt8 → List UInt8 × List UInt8
  | acc, [] => (acc.reverse, [])
  | acc, b :: bs => if b = 10 then ((b :: acc).reverse, bs) else splitLine (b :: acc) bs

/-- What reading a line finds. -/
inductive Line where
  | text (line : String)
  | endOfInput
  /-- The line was taken but is not UTF-8. -/
  | malformed

/-- Takes a line of standard input. -/
def readLine (w : World) : Line × World :=
  match w.input with
  | [] => (.endOfInput, w)
  | bytes =>
    let (line, rest) := splitLine [] bytes
    let found := match Utf8.decode? line with
      | some text => .text text
      | none => .malformed
    (found, { w with input := rest })

/-! ## Files -/

/-- What a path leads to. -/
inductive Target where
  | file (name : String)
  | directory
  /-- A name in the working directory that no file has. -/
  | vacant (name : String)
  | fault (cause : OsError)
  deriving DecidableEq, Repr

/-- Contents of a file. -/
def file? (w : World) (name : String) : Option (Array UInt8) :=
  (w.files.find? fun f => f.1 == name).map (·.2)

/-- Gives a file new contents, creating it if need be. -/
def putFile (w : World) (name : String) (bytes : Array UInt8) : World :=
  if w.files.any fun f => f.1 == name then
    { w with files := w.files.map fun f => if f.1 == name then (name, bytes) else f }
  else { w with files := w.files ++ [(name, bytes)] }

/-- Greatest length of a file name, in bytes. -/
def nameLimit : Nat := 255

/-- Least length of a path that is too long, in bytes. -/
def pathLimit : Nat := 4096

/-- Follows the parts of a path from the working directory, or from a directory
`outside` it, of which nothing but the directories above it is known.  A slash
behind the last name asks for a directory, which cannot be created: that is
refused before the name is looked up or its length is checked. -/
def follow (w : World) (creating : Bool) : (outside : Bool) → List String → Target
  | _, [] => .directory
  | outside, "" :: rest => w.follow creating outside rest
  | outside, "." :: rest => w.follow creating outside rest
  | _, ".." :: rest => w.follow creating true rest
  | outside, name :: rest =>
    if creating && !rest.isEmpty && rest.all (· == "") then .fault .isDirectory
    else if nameLimit < name.utf8ByteSize then .fault .nameTooLong
    else if outside then .fault .noEntry
    else match w.file? name, rest with
      | some _, [] => .file name
      | none, [] => .vacant name
      | some _, _ => .fault .notDirectory
      | none, _ => .fault .noEntry

/-- What a path leads to, for reading or for `creating`. -/
def resolve (w : World) (creating : Bool) (path : String) : Target :=
  if path.toList.contains (Char.ofNat 0) then .fault .nulInName
  else if path.isEmpty then .fault .noEntry
  else if pathLimit ≤ path.utf8ByteSize then .fault .nameTooLong
  else w.follow creating (path.startsWith "/") (path.splitOn "/")

/-- Opens a path. -/
def openFile (w : World) (path : String) (mode : FileMode) : Except OsError Endpoint × World :=
  match w.resolve (mode != .read) path, mode with
  | .fault cause, _ => (.error cause, w)
  | .directory, .read => (.ok .directory, w)
  | .directory, _ => (.error .isDirectory, w)
  | .vacant _, .read => (.error .noEntry, w)
  | .vacant name, mode => (.ok (.file name mode 0), w.putFile name #[])
  | .file name, .write => (.ok (.file name .write 0), w.putFile name #[])
  | .file name, mode => (.ok (.file name mode 0), w)

/-- All bytes of a file. -/
def readFile (w : World) (path : String) : Except OsError (List UInt8) :=
  match (w.openFile path .read).1 with
  | .ok (.file name _ _) => .ok ((w.file? name).getD #[]).toList
  | .ok _ => .error .isDirectory
  | .error cause => .error cause

/-- `old` with `bytes` in it from `pos` on, zeros filling any gap. -/
def overwrite (old : Array UInt8) (pos : Nat) (bytes : Array UInt8) : Array UInt8 :=
  old.extract 0 pos ++ Array.replicate (pos - old.size) 0 ++ bytes
    ++ old.extract (pos + bytes.size) old.size

end World
end CellLisp
