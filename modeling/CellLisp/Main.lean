import CellLisp.CommandLine

/-!
# `CellLisp.Main` — the command line

Reads what the program may need, runs it as a function of that, and carries out what it
leaves: console, changed files and the exit code.  The files that a source may need are
those that it names in a string.
-/

namespace CellLisp.CommandLine

/-- The strings in a source text. -/
def stringsIn (bytes : Array UInt8) : List String :=
  match Utf8.decode? bytes.toList with
  | none => []
  | some text => (Token.ofString text).filterMap fun
      | .text s => some s
      | _ => none

/-- The files among some names. -/
def loadFiles (names : List String) : IO (List (String × Array UInt8)) :=
  names.eraseDups.filterMapM fun (name : String) => do
    try
      let bytes ← IO.FS.readBinFile name
      return some (name, bytes.data)
    catch _ => return none

/-- The source file among the arguments. -/
def sourceName : List String → List String
  | ["file", name] => [name]
  | _ => []

/-- Writes files whose contents changed. -/
def storeFiles (before after : List (String × Array UInt8)) : IO Unit :=
  after.forM fun (name, bytes) => do
    if before.lookup name != some bytes then IO.FS.writeBinFile name ⟨bytes⟩

/-- Shows an item on the console. -/
def showItem (output : IO.FS.Stream) : Item → IO Unit
  | .output bytes => output.write bytes
  | .log level line => output.putStrLn (level.label ++ " " ++ line)

end CellLisp.CommandLine

open CellLisp CommandLine in
/-- Runs the program on the arguments and standard input of the process. -/
def main (args : List String) : IO UInt32 := do
  let input ← (← IO.getStdin).readToEnd
  let typed := input.toUTF8.data
  let sources ← loadFiles (sourceName (args.filter (· != "-v")))
  let named := (typed :: sources.map (·.2)).flatMap stringsIn
  let files := sources ++ (← loadFiles named)
  let r := run args { input := typed.toList, output := .empty, log := #[], files }
  let output ← IO.getStdout
  r.console.forM (showItem output)
  IO.eprint r.errors
  storeFiles files r.world.files
  return UInt32.ofNat r.code
