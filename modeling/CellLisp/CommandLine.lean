import CellLisp.Repl

/-!
# `CellLisp.CommandLine` — the program

    arguments          effect
    none, or repl      the prompt
    file NAME          evaluates a source file and prints its last value
    -v anywhere        also shows the log lines of the lowest level
    anything else      the usage text, exit code 2

The console shows output and log lines in the order in which they were written.  A log
line takes the rest of its line; if its text has further lines, they run on in the output
(`console`).
-/

namespace CellLisp.CommandLine

/-- What a run of the program leaves. -/
structure Result where
  /-- Exit code. -/
  code : Nat
  /-- Text on the error output. -/
  errors : String
  /-- Console, log and files. -/
  world : World

/-- How the program is used. -/
def usage : String := "usage: yuki [-v] [repl | file <filename>]"

/-- Exit code after a fatal failure. -/
def fatalCode : Nat := 101

/-! ## The console -/

/-- Log lines that are shown. -/
def shown (verbose : Bool) (log : Array LogLine) : Array LogLine :=
  if verbose then log else log.filter fun l => l.level != .debug

/-- The first line of a text, and the text behind its line feed, if there is one. -/
def splitFirst (text : String) : String × Option String :=
  match text.splitOn "\n" with
  | [] => (text, none)
  | [line] => (line, none)
  | line :: rest => (line, some (String.intercalate "\n" rest))

/-- One item on the console. -/
inductive Item where
  | output (bytes : ByteArray)
  | log (level : LogLevel) (line : String)

/-- A log line as items: its first line, and the others as output. -/
def itemsOfLine (l : LogLine) : List Item :=
  match splitFirst l.text with
  | (line, none) => [.log l.level line]
  | (line, some rest) => [.log l.level line, .output (rest ++ "\n").toUTF8]

/-- The output from a place on with log lines in it. -/
def consoleFrom (output : ByteArray) (place : Nat) : List LogLine → List Item
  | [] => [.output (output.extract place output.size)]
  | l :: rest =>
    .output (output.extract place l.place) :: (itemsOfLine l ++ consoleFrom output l.place rest)

/-- All that the console shows, in order. -/
def Result.console (r : Result) : List Item := consoleFrom r.world.output 0 r.world.log.toList

/-- The text on the console without its log lines.  Each ill-formed run shows as
U+FFFD; a character cut in two by a log line is two of them. -/
def Result.output (r : Result) : String :=
  String.join (r.console.filterMap fun
    | .output bytes => some (Utf8.lossy bytes.toList)
    | .log _ _ => none)

/-- The log lines on the console, each with its level. -/
def Result.logLines (r : Result) : List String :=
  r.console.filterMap fun
    | .output _ => none
    | .log level line => some (level.label ++ " " ++ line)

/-! ## Running -/

/-- Runs an action from a state in which nothing has been allocated. -/
def perform {α : Type} (world : World) (act : Act α) (onOk : α → World → Result)
    (onError : Error → World → Result) : Result :=
  match act.run (.initial interactiveConfig world) with
  | .ok a s => onOk a s.world
  | .error (.error cause) s => onError cause s.world
  | .error (.fatal cause) s => ⟨fatalCode, cause.message ++ "\n", s.world⟩

/-- The prompt. -/
def prompt (world : World) : Result :=
  perform world repl (fun _ w => ⟨0, "", w⟩) fun _ w => ⟨0, "", w⟩

/-- Evaluates a source file. -/
def file (world : World) (path : String) : Result :=
  perform world (runFile path) (fun text w => ⟨0, "", w.print (text ++ "\n")⟩) fun cause w =>
    ⟨1, "", w.addLog .error (path ++ ": " ++ cause.message)⟩

/-- What the arguments ask for, `-v` left out. -/
def dispatch (world : World) : List String → Result
  | [] => prompt world
  | ["repl"] => prompt world
  | ["file", path] => file world path
  | _ => ⟨2, usage ++ "\n", world⟩

/-- The program. -/
def run (args : List String) (world : World) : Result :=
  let verbose := args.contains "-v"
  let r := dispatch world (args.filter (· != "-v"))
  { r with world := { r.world with log := shown verbose r.world.log } }

end CellLisp.CommandLine
