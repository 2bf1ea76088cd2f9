import CellLisp.Session

/-!
# `CellLisp.Repl` — the prompt, and source files

Lines are collected until they hold complete forms, then evaluated.  A text is complete
when no list and no string is open at its end.

    prompt     > for a new form, . for a continued one
    value      printed on a line
    failure    ; returned to top level    after a run
               ; message                  otherwise
-/

namespace CellLisp

/-! ## Completeness -/

/-- Where the completeness check stands. -/
structure Balance where
  /-- Lists open. -/
  depth : Int := 0
  /-- Inside a string. -/
  inText : Bool := false
  /-- Inside a comment. -/
  inComment : Bool := false
  deriving DecidableEq, Inhabited, Repr

/-- One character. -/
def Balance.step (b : Balance) (c : Char) : Balance :=
  if b.inComment then { b with inComment := c != '\n' }
  else if b.inText then { b with inText := c != '"' }
  else if c = '(' then { b with depth := b.depth + 1 }
  else if c = ')' then { b with depth := b.depth - 1 }
  else if c = '"' then { b with inText := true }
  else if c = ';' then { b with inComment := true }
  else b

/-- Whether a text holds only complete forms. -/
def isComplete (text : String) : Bool :=
  let b := text.toList.foldl Balance.step {}
  b.depth ≤ 0 && !b.inText

/-! ## The prompt -/

/-- Writes a text on the console. -/
def printConsole (text : String) : Act Unit := modifyWorld (·.print text)

/-- Evaluates a text and prints its value or what went wrong. -/
def evalPrint (text : String) : Act Unit := do
  match ← attempt (evalText text) with
  | .ok v => printConsole ((← gets fun s => s.heap.print v) ++ "\n")
  | .error (.aborted _) => printConsole "; returned to top level\n"
  | .error cause => printConsole ("; " ++ cause.message ++ "\n")

/-- Reads and evaluates lines until the input ends, at most `n`; `pending` is the text
collected so far. -/
def replFrom : Nat → String → Act Unit
  | 0, _ => return ()
  | n + 1, pending => do
    printConsole (if pending.isEmpty then "> " else ". ")
    match ← onWorld World.readLine with
    | .text line =>
      let text := pending ++ line
      if isComplete text then
        evalPrint text
        replFrom n ""
      else replFrom n text
    | _ => return ()

/-- Configuration of interactive use. -/
def interactiveConfig : Config := { debugger := .interactive }

/-- The prompt, from a state in which nothing has been allocated. -/
def repl : Act Unit := do
  match ← attempt start with
  | .error cause => logLine .error ("runtime failed to start: " ++ cause.message)
  | .ok _ => replFrom ((← gets fun s => s.world.input.length) + 1) ""

/-! ## Source files -/

/-- The text of a source file. -/
def sourceText (path : String) : Act String := do
  match (← get).world.readFile path with
  | .error cause => fail (.io (.system cause))
  | .ok bytes =>
    match Utf8.decode? bytes with
    | some text => return text
    | none => fail (.io .sourceNotUtf8)

/-- Evaluates a source file, from a state in which nothing has been allocated; yields the
printed last value. -/
def runFile (path : String) : Act String := do
  let text ← sourceText path
  start
  let v ← evalText text
  gets fun s => s.heap.print v

end CellLisp
