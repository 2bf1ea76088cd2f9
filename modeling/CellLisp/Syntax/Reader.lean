import CellLisp.Symbols
import CellLisp.Syntax.Token

/-!
# `CellLisp.Syntax.Reader` — tokens as values

    form ::= atom | text | quote form | ( form* ) | ( form form* . form )

The reader takes one token at a time and keeps the constructs still open on a stack.
Elements of an open list are protected values above the list's base.

    top of stack      awaits                       a token out of place
    —                 a form                       ) unmatched, dot outside of a list
    list              an element, ) or a dot       dot before first list element
    dotted            the form behind the dot      ) unmatched, dot outside of a list
    ended             )                            more than one element after dot
    quoted            the form quoted              ) unmatched, dot outside of a list

An atom is a number if it is a numeral, else a symbol; `'x` is read as `(quote x)`.
-/

namespace CellLisp.Reader

/-- A construct still open. -/
inductive Frame where
  /-- Elements are being read. -/
  | list (base : Nat)
  /-- The form behind the dot comes next. -/
  | dotted (base : Nat)
  /-- Only the closing parenthesis is missing. -/
  | ended (base : Nat) (tail : Value)
  /-- The quoted form comes next. -/
  | quoted
  deriving Inhabited, Repr

/-- What a token leads to. -/
inductive Outcome where
  /-- More tokens are needed. -/
  | more (frames : List Frame)
  /-- A form is complete. -/
  | done (form : Value)
  deriving Inhabited, Repr

/-- Hands a complete form to the construct it belongs to. -/
def deliver (form : Value) : List Frame → Act Outcome
  | [] => return .done form
  | .quoted :: rest => do
    let body ← cons form .nil
    let quote ← gets (·.known.quote)
    deliver (← cons quote body) rest
  | .list base :: rest => do
    let _ ← protect form
    return .more (.list base :: rest)
  | .dotted base :: rest => return .more (.ended base form :: rest)
  | .ended base tail :: rest => return .more (.ended base tail :: rest)

/-- Completes a list. -/
def close (base : Nat) (tail : Value) (rest : List Frame) : Act Outcome := do
  let list ← listFromRoots base tail
  modify fun s => { s with roots := s.roots.shrink base }
  deliver list rest

/-- The value of an atom. -/
def atomValue (text : String) : Act Value :=
  match Number.parse? text with
  | some n => return .ofNumber n
  | none => intern text

/-- One token. -/
def step (t : Token) (frames : List Frame) : Act Outcome := do
  match t, frames with
  | .unterminated, _ => fail (.read .unterminatedString)
  | .closing, .ended base tail :: rest => close base tail rest
  | _, .ended _ _ :: _ => fail (.read .extraAfterDot)
  | .closing, .list base :: rest => close base .nil rest
  | .closing, _ => fail (.read .unmatchedClose)
  | .dot, .list base :: rest =>
    if (← gets (·.roots.size)) = base then fail (.read .dotBeforeElement)
    else return .more (.dotted base :: rest)
  | .dot, _ => fail (.read .dotOutsideList)
  | .opening, frames => return .more (.list (← gets (·.roots.size)) :: frames)
  | .quote, frames => return .more (.quoted :: frames)
  | .text text, frames => deliver (← makeString text) frames
  | .atom text, frames => deliver (← atomValue text) frames

/-- What is wrong when the tokens end here. -/
def endError? : List Frame → Option ReadError
  | [] => none
  | .list _ :: _ | .dotted _ :: _ => some .unmatchedOpen
  | .ended _ _ :: _ => some .extraAfterDot
  | .quoted :: _ => some .nothingQuoted

/-- Reads the first form. -/
def first : List Token → List Frame → Act Value
  | [], frames => fail (.read ((endError? frames).getD .noForm))
  | t :: ts, frames => do
    match ← step t frames with
    | .done form => return form
    | .more frames => first ts frames

/-- Reads and protects all forms. -/
def all : List Token → List Frame → Act Unit
  | [], frames =>
    match endError? frames with
    | some cause => fail (.read cause)
    | none => return ()
  | t :: ts, frames => do
    match ← step t frames with
    | .done form =>
      let _ ← protect form
      all ts []
    | .more frames => all ts frames

end CellLisp.Reader

namespace CellLisp

/-- The first form of a text. -/
def read (text : String) : Act Value := withRoots (Reader.first (Token.ofString text) [])

/-- A list of all forms of a text. -/
def readAll (text : String) : Act Value := withRoots do
  let base ← gets (·.roots.size)
  Reader.all (Token.ofString text) []
  listFromRoots base .nil

end CellLisp
