import CellLisp.Text.Blank

/-!
# `CellLisp.Syntax.Token` — source text as tokens

A text is scanned one character at a time by a machine of five states.

    blank       between tokens; a blank is skipped
    comment     from ; to the end of the line
    text        inside a string, up to the next double quote
    atom        inside a run of characters that are no delimiters
    done        behind a NUL, which ends the text

Blanks, parentheses, double quote, quote, semicolon and NUL are delimiters.  A text
that ends inside a string, or a NUL there, gives the token `unterminated`.
-/

namespace CellLisp

/-- A token. -/
inductive Token where
  | opening
  | closing
  | dot
  | quote
  | text (text : String)
  | atom (text : String)
  /-- A string without an end; nothing follows it. -/
  | unterminated
  deriving DecidableEq, Inhabited, Repr

namespace Token

/-- State of the scanner; characters of the current token in reverse. -/
inductive Scan where
  | blank
  | comment
  | text (acc : List Char)
  | atom (acc : List Char)
  | done
  deriving DecidableEq, Inhabited, Repr

/-- Whether a character ends an atom. -/
def isDelimiter (c : Char) : Bool :=
  Text.isAsciiBlank c || c == '(' || c == ')' || c == '"' || c == '\x27' || c == ';' || c == '\x00'

/-- The token of a run of characters, given in reverse. -/
def ofAtom (acc : List Char) : Token :=
  let text := String.ofList acc.reverse
  if text = "." then .dot else .atom text

/-- A character between tokens: a token complete with it, if any, and the next
state. -/
def start (c : Char) : Option Token × Scan :=
  if Text.isAsciiBlank c then (none, .blank)
  else if c = ';' then (none, .comment)
  else if c = '(' then (some .opening, .blank)
  else if c = ')' then (some .closing, .blank)
  else if c = '\x27' then (some .quote, .blank)
  else if c = '"' then (none, .text [])
  else if c = '\x00' then (none, .done)
  else (none, .atom [c])

/-- Adds a token, if there is one, to those so far, which are in reverse. -/
def add (tokens : List Token) : Option Token → List Token
  | some t => t :: tokens
  | none => tokens

/-- One character: the tokens so far and the next state. -/
def step (p : List Token × Scan) (c : Char) : List Token × Scan :=
  match p.2 with
  | .blank => (add p.1 (start c).1, (start c).2)
  | .comment => (p.1, if c = '\n' then .blank else .comment)
  | .text acc =>
    if c = '"' then (.text (String.ofList acc.reverse) :: p.1, .blank)
    else if c = '\x00' then (.unterminated :: p.1, .done)
    else (p.1, .text (c :: acc))
  | .atom acc =>
    if isDelimiter c then (add (ofAtom acc :: p.1) (start c).1, (start c).2)
    else (p.1, .atom (c :: acc))
  | .done => p

/-- The end of the text: the tokens, in reverse, with the last one. -/
def finish (p : List Token × Scan) : List Token :=
  match p.2 with
  | .text _ => .unterminated :: p.1
  | .atom acc => ofAtom acc :: p.1
  | _ => p.1

/-- Tokens of a sequence of characters. -/
def scan (cs : List Char) : List Token := (finish (cs.foldl step ([], .blank))).reverse

/-- Tokens of a text. -/
def ofString (text : String) : List Token := scan text.toList

end Token
end CellLisp
