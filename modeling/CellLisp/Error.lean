import CellLisp.Arity

/-!
# `CellLisp.Error` — why an operation fails

A failure that a program can be told about is an `Error`, named for its cause;
`Error.message` is the only place where causes are put into words.  A failure
that ends everything, because a store of fixed size is full, is a `Fatal`.

    raised by     errors
    reader        read
    compiler      form, unknownCont
    machine       unbound, type, arity, notProcedure, stackExhausted, exitedCont,
                  staleCont
    built-ins     type, overflow, divisionByZero, outOfBounds, signal, io, closedStream
    any run       aborted, around whatever stopped it; reentrant
-/

namespace CellLisp

/-- Faults of source text. -/
inductive ReadError where
  | unterminatedString
  | unmatchedClose
  | unmatchedOpen
  | dotOutsideList
  | dotBeforeElement
  | extraAfterDot
  | nothingQuoted
  | noForm
  deriving DecidableEq, Inhabited, Repr

/-- Wording of a fault of source text. -/
def ReadError.message : ReadError → String
  | .unterminatedString => "unterminated string"
  | .unmatchedClose => "unmatched )"
  | .unmatchedOpen => "unmatched ("
  | .dotOutsideList => "dot outside of a list"
  | .dotBeforeElement => "dot before first list element"
  | .extraAfterDot => "more than one element after dot"
  | .nothingQuoted => "nothing follows quote"
  | .noForm => "no form in input"

/-- Faults of a form being compiled.  Texts are printed values. -/
inductive FormError where
  | formsNotList
  /-- The arguments of a special form are no proper list. -/
  | improper (name : String)
  /-- A special form with parts of the wrong number or kind. -/
  | malformed (name form : String)
  | badBindings (name : String)
  | badParameter (parameter : String)
  | badParameterList (list : String)
  | improperCall (operator : String)
  | operandRange (operand : Nat)
  deriving DecidableEq, Inhabited, Repr

/-- Wording of a fault of a form. -/
def FormError.message : FormError → String
  | .formsNotList => "forms must be a proper list"
  | .improper name => "malformed " ++ name ++ " form"
  | .malformed name form => "malformed " ++ name ++ " form: " ++ form
  | .badBindings name => "malformed " ++ name ++ " bindings"
  | .badParameter parameter => "bad parameter " ++ parameter
  | .badParameterList list => "bad parameter list " ++ list
  | .improperCall operator => "improper argument list in call to " ++ operator
  | .operandRange operand => "operand " ++ toString operand ++ " out of range"

/-- What an argument was expected to be. -/
inductive Expected where
  | list | pair | properList | string | symbol | number | integer | index | array
  | continuation | environment | role | arity | bytecode | compiled | byte | stream
  | stringStream
  deriving DecidableEq, Inhabited, Repr

/-- Wording of an expectation. -/
def Expected.message : Expected → String
  | .list => "list"
  | .pair => "cons"
  | .properList => "proper list"
  | .string => "string"
  | .symbol => "symbol"
  | .number => "number"
  | .integer => "integer"
  | .index => "non-negative integer"
  | .array => "array"
  | .continuation => "continuation"
  | .environment => "environment"
  | .role => "declaration kind"
  | .arity => "arity"
  | .bytecode => "bytecode"
  | .compiled => "compiled procedure"
  | .byte => "byte"
  | .stream => "stream"
  | .stringStream => "string stream"

/-- Faults that the operating system reports. -/
inductive OsError where
  | noEntry
  | badDescriptor
  | notDirectory
  | isDirectory
  | nameTooLong
  | nulInName
  deriving DecidableEq, Inhabited, Repr

/-- Wording of a fault of the operating system, with its number. -/
def OsError.message : OsError → String
  | .noEntry => "No such file or directory (os error 2)"
  | .badDescriptor => "Bad file descriptor (os error 9)"
  | .notDirectory => "Not a directory (os error 20)"
  | .isDirectory => "Is a directory (os error 21)"
  | .nameTooLong => "File name too long (os error 36)"
  | .nulInName => "file name contained an unexpected NUL byte"

/-- Faults of input and output. -/
inductive IoFault where
  | unknownMode (mode : String)
  | cannotOpen (path : String) (cause : OsError)
  | system (cause : OsError)
  | inputNotWritable
  | notReadable
  | invalidUtf8
  | truncatedUtf8
  /-- A source text that is not UTF-8. -/
  | sourceNotUtf8
  deriving DecidableEq, Inhabited, Repr

/-- Wording of a fault of input and output. -/
def IoFault.message : IoFault → String
  | .unknownMode mode => "unknown file mode " ++ mode
  | .cannotOpen path cause => path ++ ": " ++ cause.message
  | .system cause => cause.message
  | .inputNotWritable => "standard input is not writable"
  | .notReadable => "stream is not readable"
  | .invalidUtf8 => "invalid UTF-8 in stream"
  | .truncatedUtf8 => "truncated UTF-8 in stream"
  | .sourceNotUtf8 => "stream did not contain valid UTF-8"

/-- A failure that a program can be told about. -/
inductive Error where
  | read (cause : ReadError)
  | form (cause : FormError)
  | unknownCont (name : String)
  | unbound (name : String)
  | type (expected : Expected) (found : String)
  | arity (name : String) (expected : Arity) (given : Nat)
  | notProcedure (found : String)
  | stackExhausted
  | exitedCont
  | staleCont
  | overflow
  | divisionByZero
  | outOfBounds (index length : Nat)
  /-- Raised by the program itself. -/
  | signal (text : String)
  | io (cause : IoFault)
  | closedStream
  /-- The machine is running and cannot be entered. -/
  | reentrant
  /-- A run was given up and undone. -/
  | aborted (cause : Error)
  deriving Inhabited, Repr

/-- Wording of a failure. -/
def Error.message : Error → String
  | .read cause => "read error: " ++ cause.message
  | .form cause => "syntax error: " ++ cause.message
  | .unknownCont name => "no continuation named " ++ name ++ " in scope"
  | .unbound name => "unbound variable " ++ name
  | .type expected found => "expected " ++ expected.message ++ ", found " ++ found
  | .arity name expected given =>
    let atLeast := if expected.isVariadic then "at least " else ""
    name ++ " takes " ++ atLeast ++ toString expected.required ++ " arguments, given "
      ++ toString given
  | .notProcedure found => "cannot call " ++ found
  | .stackExhausted => "operand stack exhausted"
  | .exitedCont => "continuation has already exited"
  | .staleCont => "continuation is not on the active stack"
  | .overflow => "integer overflow"
  | .divisionByZero => "division by zero"
  | .outOfBounds index length =>
    "index " ++ toString index ++ " out of bounds for length " ++ toString length
  | .signal text => text
  | .io cause => "io error: " ++ cause.message
  | .closedStream => "stream is closed"
  | .reentrant => "virtual machine is already running"
  | .aborted cause => "aborted: " ++ cause.message

/-- A failure that ends everything. -/
inductive Fatal where
  | cellsExhausted
  | payloadExhausted
  | rootsExhausted
  /-- An arity with no code in 16 bits. -/
  | arityRange
  /-- A run longer than the configured number of steps. -/
  | stepLimit
  /-- A form nested deeper than the configured limit. -/
  | depthLimit
  /-- A register or a stack word that no compiled code leaves behind. -/
  | corrupt
  deriving DecidableEq, Inhabited, Repr

/-- Wording of a fatal failure. -/
def Fatal.message : Fatal → String
  | .cellsExhausted => "cell pool exhausted"
  | .payloadExhausted => "payload heap exhausted"
  | .rootsExhausted => "root stack overflow"
  | .arityRange => "attempt to negate with overflow"
  | .stepLimit => "step limit reached"
  | .depthLimit => "form depth limit reached"
  | .corrupt => "corrupt machine state"

end CellLisp
