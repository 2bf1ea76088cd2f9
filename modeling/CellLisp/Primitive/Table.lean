import CellLisp.Arity

/-!
# `CellLisp.Primitive.Table` — the built-in procedures and their names

Each built-in procedure is a constructor of `Primitive`; `table` gives its name
and arity, in the order in which a new state binds them.  Three more, of
`HostProcedure`, are for an embedding program to bind under a name and an arity of
its own choice.
-/

namespace CellLisp

/-- Procedures that an embedding program may bind. -/
inductive HostProcedure where
  /-- Evaluates the text it is given. -/
  | evaluate
  /-- Number of its arguments. -/
  | count
  /-- Its last argument, or the empty list. -/
  | last
  deriving DecidableEq, Inhabited, Repr

/-- A built-in procedure. -/
inductive Primitive where
  | add | mul | sub | div | modulo
  | numEq | numLt | numGt | numLe | numGe
  | same | equal | not | isNil | isPair | isSymbol | isInt | isFloat | isNumber | isString
  | isProcedure | isArray | isContinuation | isStream
  | cons | head | tail | setHead | setTail | list
  | makeArray | arrayRef | arraySet | arrayLength
  | stringLength | stringAppend | symbolName | intern | gensym
  | stringToNumber | numberToString | readFromString
  | declare | makeClosure | documentation | disassemble
  | signal | collect
  | print | display | newline
  | makeStringStream | streamString | openFile | closeStream
  | readByte | writeByte | readChar | writeChar
  | host (procedure : HostProcedure)
  deriving DecidableEq, Inhabited, Repr

/-- Name, arity code and procedure of every built-in. -/
def Primitive.table : List (String × Int × Primitive) :=
  [("+", -1, .add), ("*", -1, .mul), ("-", -2, .sub), ("/", -2, .div), ("mod", 2, .modulo),
   ("=", -2, .numEq), ("<", -2, .numLt), (">", -2, .numGt), ("<=", -2, .numLe),
   (">=", -2, .numGe),
   ("eq?", 2, .same), ("equal?", 2, .equal), ("not", 1, .not), ("nil?", 1, .isNil),
   ("cons?", 1, .isPair), ("symbol?", 1, .isSymbol), ("int?", 1, .isInt),
   ("float?", 1, .isFloat), ("number?", 1, .isNumber), ("string?", 1, .isString),
   ("procedure?", 1, .isProcedure), ("array?", 1, .isArray),
   ("continuation?", 1, .isContinuation), ("stream?", 1, .isStream),
   ("cons", 2, .cons), ("car", 1, .head), ("cdr", 1, .tail), ("set-car!", 2, .setHead),
   ("set-cdr!", 2, .setTail), ("list", -1, .list),
   ("make-array", -2, .makeArray), ("array-ref", 2, .arrayRef), ("array-set!", 3, .arraySet),
   ("array-length", 1, .arrayLength),
   ("string-length", 1, .stringLength), ("string-append", -1, .stringAppend),
   ("symbol-name", 1, .symbolName), ("intern", 1, .intern), ("gensym", 0, .gensym),
   ("string->number", 1, .stringToNumber), ("number->string", 1, .numberToString),
   ("read-from-string", 1, .readFromString),
   ("declare!", -3, .declare), ("make-closure", 2, .makeClosure),
   ("documentation", 1, .documentation), ("disassemble", 1, .disassemble),
   ("error", -2, .signal), ("gc", 0, .collect),
   ("print", -2, .print), ("princ", -2, .display), ("newline", -1, .newline),
   ("make-string-stream", -1, .makeStringStream), ("stream-string", 1, .streamString),
   ("open-file", 2, .openFile), ("close-stream", 1, .closeStream),
   ("read-byte", -1, .readByte), ("write-byte", -2, .writeByte), ("read-char", -1, .readChar),
   ("write-char", -2, .writeChar)]

end CellLisp
