import CellLisp.Arity

/-!
# `CellLisp.Compile.Warning` — what the compiler remarks on
-/

namespace CellLisp

/-- Kind of a remark. -/
inductive WarningKind where
  /-- A global that is neither bound nor declared. -/
  | undeclared
  /-- A call of a declared function with the wrong number of arguments. -/
  | arity (expected : Arity) (given : Nat)
  /-- A declared function is assigned something that is no procedure form. -/
  | assignFunction
  | assignConstant
  /-- A declared function is bound dynamically. -/
  | dynamicFunction
  deriving DecidableEq, Inhabited, Repr

/-- A remark on a symbol. -/
structure Warning where
  /-- What is remarked on. -/
  kind : WarningKind
  /-- Name of the symbol. -/
  name : String
  deriving DecidableEq, Inhabited, Repr

/-- Wording of a remark. -/
def Warning.message (w : Warning) : String :=
  match w.kind with
  | .undeclared => "undeclared variable " ++ w.name
  | .arity expected given =>
    w.name ++ " called with " ++ toString given ++ " arguments, declared arity "
      ++ toString expected.code
  | .assignFunction => "function " ++ w.name ++ " assigned a non-procedure form"
  | .assignConstant => "assignment to constant " ++ w.name
  | .dynamicFunction => "dynamic binding of function " ++ w.name

end CellLisp
