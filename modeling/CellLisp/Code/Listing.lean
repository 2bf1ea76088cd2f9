import CellLisp.Object

/-!
# `CellLisp.Code.Listing` — compiled code as text

    operations                              after the operation's name
    halt, push, ret, popCont                —
    const, globalRef, globalSet, dynBind    the operand, printed
    jump, jumpIfFalse, withCont             -> target
    envRef, envSet, envExit                 modifier [index]
    others                                  modifier
-/

namespace CellLisp.Heap

/-- An instruction as text. -/
def instrText (h : Heap) (i : Instr) : String :=
  match i.op with
  | .halt | .push | .ret | .popCont => i.op.label
  | .const | .globalRef | .globalSet | .dynBind => i.op.label ++ " " ++ h.print i.operand
  | .jump | .jumpIfFalse | .withCont => i.op.label ++ " -> " ++ toString i.operand.word
  | .envRef | .envSet | .envExit =>
    i.op.label ++ " " ++ toString i.modifier ++ " [" ++ toString i.operand.word ++ "]"
  | _ => i.op.label ++ " " ++ toString i.modifier

/-- Appends numbered instructions to a text. -/
def listInstrs (h : Heap) (acc : String) (place : Nat) : List Instr → String
  | [] => acc
  | i :: rest =>
    h.listInstrs (acc ++ Text.padLeft 5 place ++ "  " ++ h.instrText i ++ "\n") (place + 1) rest

/-- Listing of compiled code. -/
def listing (h : Heap) (code : Value) : String :=
  match h.bytecode? code with
  | none => ""
  | some b =>
    let is := h.instrs b
    let title := h.procName code ++ " (arity " ++ toString b.arity.code ++ ", " ++ toString is.size
      ++ " instructions)\n"
    h.listInstrs title 0 is.toList

/-- Compiled code among the constants of compiled code. -/
def innerCode (h : Heap) (code : Value) : List Value :=
  match h.bytecode? code with
  | none => []
  | some b => (h.instrs b).toList.filterMap fun i =>
      if i.op = .const && i.operand.isBytecode then some i.operand else none

/-- Compiled code found depth first from a work list, each once and `limit` in all. -/
def codeFrom (h : Heap) (limit : Nat) (found : Array Value) : Nat → List Value → Array Value
  | 0, _ => found
  | _ + 1, [] => found
  | n + 1, code :: work =>
    if limit ≤ found.size || found.contains code then h.codeFrom limit found n work
    else h.codeFrom limit (found.push code) n (h.innerCode code ++ work)

/-- Listings of compiled code and of all code within it, at most `limit` of them. -/
def listings (h : Heap) (limit : Nat) (code : Value) : List String :=
  (h.codeFrom limit #[] (h.cells.size + h.arena.top) [code]).toList.map h.listing

end CellLisp.Heap
