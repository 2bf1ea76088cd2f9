import CellLisp.Main
import CellLisp.Proofs.Heap.Collect
import CellLisp.Proofs.Heap.Upkeep
import CellLisp.Proofs.Code.Proc
import CellLisp.Proofs.State.Leads
import CellLisp.Proofs.Compile.Copies
import CellLisp.Proofs.State.Stream
import CellLisp.Proofs.State.Reader
import CellLisp.Proofs.State.Emit
import CellLisp.Proofs.Compile.Walk
import CellLisp.Proofs.Compile.Emission
import CellLisp.Proofs.Compile.Unit
import CellLisp.Proofs.Compile.Parameters
import CellLisp.Proofs.Machine.Unwinding
import CellLisp.Proofs.Machine.Argument
import CellLisp.Proofs.Machine.Backtrace
import CellLisp.Proofs.Machine.TailCall
import CellLisp.Proofs.Machine.Neutral
import CellLisp.Proofs.Syntax.Language
import CellLisp.Proofs.Syntax.Completeness
import CellLisp.Proofs.State.Characters
import CellLisp.Proofs.Number.Exact
import CellLisp.Proofs.State.Interning
import CellLisp.Proofs.State.Vacancy
import CellLisp.Proofs.Machine.Evaluation
import CellLisp.Proofs.Machine.Compiled
import CellLisp.Proofs.Machine.Retain
import CellLisp.Proofs.Library.Lists
import CellLisp.Proofs.Compile.Remarks
import CellLisp.Proofs.Library.Defined
import CellLisp.Proofs.State.Instructions
import CellLisp.Proofs.State.Assembly
import CellLisp.Proofs.Reference.Calls
import CellLisp.Proofs.Reference.Closures
import CellLisp.Proofs.Reference.Runs
import CellLisp.Proofs.Reference.Captured
