import CellLisp.Syntax.Reader

/-!
# `CellLisp.Proofs.Syntax.Frames` — the constructs still open

The reader takes a token to what it leads to and goes on from there (`first_cons`).  Unless a form
behind a dot waits for its parenthesis, every token that can begin a form does so whatever is
still open.
-/

namespace CellLisp.Reader

/-- A construct still open whose elements are kept above a depth. -/
def Frame.Open (d : Nat) : Frame → Prop
  | .list base | .dotted base => d ≤ base
  | .ended _ _ => False
  | .quoted => True

/-- A form may begin here. -/
def Accepts : List Frame → Prop
  | .ended _ _ :: _ => False
  | _ => True

/-- Goes on from what a token led to. -/
def resume (ts : List Token) : Outcome → Act Value
  | .done form => return form
  | .more frames => first ts frames

theorem first_cons (t : Token) (ts : List Token) (frames : List Frame) :
    first (t :: ts) frames = step t frames >>= resume ts := by
  rw [first]
  rfl

variable {frames : List Frame}

theorem step_opening (h : Accepts frames) : step .opening frames = (do
    return .more (.list (← gets (·.roots.size)) :: frames)) := by
  match frames, h with
  | [], _ | .list _ :: _, _ | .dotted _ :: _, _ | .quoted :: _, _ => rfl

theorem step_quote (h : Accepts frames) : step .quote frames = pure (.more (.quoted :: frames)) := by
  match frames, h with
  | [], _ | .list _ :: _, _ | .dotted _ :: _, _ | .quoted :: _, _ => rfl

theorem step_text (h : Accepts frames) (text : String) : step (.text text) frames = (do
    deliver (← makeString text) frames) := by
  match frames, h with
  | [], _ | .list _ :: _, _ | .dotted _ :: _, _ | .quoted :: _, _ => rfl

theorem step_atom (h : Accepts frames) (text : String) : step (.atom text) frames = (do
    deliver (← atomValue text) frames) := by
  match frames, h with
  | [], _ | .list _ :: _, _ | .dotted _ :: _, _ | .quoted :: _, _ => rfl

end CellLisp.Reader
