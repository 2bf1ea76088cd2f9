import CellLisp.Proofs.Machine.Body
import CellLisp.Proofs.Machine.Within

/-!
# `CellLisp.Proofs.Machine.Above` — what a call has put on top of older frames

What a call has put on top of older frames goes back to one place, whatever frames it is replaced
by (`Lodged`).  It is there until control goes back to that place, or an exit leads to an older
frame:

| | |
| :-- | :-- |
| `Lodged.advances` | what one instruction does to it |
| `Underway.climbs` | it is there as long as the frame at work is above the older frames |
| `Entered.lodged` | a call puts it there, or has come back at once |
-/

namespace CellLisp

/-- A run goes on for some steps, and the frame at work is above a place of the stack after each. -/
def State.Climbs (b : Nat) : State → State → Prop :=
  Relation.ReflTransGen fun s s' => s.Next s' ∧ b < s'.machine.fp

/-- On top of older frames is one that goes back to `r`, and maybe others on top of that. -/
def Lodged (r : Return) (fs pile : List Frame) : Prop := ∃ gs g, pile = gs ++ g :: fs ∧ g.back = r

section Lodged

variable {w : System} {o : Machine} {r place : Return} {fs gs pile pile' : List Frame}
  {f g g' : Frame} {op : Opcode}

theorem Frame.Becomes.base_eq (h : g.Becomes g') (fs : List Frame) (o : Machine) :
    g'.base fs o = g.base fs o := by
  rw [Frame.base, Frame.base, h.args]

/-- It takes room on the stack. -/
theorem Lodged.length_lt (h : Lodged r fs pile) (o : Machine) :
    (slotsOf fs o).length < (slotsOf pile o).length := by
  obtain ⟨gs, g, rfl, -⟩ := h
  exact Nat.lt_of_lt_of_le (g.lt_base fs o) (g.base_le gs fs o)

/-- A frame at work lies on the older ones. -/
theorem Lodged.lt_fp (h : Lodged r fs pile) (hw : Stands w o pile) :
    (slotsOf fs o).length < w.state.machine.fp := by
  obtain ⟨gs, g, rfl, -⟩ := h
  have hlt := g.lt_base fs o
  cases gs with
  | nil =>
      rw [hw.fp_eq]
      exact hlt
  | cons f gs =>
      have hbelow : g.base fs o ≤ (slotsOf (gs ++ g :: fs) o).length := g.base_le gs fs o
      have habove : (slotsOf (gs ++ g :: fs) o).length < w.state.machine.fp := by
        rw [show w.state.machine.fp = f.base (gs ++ g :: fs) o from hw.fp_eq]
        exact f.lt_base _ o
      omega

theorem Stands.fp_le (h : Stands w o (f :: fs)) :
    w.state.machine.fp ≤ (slotsOf (f :: fs) o).length := by
  rw [h.fp_eq]
  exact f.base_le [] fs o

/-- One instruction leaves the frame there, or another one in its place, or goes back to where that
does, or exits to an older frame. -/
theorem Lodged.advances (h : Lodged r fs pile) (hadvances : Advances op place pile pile') :
    Lodged r fs pile' ∨ place = r ∧ pile' = fs ∨
      op.exits = true ∧ ∃ gs g g' hs, fs = gs ++ g :: hs ∧ g.Becomes g' ∧ pile' = g' :: hs := by
  obtain ⟨gs, g, rfl, hback⟩ := h
  generalize hpile : gs ++ g :: fs = pile at hadvances
  cases hadvances with
  | stays hbecomes =>
      cases gs with
      | nil =>
          obtain ⟨rfl, rfl⟩ := List.cons.inj hpile
          exact .inl ⟨[], _, rfl, hbecomes.back.trans hback⟩
      | cons f gs =>
          obtain ⟨rfl, rfl⟩ := List.cons.inj hpile
          exact .inl ⟨_ :: gs, g, rfl, hback⟩
  | calls hbecomes _ =>
      cases gs with
      | nil =>
          obtain ⟨rfl, rfl⟩ := List.cons.inj hpile
          exact .inl ⟨[_], _, rfl, hbecomes.back.trans hback⟩
      | cons f gs =>
          obtain ⟨rfl, rfl⟩ := List.cons.inj hpile
          exact .inl ⟨_ :: _ :: gs, g, rfl, hback⟩
  | @leaves us hs f f' hop hbecomes _ =>
      rcases List.append_eq_append_iff.1 hpile with ⟨xs, rfl, hrest⟩ | ⟨xs, rfl, hrest⟩
      · cases xs with
        | nil =>
            obtain ⟨rfl, rfl⟩ := List.cons.inj hrest
            exact .inl ⟨[], f', rfl, hbecomes.back.trans hback⟩
        | cons x xs =>
            obtain ⟨-, rfl⟩ := List.cons.inj hrest
            exact .inr (.inr ⟨hop, xs, f, f', hs, rfl, hbecomes, rfl⟩)
      · cases xs with
        | nil =>
            obtain ⟨rfl, rfl⟩ := List.cons.inj hrest
            exact .inl ⟨[], f', rfl, hbecomes.back.trans hback⟩
        | cons x xs =>
            obtain ⟨-, rfl⟩ := List.cons.inj hrest
            exact .inl ⟨f' :: xs, g, rfl, hback⟩
  | @givesUp _ new _ _ hfew hbacks hplace =>
      cases gs with
      | nil =>
          obtain ⟨rfl, rfl⟩ := List.cons.inj hpile
          cases new with
          | nil => exact .inr (.inl ⟨(hplace rfl).trans hback, rfl⟩)
          | cons u new =>
              obtain rfl : new = [] :=
                List.eq_nil_of_length_eq_zero (Nat.le_zero.1 (Nat.le_of_succ_le_succ hfew))
              exact .inl ⟨[], u, rfl, (hbacks u List.mem_cons_self).trans hback⟩
      | cons f gs =>
          obtain ⟨rfl, rfl⟩ := List.cons.inj hpile
          exact .inl ⟨new ++ gs, g, (List.append_assoc _ _ _).symm, hback⟩

/-- What a call has led to, unless it has come back at once. -/
theorem Entered.lodged (h : Entered w o fs r gs) (hgs : gs ≠ []) : Lodged r fs (gs ++ fs) := by
  obtain ⟨hfew, hbacks, -, -⟩ := h
  cases gs with
  | nil => exact absurd rfl hgs
  | cons g gs =>
      obtain rfl : gs = [] :=
        List.eq_nil_of_length_eq_zero (Nat.le_zero.1 (Nat.le_of_succ_le_succ hfew))
      exact ⟨[], g, rfl, hbacks g List.mem_cons_self⟩

end Lodged

section Underway

variable {m : Mode} {d : Nat} {o w : System} {pile fs : List Frame} {f : Frame} {r : Return}
  {ins : Instr} {s' u : State}

/-- As long as the frame at work is above the older ones, the frame that goes back to `r` is there;
if there are no older ones, the run may have come to its end. -/
theorem Underway.climbs (h : Underway m d o w pile) (hg : Ground m d o)
    (htame : ∀ s : State, s.permits false = true → s.Permits m o.state.machine)
    (hlodged : Lodged r fs pile)
    (hclimbs : State.Climbs (slotsOf fs o.state.machine).length w.state u) :
    ∃ w' pile', w'.state = u ∧ Underway m d o w' pile' ∧
      (Lodged r fs pile' ∨ fs = [] ∧ pile' = []) := by
  induction hclimbs with
  | refl => exact ⟨w, pile, rfl, h, .inl hlodged⟩
  | @tail t u _ hstep ih =>
      obtain ⟨w₁, pile₁, rfl, h₁, hl₁⟩ := ih
      obtain ⟨⟨hpermits, hnext⟩, habove⟩ := hstep
      obtain ⟨ins, w₂, pile₂, -, rfl, -, h₂, hadvances⟩ := h₁.next hg (htame _ hpermits) hnext
      refine ⟨w₂, pile₂, rfl, h₂, ?_⟩
      rcases hl₁ with hl₁ | ⟨-, rfl⟩
      · rcases hl₁.advances hadvances with hl₂ | ⟨-, rfl⟩ | ⟨-, gs, g, g', hs, rfl, hbecomes, rfl⟩
        · exact .inl hl₂
        · -- control has gone back to `r`
          cases pile₂ with
          | nil => exact .inr ⟨rfl, rfl⟩
          | cons f fs =>
              have hle := h₂.stands.fp_le
              omega
        · -- an exit has led to an older frame
          have hfp := h₂.stands.fp_eq
          rw [hbecomes.base_eq] at hfp
          have hle := g.base_le gs hs o.state.machine
          omega
      · generalize hnil : ([] : List Frame) = pile₀ at hadvances
        cases hadvances with
        | stays | calls | givesUp => cases hnil
        | leaves => simp at hnil

/-- The newest frame stands at its place unless its arguments are collected next. -/
theorem Stands.exists_top {base : Machine} {f : Frame} (h : Stands w base (f :: fs))
    (hins : w.heap.instr? w.state.machine.code w.state.machine.pc = some ins)
    (hop : ins.op ≠ .varargs) : ∃ val?, At w base (f :: fs) val? := by
  rcases h with ⟨val?, hat⟩ | ⟨g, gs, he, hentering⟩
  · exact ⟨val?, hat⟩
  · obtain ⟨rfl, rfl⟩ := List.cons.inj he
    obtain ⟨least, -, hsite⟩ := hentering.exists_least
    have hvarargs := hentering.frame.instr? hsite
    rw [← hentering.pc] at hvarargs
    obtain rfl := Option.some.inj (hvarargs.symm.trans hins)
    exact absurd rfl hop

/-- A call is carried out in a frame that stands at its place. -/
theorem Stands.exists_at {base : Machine} (h : Stands w base pile) (hhalts : w.Halts)
    (hins : w.heap.instr? w.state.machine.code w.state.machine.pc = some ins)
    (hop : ins.op = .call ∨ ins.op = .tailCall) :
    ∃ f fs val?, pile = f :: fs ∧ At w base (f :: fs) val? := by
  rcases h.exists_site hhalts hins with ⟨-, hhalt⟩ | ⟨f, fs, -, rfl, -⟩
  · rw [hhalt] at hop
    rcases hop with hop | hop <;> cases hop
  obtain ⟨val?, hat⟩ := h.exists_top hins (by rcases hop with hop | hop <;> rw [hop] <;> decide)
  exact ⟨f, fs, val?, rfl, hat⟩

end Underway

end CellLisp
