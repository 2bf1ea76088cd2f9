import CellLisp.Proofs.Code.Proc

/-!
# `CellLisp.Proofs.Code.Label` — where continuations resume

A form that establishes a continuation ends with the instruction that drops it again, and an exit
goes on just past that (`Core.paired`).
-/

namespace CellLisp

/-- In a piece of code from `start` on, each continuation resumes just past an instruction that
drops one. -/
def Paired (start : Nat) (xs : List Site) : Prop :=
  ∀ (i : Nat) (s : Site), xs[i]? = some s → s.instr.op = .withCont → ∃ (j : Nat) (t : Site), i < j ∧
    s.instr.operand = .ofInt (start + j + 1 : Nat) ∧ xs[j]? = some t ∧ t.instr.op = .popCont

section Pieces

variable {start : Nat} {xs ys : List Site} {x : Site} {c : Ctx}

theorem paired_nil : Paired start [] := by
  intro i s h
  simp at h

theorem Paired.append (hx : Paired start xs) (hy : Paired (start + xs.length) ys) :
    Paired start (xs ++ ys) := by
  intro i s hs hop
  by_cases hi : i < xs.length
  · rw [List.getElem?_append_left hi] at hs
    obtain ⟨j, t, hij, hx, ht, hpop⟩ := hx i s hs hop
    have hj := (List.getElem?_eq_some_iff.1 ht).1
    exact ⟨j, t, hij, hx, by rw [List.getElem?_append_left hj, ht], hpop⟩
  · rw [List.getElem?_append_right (by omega)] at hs
    obtain ⟨j, t, hij, hy, ht, hpop⟩ := hy _ s hs hop
    refine ⟨xs.length + j, t, by omega, by rw [hy, Nat.add_assoc start], ?_, hpop⟩
    rw [List.getElem?_append_right (Nat.le_add_right _ _), Nat.add_sub_cancel_left, ht]

theorem paired_single (hx : x.instr.op ≠ .withCont) : Paired start [x] := by
  intro i s hs hop
  obtain rfl : i = 0 := by simpa using (List.getElem?_eq_some_iff.1 hs).1
  obtain rfl := Option.some.inj hs
  exact absurd hop hx

theorem Paired.cons (hx : x.instr.op ≠ .withCont) (h : Paired (start + 1) xs) :
    Paired start (x :: xs) :=
  (paired_single hx).append h

/-- The form that establishes a continuation. -/
theorem Paired.establish {y : Site} (h : Paired (start + 1) xs)
    (hx : x.instr.operand = .ofInt (start + xs.length + 2 : Nat)) (hy : y.instr.op = .popCont) :
    Paired start (x :: (xs ++ [y])) := by
  intro i s hs hop
  cases i with
  | zero =>
      obtain rfl := Option.some.inj hs
      refine ⟨xs.length + 1, y, Nat.succ_pos _, hx, ?_, hy⟩
      simp
  | succ i =>
      obtain ⟨j, t, hij, hx, ht, hpop⟩ := (h.append (paired_single (by simp [hy]))) i s hs hop
      refine ⟨j + 1, t, Nat.succ_lt_succ hij, by rw [hx]; congr 2; omega, ht, hpop⟩

theorem refInstr_ne (s : Scope) (x : Value) (inlined : Option Value) :
    (refInstr s x inlined).op ≠ .withCont := by
  unfold refInstr
  split
  · nofun
  · nofun
  · split <;> nofun

theorem setInstr_ne (s : Scope) (x : Value) : (setInstr s x).op ≠ .withCont := by
  unfold setInstr
  split <;> nofun

theorem contInstr_ne (s : Scope) (k : Value) : (contInstr s k).op ≠ .withCont := by
  unfold contInstr
  split <;> nofun

theorem exitInstr_ne (s : Scope) (k : Value) : (exitInstr s k).op ≠ .withCont := by
  unfold exitInstr
  split <;> nofun

theorem paired_genFetches {fs : List (Scope → Instr)} (hfs : ∀ f ∈ fs, ∀ s, (f s).op ≠ .withCont) :
    Paired start (genFetches c fs) := by
  induction fs generalizing c start with
  | nil => exact paired_nil
  | cons f fs ih =>
      exact .cons (hfs f (by simp) _) (.cons nofun (ih fun g hg => hfs g (by simp [hg])))

theorem paired_genJoin {code maker : Value} {copies : Captures} :
    Paired start (genJoin c code copies maker) := by
  have hfetches : ∀ f ∈ copies.fetches, ∀ s, (f s).op ≠ .withCont := by
    intro f hf s
    rw [Captures.fetches, List.mem_append] at hf
    rcases hf with hf | hf
    · obtain ⟨k, -, rfl⟩ := List.mem_map.1 hf
      exact contInstr_ne s k
    · obtain ⟨x, -, rfl⟩ := List.mem_map.1 hf
      exact refInstr_ne s x none
  refine .cons (by rintro ⟨⟩) (.cons (by rintro ⟨⟩) (.append (paired_genFetches hfetches) ?_))
  exact .cons (by rintro ⟨⟩) (.cons (by rintro ⟨⟩) (.cons (by rintro ⟨⟩)
    (paired_single (by rintro ⟨⟩))))

theorem paired_genLambda {code maker : Value} {copies : Captures} :
    Paired start (genLambda c code copies maker) := by
  unfold genLambda
  split
  · exact paired_single nofun
  · exact paired_genJoin

end Pieces

mutual

/-- The continuations of a form resume just past what establishes them. -/
theorem Core.paired {c : Ctx} {start : Nat} {tail : Bool} : (e : Core) →
    Paired start (e.gen c start tail)
  | .const v => paired_single nofun
  | .ref x inlined => paired_single (refInstr_ne _ _ _)
  | .assign x e => by
      rw [Core.gen]
      exact e.paired.append (paired_single (setInstr_ne _ _))
  | .exit k e => by
      rw [Core.gen]
      exact e.paired.append (paired_single (exitInstr_ne _ _))
  | .cond a b d => by
      rw [Core.gen]
      refine a.paired.append (.cons nofun ?_)
      rw [a.length_gen]
      refine b.paired.append (.cons nofun ?_)
      rw [b.length_gen, show start + a.length + 1 + b.length + 1 = start + a.length + b.length + 2 by
        omega]
      exact d.paired
  | .seq init last => by
      rw [Core.gen]
      refine (Core.pairedAll init).append ?_
      rw [Core.length_genAll]
      exact last.paired
  | .bind names inits body => by
      rw [Core.gen]
      refine (Core.pairedAll inits).append ?_
      rw [Core.length_genAll]
      refine body.paired.append ?_
      split
      · exact paired_nil
      · exact paired_single nofun
  | .dynBind names inits body => by
      rw [Core.gen]
      refine (Core.pairedAll inits).append ?_
      rw [Core.length_genAll]
      refine body.paired.append ?_
      split
      · exact paired_nil
      · exact paired_single nofun
  | .lambda code copies maker => paired_genLambda
  | .withCont k body => by
      rw [Core.gen]
      refine .establish body.paired ?_ rfl
      rw [body.length_gen]
      rfl
  | .loop body => by
      rw [Core.gen]
      exact (Core.pairedAll body).append (paired_single nofun)
  | .call args operator => by
      rw [Core.gen]
      refine (Core.pairedAll args).append (.append ?_ (paired_single ?_))
      · rw [Core.length_genAll]
        exact operator.paired
      · split <;> nofun

/-- The same for parts one behind the other. -/
theorem Core.pairedAll {c : Ctx} {start : Nat} {posts : List Post} : (es : List Core) →
    Paired start (Core.genAll c start posts es)
  | [] => by
      rw [Core.genAll]
      exact paired_nil
  | e :: es => by
      cases posts with
      | nil =>
          rw [Core.genAll]
          exact paired_nil
      | cons p posts =>
          rw [Core.genAll]
          refine e.paired.append (.append ?_ ?_)
          · cases p with
            | next => exact paired_nil
            | push => exact paired_single nofun
            | bind x => exact paired_single nofun
          · rw [e.length_gen, List.length_map]
            exact Core.pairedAll es

end

/-- The continuations of a procedure resume just past what establishes them. -/
theorem Proc.paired (p : Proc) : Paired 0 p.sites := by
  rw [Proc.sites]
  refine .append ?_ ?_
  · unfold Proc.entry
    split
    · exact paired_single (by rintro ⟨⟩)
    · exact paired_nil
  · rw [Nat.zero_add]
    exact p.body.paired.append (paired_single (by rintro ⟨⟩))

end CellLisp
