import CellLisp.Proofs.Code.Proc

/-!
# `CellLisp.Proofs.Code.Extent` — what stays put inside a form

Between the first instruction of a form and its last one, the dynamic bindings that were there
when it began are not touched, and a form that is not in tail position does not give up the frame
it runs in.  Each binding takes an instruction for its value and one to make it, so there are
at most half as many as instructions before (`Core.extent`).
-/

namespace CellLisp

/-- Whether an instruction gives up the frame it is carried out in. -/
def Opcode.givesUp : Opcode → Bool
  | .ret | .tailCall | .varargs => true
  | _ => false

/-- At each instruction of a piece at least `low` dynamic bindings are in force and at most half
as many as instructions before it, if `before` precede the piece; unless it is a tail, it gives up
no frame. -/
def Extent (low before : Nat) (tail : Bool) (xs : List Site) : Prop :=
  ∀ i s, xs[i]? = some s → low ≤ s.shape.dyns ∧ 2 * s.shape.dyns ≤ before + i ∧
    (tail = false → s.instr.op.givesUp = false)

section Pieces

variable {low low' before before' : Nat} {tail : Bool} {xs ys : List Site} {c : Ctx}

theorem extent_nil : Extent low before tail [] := by
  intro i s h
  simp at h

theorem Extent.append (hx : Extent low before tail xs)
    (hy : Extent low (before + xs.length) tail ys) : Extent low before tail (xs ++ ys) := by
  intro i s h
  by_cases hi : i < xs.length
  · exact hx i s (by rwa [List.getElem?_append_left hi] at h)
  · rw [List.getElem?_append_right (by omega)] at h
    obtain ⟨hlow, hhigh, hstays⟩ := hy _ s h
    exact ⟨hlow, by omega, hstays⟩

theorem Extent.mono (h : Extent low before false xs) (hlow : low' ≤ low)
    (hbefore : before ≤ before') : Extent low' before' tail xs := by
  intro i s hs
  obtain ⟨h₁, h₂, h₃⟩ := h i s hs
  exact ⟨by omega, by omega, fun _ => h₃ rfl⟩

theorem Extent.mono_tail (h : Extent low before tail xs) (hlow : low' ≤ low)
    (hbefore : before ≤ before') : Extent low' before' tail xs := by
  intro i s hs
  obtain ⟨h₁, h₂, h₃⟩ := h i s hs
  exact ⟨by omega, by omega, h₃⟩

theorem Extent.ofTail (h : Extent low before tail xs) : Extent low before true xs := fun i s hs =>
  ⟨(h i s hs).1, (h i s hs).2.1, nofun⟩

/-- One instruction in front of others. -/
theorem Extent.cons {x : Site} (hdyns : x.shape.dyns = low) (hbefore : 2 * low ≤ before)
    (hx : tail = false → x.instr.op.givesUp = false)
    (h : ∀ before', 2 * low ≤ before' → Extent low before' tail xs) :
    Extent low before tail (x :: xs) := by
  have hx : Extent low before tail [x] := fun i s hs => by
    obtain rfl : i = 0 := by simpa using (List.getElem?_eq_some_iff.1 hs).1
    obtain rfl := Option.some.inj hs
    exact ⟨Nat.le_of_eq hdyns.symm, by omega, hx⟩
  exact hx.append (h _ (Nat.le_add_right_of_le hbefore))

theorem extent_single {x : Site} (hdyns : x.shape.dyns = low) (hbefore : 2 * low ≤ before)
    (hx : tail = false → x.instr.op.givesUp = false) : Extent low before tail [x] :=
  .cons hdyns hbefore hx fun _ _ => extent_nil

theorem not_givesUp_refInstr (s : Scope) (x : Value) (inlined : Option Value) :
    (refInstr s x inlined).op.givesUp = false := by
  unfold refInstr
  split
  · rfl
  · rfl
  · split <;> rfl

theorem not_givesUp_setInstr (s : Scope) (x : Value) : (setInstr s x).op.givesUp = false := by
  unfold setInstr
  split <;> rfl

theorem not_givesUp_contInstr (s : Scope) (k : Value) : (contInstr s k).op.givesUp = false := by
  unfold contInstr
  split <;> rfl

theorem not_givesUp_exitInstr (s : Scope) (k : Value) : (exitInstr s k).op.givesUp = false := by
  unfold exitInstr
  split <;> rfl

theorem extent_genFetches {fs : List (Scope → Instr)} (hfs : ∀ f ∈ fs, ∀ s, (f s).op.givesUp = false)
    (hbefore : 2 * c.dyns ≤ before) : Extent c.dyns before false (genFetches c fs) := by
  induction fs generalizing c before with
  | nil => exact extent_nil
  | cons f fs ih =>
      refine .cons rfl hbefore (fun _ => hfs f (by simp) _) fun _ hb => ?_
      refine .cons rfl hb (fun _ => rfl) fun _ hb => ?_
      exact ih (c := c.push .any) (fun g hg => hfs g (by simp [hg])) hb

theorem not_givesUp_fetches (copies : Captures) :
    ∀ f ∈ copies.fetches, ∀ s, (f s).op.givesUp = false := by
  intro f hf s
  rw [Captures.fetches, List.mem_append] at hf
  rcases hf with hf | hf
  · obtain ⟨k, -, rfl⟩ := List.mem_map.1 hf
    exact not_givesUp_contInstr s k
  · obtain ⟨x, -, rfl⟩ := List.mem_map.1 hf
    exact not_givesUp_refInstr s x none

theorem extent_genJoin {code maker : Value} {copies : Captures} (hbefore : 2 * c.dyns ≤ before) :
    Extent c.dyns before false (genJoin c code copies maker) := by
  have hposts : ((c.push (.code copies.count)).posts (copies.fetches.map fun _ => .push)).dyns
      = c.dyns := Ctx.dyns_posts_push _ _
  refine .cons rfl hbefore (fun _ => rfl) fun _ hb => ?_
  refine .cons rfl hb (fun _ => rfl) fun _ hb => ?_
  refine .append (extent_genFetches (c := c.push (.code copies.count)) (not_givesUp_fetches copies) hb) ?_
  refine .cons hposts (Nat.le_add_right_of_le hb) (fun _ => rfl) fun _ hb => ?_
  refine .cons rfl hb (fun _ => rfl) fun _ hb => ?_
  refine .cons rfl hb (fun _ => rfl) fun _ hb => ?_
  exact extent_single rfl hb (fun _ => rfl)

theorem extent_genLambda {code maker : Value} {copies : Captures} (hbefore : 2 * c.dyns ≤ before) :
    Extent c.dyns before false (genLambda c code copies maker) := by
  unfold genLambda
  split
  · exact extent_single rfl hbefore (fun _ => rfl)
  · exact extent_genJoin hbefore

end Pieces

/-! ## Forms -/

theorem Core.length_pos {e : Core} {s : Scope} (hok : e.Ok s) : 0 < e.length := by
  obtain ⟨_, _, h, -⟩ := Core.gen_head (c := ⟨s, [], [], 0⟩) 0 false e hok
  have := Core.length_gen ⟨s, [], [], 0⟩ 0 false e
  rw [h] at this
  simp at this
  omega

theorem Core.dyns_posts_le {c : Ctx} {posts : List Post} {es : List Core}
    (hok : Core.OkAll c.scope posts es) (hlen : posts.length = es.length) :
    2 * (c.posts posts).dyns ≤ 2 * c.dyns + Core.lengthOf posts es := by
  induction es generalizing c posts with
  | nil =>
      obtain rfl := List.eq_nil_of_length_eq_zero hlen
      simp [Ctx.posts]
  | cons e es ih =>
      cases posts with
      | nil => simp at hlen
      | cons p posts =>
          have hpos := Core.length_pos hok.1
          have := ih (c := c.post p) hok.2 (by simpa using hlen)
          rw [Core.lengthOf]
          change 2 * ((c.post p).posts posts).dyns ≤ _
          have hp : 2 * p.dyns ≤ e.length + p.instrs.length := by
            cases p <;> simp [Post.dyns, Post.instrs]
            omega
          simp only [Ctx.post] at this ⊢
          omega

mutual

/-- What a form leaves alone between its first instruction and its last one. -/
theorem Core.extent {c : Ctx} {start before : Nat} {tail : Bool} : (e : Core) → e.Ok c.scope →
    2 * c.dyns ≤ before → Extent c.dyns before tail (e.gen c start tail)
  | .const v, _, hb => extent_single rfl hb (fun _ => rfl)
  | .ref x inlined, _, hb =>
      extent_single rfl hb (fun _ => not_givesUp_refInstr _ _ _)
  | .assign x e, hok, hb => by
      rw [Core.gen]
      refine .append ((e.extent hok hb).mono (Nat.le_refl _) (Nat.le_refl _)) ?_
      exact extent_single rfl (Nat.le_add_right_of_le hb)
        (fun _ => not_givesUp_setInstr _ _)
  | .exit k e, hok, hb => by
      rw [Core.gen]
      refine .append ((e.extent hok.2 hb).mono (Nat.le_refl _) (Nat.le_refl _)) ?_
      exact extent_single rfl (Nat.le_add_right_of_le hb)
        (fun _ => not_givesUp_exitInstr _ _)
  | .cond a b d, hok, hb => by
      rw [Core.gen]
      refine .append ((a.extent hok.1 hb).mono (Nat.le_refl _) (Nat.le_refl _)) ?_
      refine .cons rfl (Nat.le_add_right_of_le hb) (fun _ => rfl)
        fun _ hb => .append (b.extent hok.2.1 hb) ?_
      exact .cons rfl (Nat.le_add_right_of_le hb) (fun _ => rfl) fun _ hb => d.extent hok.2.2 hb
  | .seq init last, hok, hb => by
      rw [Core.gen]
      refine .append ((Core.extentAll init hok.1 (by simp) hb).mono (Nat.le_refl _) (Nat.le_refl _)) ?_
      exact last.extent hok.2 (Nat.le_add_right_of_le hb)
  | .bind names inits body, hok, hb => by
      have hdyns := c.dyns_posts_push names
      have hscope := c.scope_posts (names.map fun _ => .push)
      have hlen : (names.map fun _ => Post.push).length = inits.length := by simp [hok.1]
      rw [Core.Ok, ← hscope] at hok
      rw [Core.gen]
      refine .append ((Core.extentAll inits hok.2.1 hlen hb).mono (Nat.le_refl _) (Nat.le_refl _)) ?_
      rw [Core.length_genAll]
      refine .append ?_ ?_
      · exact (body.extent (c := (c.posts (names.map fun _ => .push)).nameTop names) hok.2.2
          (Nat.le_add_right_of_le (by rw [← hdyns] at hb; exact hb))).mono_tail
            (Nat.le_of_eq hdyns.symm) (Nat.le_refl _)
      · split
        · exact extent_nil
        · exact extent_single hdyns (by omega) fun _ => rfl
  | .dynBind names inits body, hok, hb => by
      have hdyns := c.dyns_posts_bind names
      have hscope := c.scope_posts (names.map .bind)
      have hlen : (names.map Post.bind).length = inits.length := by simp [hok.1]
      rw [Core.Ok, ← hscope] at hok
      have hle := Core.dyns_posts_le hok.2.1 hlen
      rw [Core.gen]
      refine .append ((Core.extentAll inits hok.2.1 hlen hb).mono (Nat.le_refl _) (Nat.le_refl _)) ?_
      rw [Core.length_genAll]
      refine .append ((body.extent (c := c.posts (names.map .bind)) hok.2.2 (by omega)).mono
        (by omega) (Nat.le_refl _)) ?_
      split
      · exact extent_nil
      · refine (extent_single rfl ?_ fun _ => rfl).mono_tail ?_ (Nat.le_refl _)
        · change 2 * (c.posts (names.map .bind)).dyns ≤ _
          rw [body.length_gen]
          omega
        · change c.dyns ≤ (c.posts (names.map .bind)).dyns
          omega
  | .lambda code copies maker, _, hb => by
      rw [Core.gen]
      exact (extent_genLambda hb).mono (Nat.le_refl _) (Nat.le_refl _)
  | .withCont k body, hok, hb => by
      rw [Core.gen]
      refine .cons rfl hb (fun _ => rfl) fun _ hb => ?_
      refine .append ((body.extent (c := c.establish k (start + body.length + 2)) hok hb).mono
        (Nat.le_refl _) (Nat.le_refl _)) ?_
      exact extent_single rfl (Nat.le_add_right_of_le hb) fun _ => rfl
  | .loop body, hok, hb => by
      rw [Core.gen]
      refine .append ((Core.extentAll body hok (by simp) hb).mono (Nat.le_refl _) (Nat.le_refl _)) ?_
      exact extent_single rfl (Nat.le_add_right_of_le hb) fun _ => rfl
  | .call args operator, hok, hb => by
      have hdyns := c.dyns_posts_push args
      have hscope := c.scope_posts (args.map fun _ => .push)
      rw [Core.Ok, ← hscope] at hok
      rw [Core.gen]
      refine .append ((Core.extentAll args hok.1 (by simp) hb).mono (Nat.le_refl _) (Nat.le_refl _)) ?_
      refine .append ((operator.extent (c := c.posts (args.map fun _ => .push)) hok.2
        (by omega)).mono (by omega) (Nat.le_refl _)) ?_
      refine extent_single hdyns ?_ fun ht => ?_
      · rw [Core.length_genAll]
        omega
      · rw [ht]
        rfl

theorem Core.extentAll {c : Ctx} {start before : Nat} {posts : List Post} : (es : List Core) →
    Core.OkAll c.scope posts es → posts.length = es.length → 2 * c.dyns ≤ before →
    Extent c.dyns before false (Core.genAll c start posts es)
  | [], _, _, _ => by
      rw [Core.genAll]
      exact extent_nil
  | e :: es, hok, hlen, hb => by
      cases posts with
      | nil => simp at hlen
      | cons p posts =>
          have hpos := Core.length_pos hok.1
          rw [Core.genAll]
          refine .append (e.extent hok.1 hb) (.append ?_ ?_)
          · cases p with
            | next => exact extent_nil
            | push =>
                exact extent_single rfl (Nat.le_add_right_of_le hb) fun _ => rfl
            | bind x =>
                exact extent_single rfl (Nat.le_add_right_of_le hb) fun _ => rfl
          · rw [e.length_gen, List.length_map]
            refine (Core.extentAll (c := c.post p) es hok.2 (by simpa using hlen) ?_).mono
              (Nat.le_add_right _ _) (Nat.le_refl _)
            cases p <;> simp [Ctx.post, Post.dyns, Post.instrs] <;> omega

end

/-- A procedure begins without dynamic bindings. -/
theorem Proc.extent {p : Proc} (hok : p.body.Ok p.scope) : Extent 0 0 true p.sites := by
  rw [Proc.sites]
  refine .append ?_ (.append ?_ ?_)
  · unfold Proc.entry
    split
    · exact extent_single rfl (Nat.le_refl _) (by rintro ⟨⟩)
    · exact extent_nil
  · have hbody : Extent 0 (0 + p.entry.length) p.tail (p.body.gen p.ctx p.entry.length p.tail) :=
      p.body.extent hok (Nat.zero_le _)
    exact hbody.ofTail
  · exact extent_single rfl (Nat.zero_le _) (by rintro ⟨⟩)

end CellLisp
