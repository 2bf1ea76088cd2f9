import CellLisp.Proofs.Code.Proc

/-!
# `CellLisp.Proofs.Code.Depth` — the depth of the scope along a listing

The scopes noted in a listing may hold any names, but how deep they are follows from the
instructions alone: each leaves so many slots of those that are there before it, and the code of a
form ends at the depth it has begun at (`Core.scans`).  So the depth at an instruction is found by
going through those in front of it, in the order of the listing, jumps or not (`Proc.depth_eq`).
-/

namespace CellLisp

/-- Slots of a frame behind an instruction, of those in front of it. -/
def Instr.leaves (i : Instr) (slots : Nat) : Nat :=
  match i.op with
  | .push => slots + 1
  | .drop | .makeArray | .call | .tailCall => slots - i.modifier
  | _ => slots

/-- The depths of the scopes along a piece follow from one another. -/
def Scans : Nat → List Site → Nat → Prop
  | first, [], last => first = last
  | first, s :: rest, last => s.scope.depth = first ∧ Scans (s.instr.leaves first) rest last

section Pieces

variable {first mid last : Nat} {xs ys : List Site} {s : Site}

theorem Scans.append (hx : Scans first xs mid) (hy : Scans mid ys last) :
    Scans first (xs ++ ys) last := by
  induction xs generalizing first with
  | nil =>
      obtain rfl : first = mid := hx
      exact hy
  | cons x xs ih => exact ⟨hx.1, ih hx.2⟩

theorem Scans.single (hs : s.scope.depth = first) (hleaves : s.instr.leaves first = last) :
    Scans first [s] last :=
  ⟨hs, hleaves⟩

/-- The depth at an instruction is that after all instructions in front of it. -/
theorem Scans.depth_eq (h : Scans first xs last) {i : Nat} (hs : xs[i]? = some s) :
    s.scope.depth = ((xs.map (·.instr)).take i).foldl (fun slots ins => ins.leaves slots) first := by
  induction xs generalizing first i with
  | nil => cases hs
  | cons x xs ih =>
      cases i with
      | zero =>
          obtain rfl := Option.some.inj hs
          exact h.1
      | succ i => exact ih h.2 hs

end Pieces

/-! ## Scopes -/

theorem Scope.depth_posts_push {α : Type} (s : Scope) (xs : List α) :
    (s.posts (xs.map fun _ => .push)).depth = xs.length + s.depth := by
  induction xs generalizing s with
  | nil => exact (Nat.zero_add _).symm
  | cons x xs ih =>
      refine (ih (s.push .temp)).trans ?_
      show xs.length + (1 + s.depth) = xs.length + 1 + s.depth
      omega

theorem Scope.depth_posts_bind (s : Scope) (names : List Value) :
    (s.posts (names.map .bind)).depth = s.depth := by
  induction names generalizing s with
  | nil => rfl
  | cons x names ih => exact (ih (s.push (.dynamic x))).trans (Nat.zero_add _)

/-- Variables take as much room as the operands that they name. -/
theorem Scope.depth_nameTop_posts (s : Scope) (names : List Value) :
    ((s.posts (names.map fun _ => .push)).nameTop names).depth = names.length + s.depth := by
  have hmodels := models_flatMap_kinds 0 s.entries
  rw [Scope.depth, s.entries_nameTop_posts, (hmodels.vars names).depth, Scope.depth, hmodels.depth]
  simp

/-! ## Forms -/

theorem leaves_refInstr (s : Scope) (x : Value) (inlined : Option Value) (n : Nat) :
    (refInstr s x inlined).leaves n = n := by
  unfold refInstr
  split
  · rfl
  · rfl
  · split <;> rfl

theorem leaves_setInstr (s : Scope) (x : Value) (n : Nat) : (setInstr s x).leaves n = n := by
  unfold setInstr
  split <;> rfl

theorem leaves_contInstr (s : Scope) (k : Value) (n : Nat) : (contInstr s k).leaves n = n := by
  unfold contInstr
  split <;> rfl

theorem leaves_exitInstr (s : Scope) (k : Value) (n : Nat) : (exitInstr s k).leaves n = n := by
  unfold exitInstr
  split <;> rfl

theorem Captures.leaves_fetches {copies : Captures} {f : Scope → Instr} (hf : f ∈ copies.fetches)
    (s : Scope) (n : Nat) : (f s).leaves n = n := by
  unfold Captures.fetches at hf
  rcases List.mem_append.1 hf with hf | hf
  · obtain ⟨k, -, rfl⟩ := List.mem_map.1 hf
    exact leaves_contInstr s k n
  · obtain ⟨x, -, rfl⟩ := List.mem_map.1 hf
    exact leaves_refInstr s x none n

/-- Each copy is pushed. -/
theorem scans_genFetches {c : Ctx} {fs : List (Scope → Instr)}
    (hfs : ∀ f ∈ fs, ∀ s n, (f s).leaves n = n) :
    Scans c.scope.depth (genFetches c fs) (fs.length + c.scope.depth) := by
  induction fs generalizing c with
  | nil => exact (Nat.zero_add _).symm
  | cons f fs ih =>
      refine ⟨rfl, ?_, ?_⟩
      · exact (hfs f List.mem_cons_self _ _).symm
      · show Scans ((f c.scope).leaves c.scope.depth + 1) (genFetches (c.push .any) fs) _
        rw [hfs f List.mem_cons_self]
        have hrest := ih (c := c.push .any) fun g hg => hfs g (List.mem_cons_of_mem _ hg)
        have hpush : (c.push .any).scope.depth = c.scope.depth + 1 := Nat.add_comm 1 _
        rw [hpush] at hrest
        rw [List.length_cons, Nat.add_right_comm]
        exact hrest

/-- Joining code to copies takes what has been pushed for it. -/
theorem scans_genJoin (c : Ctx) (code : Value) (copies : Captures) (maker : Value) :
    Scans c.scope.depth (genJoin c code copies maker) c.scope.depth := by
  let inner := c.push (.code copies.count)
  have hinner : inner.scope.depth = c.scope.depth + 1 := Nat.add_comm 1 _
  have hjoined : (inner.push (.env copies.count)).scope.depth = c.scope.depth + 1 + 1 := by
    show 1 + inner.scope.depth = _
    omega
  have hcopies : (inner.posts (copies.fetches.map fun _ => .push)).scope.depth
      = copies.count + inner.scope.depth := by
    rw [Ctx.scope_posts, Scope.depth_posts_push, length_fetches]
  have hfetches : Scans inner.scope.depth (genFetches inner copies.fetches)
      (copies.fetches.length + inner.scope.depth) :=
    scans_genFetches fun f hf => Captures.leaves_fetches hf
  rw [length_fetches] at hfetches
  unfold genJoin
  refine ⟨rfl, rfl, ?_⟩
  show Scans (c.scope.depth + 1) _ _
  rw [← hinner]
  refine hfetches.append ⟨hcopies, ?_⟩
  show Scans (copies.count + inner.scope.depth - copies.count) _ _
  rw [Nat.add_sub_cancel_left]
  refine ⟨rfl, ?_⟩
  show Scans (inner.scope.depth + 1) _ _
  rw [hinner]
  exact ⟨hjoined, hjoined, rfl⟩

mutual

/-- The code of a form ends at the depth it has begun at. -/
theorem Core.scans {c : Ctx} (start : Nat) (tail : Bool) : (e : Core) → e.Ok c.scope →
    Scans c.scope.depth (e.gen c start tail) c.scope.depth
  | .const _, _ => ⟨rfl, rfl⟩
  | .ref _ _, _ => .single rfl (leaves_refInstr _ _ _ _)
  | .assign _ e, hok => (e.scans start false hok).append (.single rfl (leaves_setInstr _ _ _))
  | .exit _ e, hok => (e.scans start false hok.2).append (.single rfl (leaves_exitInstr _ _ _))
  | .cond a b d, hok =>
      (a.scans start false hok.1).append ⟨rfl, (b.scans _ tail hok.2.1).append
        ⟨rfl, d.scans _ tail hok.2.2⟩⟩
  | .seq init last, hok => by
      have hinit := Core.scansAll start (init.map fun _ => .next) init hok.1 (List.length_map _)
      rw [Ctx.posts_next] at hinit
      exact hinit.append (last.scans _ tail hok.2)
  | .bind names inits body, hok => by
      have hinits := Core.scansAll start (names.map fun _ => .push) inits hok.2.1
        ((List.length_map _).trans hok.1)
      have hinner := c.scope.depth_nameTop_posts names
      have hscope : ((c.posts (names.map fun _ => .push)).nameTop names).scope
          = (c.scope.posts (names.map fun _ => .push)).nameTop names := by
        rw [← Ctx.scope_posts]
        rfl
      have hbody := body.scans (c := (c.posts (names.map fun _ => .push)).nameTop names)
        (start + Core.lengthOf (names.map fun _ => .push) inits) tail (hscope ▸ hok.2.2)
      rw [hscope, hinner] at hbody
      rw [Ctx.scope_posts, Scope.depth_posts_push] at hinits
      refine hinits.append (hbody.append ?_)
      cases names with
      | nil => exact Nat.zero_add _
      | cons x names =>
          refine .single ((congrArg Scope.depth hscope).trans hinner) ?_
          exact Nat.add_sub_cancel_left ..
  | .dynBind names inits body, hok => by
      have hinits := Core.scansAll start (names.map .bind) inits hok.2.1
        ((List.length_map _).trans hok.1)
      have hinner := c.scope.depth_posts_bind names
      have hbody := body.scans (c := c.posts (names.map .bind))
        (start + Core.lengthOf (names.map .bind) inits) false
        (by rw [Ctx.scope_posts]; exact hok.2.2)
      rw [Ctx.scope_posts, hinner] at hinits hbody
      refine hinits.append (hbody.append ?_)
      cases names with
      | nil => rfl
      | cons x names => exact .single ((congrArg Scope.depth (Ctx.scope_posts ..)).trans hinner) rfl
  | .lambda code copies maker, _ => by
      show Scans _ (genLambda c code copies maker) _
      unfold genLambda
      split
      · exact .single rfl rfl
      · exact scans_genJoin c code copies maker
  | .withCont k body, hok =>
      ⟨rfl, (body.scans (c := c.establish k _) (start + 1) false hok).append (.single rfl rfl)⟩
  | .loop body, hok => by
      have hbody := Core.scansAll start (body.map fun _ => .next) body hok (List.length_map _)
      rw [Ctx.posts_next] at hbody
      exact hbody.append (.single rfl rfl)
  | .call args operator, hok => by
      have hargs := Core.scansAll start (args.map fun _ => .push) args hok.1 (List.length_map _)
      have hoperator := operator.scans (c := c.posts (args.map fun _ => .push))
        (start + Core.lengthOf (args.map fun _ => .push) args) false
        (by rw [Ctx.scope_posts]; exact hok.2)
      refine hargs.append (hoperator.append (.single rfl ?_))
      rw [Ctx.scope_posts, Scope.depth_posts_push]
      cases tail <;> exact Nat.add_sub_cancel_left ..

/-- The code of parts one behind the other ends at the depth that they lead to. -/
theorem Core.scansAll {c : Ctx} (start : Nat) (posts : List Post) : (es : List Core) →
    Core.OkAll c.scope posts es → posts.length = es.length →
    Scans c.scope.depth (Core.genAll c start posts es) (c.posts posts).scope.depth
  | [], _, hlen => by
      obtain rfl := List.length_eq_zero_iff.1 hlen
      rfl
  | e :: es, hok, hlen => by
      cases posts with
      | nil => cases hlen
      | cons p posts =>
          have hrest := Core.scansAll (c := c.post p) (start + e.length + p.instrs.length) posts es
            hok.2 (Nat.succ.inj hlen)
          refine (e.scans start false hok.1).append (.append ?_ hrest)
          cases p with
          | next => rfl
          | push => exact .single rfl (Nat.add_comm ..)
          | bind x => exact .single rfl (Nat.zero_add _).symm

end

/-! ## Procedures -/

theorem Proc.scans {p : Proc} (hok : p.body.Ok p.scope) :
    Scans p.scope.depth p.sites p.scope.depth := by
  have hbody := (p.body.scans (c := p.ctx) p.entry.length p.tail hok).append
    (.single (s := p.ctx.site (some .any) ⟨.ret, 0, .nil⟩) rfl rfl)
  refine Scans.append ?_ hbody
  unfold Proc.entry
  split
  · exact .single rfl rfl
  · rfl

/-- The instructions in front of one say how deep the scope is there. -/
theorem Proc.depth_eq {p : Proc} {i : Nat} {s : Site} (hok : p.body.Ok p.scope)
    (hs : p.sites[i]? = some s) :
    s.scope.depth = (p.instrs.take i).foldl (fun slots ins => ins.leaves slots) p.scope.depth :=
  (Proc.scans hok).depth_eq hs

end CellLisp
