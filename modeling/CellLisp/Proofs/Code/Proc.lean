import CellLisp.Proofs.Code.Verify

/-!
# `CellLisp.Proofs.Code.Proc` — whole procedures

The code of a procedure is that of its body with the return behind it, and in front of it
the instruction that collects the arguments past the required ones, if it takes any number
of them.  `Proc.verified` says that it is safe.
-/

namespace CellLisp

/-! ## Procedures -/

/-- A procedure: the scope its body is compiled in, the arguments it requires if it takes
any number of them, and its body. -/
structure Proc where
  scope : Scope
  least? : Option Nat
  tail : Bool
  body : Core
  deriving Inhabited

/-- What the words of an entry hold; the environment has `n` copies. -/
def Entry.kinds (n : Nat) : Entry → List Kind
  | .var _ | .temp => [.any]
  | .env => [.env n]
  | .frame => [.saved, .saved, .saved]
  | .dynamic _ => []

theorem models_flatMap_kinds (n : Nat) (es : List Entry) :
    Models n es (es.flatMap (Entry.kinds n)) := by
  induction es with
  | nil => exact .nil
  | cons e es ih =>
      rw [List.flatMap_cons]
      cases e with
      | var x => exact .var ih
      | env => exact .env ih
      | frame => exact .frame ih
      | temp => exact .temp ih
      | dynamic x => exact .dynamic ih

namespace Proc

/-- Words of its frame below the operands, the top first. -/
def fixed (p : Proc) : List Kind := p.scope.entries.flatMap (Entry.kinds p.scope.copies)

/-- Where its body begins. -/
def ctx (p : Proc) : Ctx := ⟨p.scope, [], [], 0⟩

/-- Instructions in front of the body. -/
def entry (p : Proc) : List Site :=
  match p.least? with
  | some least => [p.ctx.site (some .saved) ⟨.varargs, least, .nil⟩]
  | none => []

/-- Its code. -/
def sites (p : Proc) : List Site :=
  p.entry ++ (p.body.gen p.ctx p.entry.length p.tail
    ++ [p.ctx.site (some .any) ⟨.ret, 0, .nil⟩])

/-- A procedure that takes any number of arguments begins with the instruction that collects
them. -/
theorem sites_zero {p : Proc} {least : Nat} (h : p.least? = some least) :
    p.sites[0]? = some (p.ctx.site (some .saved) ⟨.varargs, least, .nil⟩) := by
  simp [sites, entry, h]

/-- Its instructions. -/
def instrs (p : Proc) : List Instr := p.sites.map (·.instr)

/-- Copies in its environment. -/
def copies (p : Proc) : Nat := p.scope.copies

theorem coherent_ctx {p : Proc} (hc : p.scope.conts = []) (l : List Site) :
    Coherent p.fixed l p.ctx :=
  ⟨models_flatMap_kinds _ _, by simp [ctx, hc], trivial⟩

/-- The code of a procedure is safe. -/
theorem verified {p : Proc} (hc : p.scope.conts = []) (hok : p.body.Ok p.scope) :
    Verified p.fixed p.least?.isSome p.sites := by
  have hseg : Segment p.sites 0 p.sites := fun i _ => by rw [Nat.zero_add]
  have hcoh := coherent_ctx hc p.sites
  have hbody := hseg.right rfl
  rw [Nat.zero_add] at hbody
  have hret := hbody.right rfl
  rw [Core.length_gen] at hret
  have hin := Core.arrives hok hbody.left
  have hsafe := p.body.safe hcoh hok (fun _ => ⟨rfl, rfl⟩) hbody.left (hret.arrives rfl)
  have hlast : SiteOk p.fixed p.sites (p.entry.length + p.body.length)
      (p.ctx.site (some .any) ⟨.ret, 0, .nil⟩) :=
    hcoh.siteOk (k := .any) ⟨rfl, rfl, rfl⟩ (by simp)
  have hall : SegmentOk p.fixed p.sites p.entry.length
      (p.body.gen p.ctx p.entry.length p.tail ++ [p.ctx.site (some .any) ⟨.ret, 0, .nil⟩]) := by
    refine .append hsafe ?_
    rw [Core.length_gen]
    exact segmentOk_singleton hlast
  -- a site of the whole is the first one, if that collects arguments, or one of the body
  have hsplit : ∀ i s, p.sites[i]? = some s →
      (i = 0 ∧ p.least?.isSome ∧ ∃ least, s = p.ctx.site (some .saved) ⟨.varargs, least, .nil⟩) ∨
      (SiteOk p.fixed p.sites i s ∧ (p.least?.isSome → i ≠ 0)) := by
    intro i s hs
    cases hl : p.least? with
    | none =>
        have hnil : p.entry = [] := by simp [entry, hl]
        have := hall i s (by simpa [sites, hnil] using hs)
        rw [hnil, List.length_nil, Nat.zero_add] at this
        exact .inr ⟨this, by simp⟩
    | some least =>
        have hone : p.entry = [p.ctx.site (some .saved) ⟨.varargs, least, .nil⟩] := by simp [entry, hl]
        cases i with
        | zero =>
            refine .inl ⟨rfl, rfl, least, ?_⟩
            simpa [sites, hone] using hs.symm
        | succ i =>
            have := hall i s (by simpa [sites, hone] using hs)
            rw [hone, List.length_singleton, Nat.add_comm] at this
            exact .inr ⟨this, by simp⟩
  refine ⟨?_, fun i s hs => ?_, fun s hs => ?_, fun s hs => ?_, fun i s hs => ?_⟩
  · cases hl : p.least? with
    | none =>
        have hnil : p.entry = [] := by simp [entry, hl]
        rw [hnil] at hin
        exact hin
    | some least =>
        have hone : p.entry = [p.ctx.site (some .saved) ⟨.varargs, least, .nil⟩] := by simp [entry, hl]
        exact ⟨_, by rw [sites, hone]; rfl, rfl, fun k hk => hk⟩
  · rcases hsplit i s hs with ⟨rfl, hl, least, rfl⟩ | ⟨h, -⟩
    · refine ⟨rfl, rfl, rfl, ?_⟩
      obtain ⟨least, hl⟩ := Option.isSome_iff_exists.1 hl
      have hone : p.entry.length = 1 := by simp [entry, hl]
      rw [hone] at hin
      exact hin
    · exact h.safe
  · obtain ⟨i, hi, rfl⟩ := List.mem_iff_getElem.1 hs
    rcases hsplit i _ (List.getElem?_eq_getElem hi) with ⟨-, -, least, he⟩ | ⟨h, -⟩
    · rw [he]
      trivial
    · exact h.nested
  · obtain ⟨i, hi, rfl⟩ := List.mem_iff_getElem.1 hs
    rcases hsplit i _ (List.getElem?_eq_getElem hi) with ⟨-, -, least, he⟩ | ⟨h, -⟩
    · rw [he]
      exact hcoh.depth
    · exact h.depth
  · rcases hsplit i s hs with ⟨rfl, hl, least, rfl⟩ | ⟨h, hne⟩
    · simp [hl, Ctx.site]
    · exact ⟨fun he => absurd he h.inner, fun he => absurd he.1 (hne he.2)⟩

end Proc
end CellLisp
