import CellLisp.Proofs.Code.Extent

/-!
# `CellLisp.Proofs.Code.Place` — the forms within a form

`Core.places` finds every form within a form, with the instruction that its code begins at and the
scope it was compiled in.  The code of each stands there (`Core.placed`), and what comes after it
finds the dynamic bindings that were there before.
-/

namespace CellLisp

/-- A form where its code stands. -/
structure Place where
  ctx : Ctx
  /-- Its first instruction. -/
  start : Nat
  tail : Bool
  form : Core

mutual

/-- The forms within a form, itself included. -/
def Core.places (c : Ctx) (start : Nat) (tail : Bool) : Core → List Place
  | .const v => [⟨c, start, tail, .const v⟩]
  | .ref x inlined => [⟨c, start, tail, .ref x inlined⟩]
  | .lambda code copies maker => [⟨c, start, tail, .lambda code copies maker⟩]
  | .assign x e => ⟨c, start, tail, .assign x e⟩ :: e.places c start false
  | .exit k e => ⟨c, start, tail, .exit k e⟩ :: e.places c start false
  | .cond a b d => ⟨c, start, tail, .cond a b d⟩ :: (a.places c start false ++
      (b.places c (start + a.length + 1) tail ++ d.places c (start + a.length + b.length + 2) tail))
  | .seq init last =>
    let posts := init.map fun _ => Post.next
    ⟨c, start, tail, .seq init last⟩ :: (Core.placesAll c start posts init ++
      last.places c (start + Core.lengthOf posts init) tail)
  | .bind names inits body =>
    let posts := names.map fun _ => Post.push
    ⟨c, start, tail, .bind names inits body⟩ :: (Core.placesAll c start posts inits ++
      body.places ((c.posts posts).nameTop names) (start + Core.lengthOf posts inits) tail)
  | .dynBind names inits body =>
    let posts := names.map Post.bind
    ⟨c, start, tail, .dynBind names inits body⟩ :: (Core.placesAll c start posts inits ++
      body.places (c.posts posts) (start + Core.lengthOf posts inits) false)
  | .withCont k body => ⟨c, start, tail, .withCont k body⟩ ::
      body.places (c.establish k (start + body.length + 2)) (start + 1) false
  | .loop body =>
    ⟨c, start, tail, .loop body⟩ :: Core.placesAll c start (body.map fun _ => .next) body
  | .call args operator =>
    let posts := args.map fun _ => Post.push
    ⟨c, start, tail, .call args operator⟩ :: (Core.placesAll c start posts args ++
      operator.places (c.posts posts) (start + Core.lengthOf posts args) false)

/-- The forms within parts one behind the other. -/
def Core.placesAll (c : Ctx) (start : Nat) (posts : List Post) : List Core → List Place
  | [] => []
  | e :: es =>
    match posts with
    | [] => []
    | p :: posts => e.places c start false ++
        Core.placesAll (c.post p) (start + e.length + p.instrs.length) posts es

end

/-- An instruction of a listing that finds that many dynamic bindings of its procedure. -/
def BoundAt (l : List Site) (n dyns : Nat) : Prop := ∃ s, l[n]? = some s ∧ s.shape.dyns = dyns

/-- The code of a form stands in a listing, and what comes after it is for the dynamic bindings
that were there before it. -/
structure Place.Stands (l : List Site) (x : Place) : Prop where
  ok : x.form.Ok x.ctx.scope
  segment : Segment l x.start (x.form.gen x.ctx x.start x.tail)
  next : BoundAt l (x.start + x.form.length) x.ctx.dyns

section Listing

variable {l : List Site}

theorem Segment.bound {xs : List Site} {y : Site} {start dyns : Nat}
    (h : Segment l start (y :: xs)) (hy : y.shape.dyns = dyns) : BoundAt l start dyns :=
  ⟨y, h.head, hy⟩

/-- The first instruction of a form finds the dynamic bindings that are there. -/
theorem Core.bound {c : Ctx} {start : Nat} {tail : Bool} {e : Core} (hok : e.Ok c.scope)
    (h : Segment l start (e.gen c start tail)) : BoundAt l start c.dyns := by
  obtain ⟨s, rest, he, hs⟩ := e.gen_head start tail hok
  exact Segment.bound (he ▸ h) (by rw [hs]; rfl)

theorem Core.boundAll {c : Ctx} {start : Nat} {posts : List Post} {es : List Core}
    (hok : Core.OkAll c.scope posts es) (hlen : posts.length = es.length)
    (h : Segment l start (Core.genAll c start posts es))
    (hnext : BoundAt l (start + Core.lengthOf posts es) (c.posts posts).dyns) :
    BoundAt l start c.dyns := by
  rcases Core.genAll_head start es hok hlen with rfl | ⟨s, rest, he, hs⟩
  · obtain rfl : posts = [] := by simpa using hlen
    exact hnext
  · exact Segment.bound (he ▸ h) (by rw [hs]; rfl)

mutual

/-- The forms within a form stand where their code does. -/
theorem Core.placed {c : Ctx} {start : Nat} {tail : Bool} : (e : Core) →
    Place.Stands l ⟨c, start, tail, e⟩ → ∀ x ∈ e.places c start tail, x.Stands l
  | .const _, h | .ref _ _, h | .lambda _ _ _, h => by
      simpa [Core.places] using h
  | .assign x e, h => by
      have hseg := h.segment
      rw [Core.gen] at hseg
      have hset := hseg.right rfl
      rw [e.length_gen] at hset
      rw [Core.places, List.forall_mem_cons]
      exact ⟨h, e.placed ⟨h.ok, hseg.left, hset.bound rfl⟩⟩
  | .exit k e, h => by
      have hseg := h.segment
      rw [Core.gen] at hseg
      have hexit := hseg.right rfl
      rw [e.length_gen] at hexit
      rw [Core.places, List.forall_mem_cons]
      exact ⟨h, e.placed ⟨h.ok.2, hseg.left, hexit.bound rfl⟩⟩
  | .cond a b d, h => by
      have hseg := h.segment
      rw [Core.gen] at hseg
      have htest := hseg.right rfl
      rw [a.length_gen] at htest
      have hjump := htest.tail.right rfl
      rw [b.length_gen] at hjump
      have hd : Segment l (start + a.length + b.length + 2)
          (d.gen c (start + a.length + b.length + 2) tail) := by
        have := hjump.tail
        rwa [show start + a.length + 1 + b.length + 1 = start + a.length + b.length + 2 by omega]
          at this
      have hnext := h.next
      rw [Core.length, show start + (a.length + b.length + d.length + 2)
        = start + a.length + b.length + 2 + d.length by omega] at hnext
      rw [Core.places, List.forall_mem_cons, List.forall_mem_append, List.forall_mem_append]
      exact ⟨h, a.placed ⟨h.ok.1, hseg.left, htest.bound rfl⟩,
        b.placed ⟨h.ok.2.1, htest.tail.left, hjump.bound rfl⟩, d.placed ⟨h.ok.2.2, hd, hnext⟩⟩
  | .seq init last, h => by
      have hseg := h.segment
      rw [Core.gen] at hseg
      have hlast := hseg.right rfl
      rw [Core.length_genAll] at hlast
      have hnext := h.next
      rw [Core.length, ← Nat.add_assoc] at hnext
      have hmid := Core.bound h.ok.2 hlast
      rw [← c.posts_next init] at hmid
      rw [Core.places, List.forall_mem_cons, List.forall_mem_append]
      exact ⟨h, Core.placedAll init h.ok.1 (by simp) hseg.left hmid,
        last.placed ⟨h.ok.2, hlast, hnext⟩⟩
  | .bind names inits body, h => by
      have hseg := h.segment
      have hok := h.ok
      have hlen : (names.map fun _ => Post.push).length = inits.length := by simp [hok.1]
      have hdyns := c.dyns_posts_push names
      rw [Core.Ok, ← c.scope_posts] at hok
      rw [Core.gen] at hseg
      have hrest := hseg.right rfl
      rw [Core.length_genAll] at hrest
      have hend := hrest.right rfl
      rw [body.length_gen] at hend
      have hmid := Core.bound hok.2.2 hrest.left
      have hnext := h.next
      rw [Core.length, ← Nat.add_assoc, ← Nat.add_assoc] at hnext
      rw [Core.places, List.forall_mem_cons, List.forall_mem_append]
      refine ⟨h, Core.placedAll inits hok.2.1 hlen hseg.left hmid,
        body.placed ⟨hok.2.2, hrest.left, ?_⟩⟩
      split at hend
      · rename_i hnames
        rw [if_pos hnames] at hnext
        exact hdyns ▸ hnext
      · exact hend.bound rfl
  | .dynBind names inits body, h => by
      have hseg := h.segment
      have hok := h.ok
      have hlen : (names.map Post.bind).length = inits.length := by simp [hok.1]
      rw [Core.Ok, ← c.scope_posts] at hok
      rw [Core.gen] at hseg
      have hrest := hseg.right rfl
      rw [Core.length_genAll] at hrest
      have hend := hrest.right rfl
      rw [body.length_gen] at hend
      have hmid := Core.bound hok.2.2 hrest.left
      have hnext := h.next
      rw [Core.length, ← Nat.add_assoc, ← Nat.add_assoc] at hnext
      rw [Core.places, List.forall_mem_cons, List.forall_mem_append]
      refine ⟨h, Core.placedAll inits hok.2.1 hlen hseg.left hmid,
        body.placed ⟨hok.2.2, hrest.left, ?_⟩⟩
      split at hend
      · rename_i hnames
        rw [if_pos hnames] at hnext
        obtain rfl := List.isEmpty_iff.1 hnames
        exact hnext
      · exact hend.bound rfl
  | .withCont k body, h => by
      have hseg := h.segment
      rw [Core.gen] at hseg
      have hpop := hseg.tail.right rfl
      rw [body.length_gen] at hpop
      rw [Core.places, List.forall_mem_cons]
      exact ⟨h, body.placed ⟨h.ok, hseg.tail.left, hpop.bound rfl⟩⟩
  | .loop body, h => by
      have hseg := h.segment
      rw [Core.gen] at hseg
      have hback := hseg.right rfl
      rw [Core.length_genAll] at hback
      rw [Core.places, List.forall_mem_cons]
      exact ⟨h, Core.placedAll body h.ok (by simp) hseg.left
        (hback.bound (by rw [c.posts_next body]; rfl))⟩
  | .call args operator, h => by
      have hseg := h.segment
      have hok := h.ok
      rw [Core.Ok, ← c.scope_posts] at hok
      rw [Core.gen] at hseg
      have hop := hseg.right rfl
      rw [Core.length_genAll] at hop
      have hcall := hop.right rfl
      rw [operator.length_gen] at hcall
      rw [Core.places, List.forall_mem_cons, List.forall_mem_append]
      exact ⟨h, Core.placedAll args hok.1 (by simp) hseg.left (Core.bound hok.2 hop.left),
        operator.placed ⟨hok.2, hop.left, hcall.bound rfl⟩⟩

theorem Core.placedAll {c : Ctx} {start : Nat} {posts : List Post} : (es : List Core) →
    Core.OkAll c.scope posts es → posts.length = es.length →
    Segment l start (Core.genAll c start posts es) →
    BoundAt l (start + Core.lengthOf posts es) (c.posts posts).dyns →
    ∀ x ∈ Core.placesAll c start posts es, x.Stands l
  | [], _, _, _, _ => by
      rw [Core.placesAll]
      exact List.forall_mem_nil _
  | e :: es, hok, hlen, hseg, hnext => by
      cases posts with
      | nil => simp at hlen
      | cons p posts =>
          rw [Core.genAll] at hseg
          rw [Core.lengthOf, ← Nat.add_assoc, ← Nat.add_assoc] at hnext
          have hpost := hseg.right rfl
          rw [e.length_gen] at hpost
          have hrest := hpost.right rfl
          rw [List.length_map] at hrest
          replace hlen : posts.length = es.length := by simpa using hlen
          rw [Core.placesAll, List.forall_mem_append]
          refine ⟨e.placed ⟨hok.1, hseg.left, ?_⟩,
            Core.placedAll (c := c.post p) es hok.2 hlen hrest hnext⟩
          cases p with
          | next => exact Core.boundAll (c := c.post .next) hok.2 hlen hrest hnext
          | push => exact hpost.bound rfl
          | bind x => exact hpost.bound rfl

end

/-! ## Dynamic binding forms -/

section DynBind

variable {x : Place} {names : List Value} {inits : List Core} {body : Core} {n : Nat} {s : Site}

/-- A dynamic binding form leaves alone what was bound before, and does not give up its frame. -/
theorem Place.Stands.inside (h : x.Stands l) (hx : x.form = .dynBind names inits body)
    (hn : x.start ≤ n) (hlt : n < x.start + x.form.length) (hs : l[n]? = some s) :
    x.ctx.dyns ≤ s.shape.dyns ∧ s.instr.op.givesUp = false := by
  have hseg := h.segment
  have hlen := x.form.length_gen x.ctx x.start x.tail
  have hextent : Extent x.ctx.dyns (2 * x.ctx.dyns) false (x.form.gen x.ctx x.start x.tail) := by
    have hstays : Extent x.ctx.dyns (2 * x.ctx.dyns) false (x.form.gen x.ctx x.start false) :=
      x.form.extent h.ok (Nat.le_refl _)
    rw [hx] at hstays ⊢
    exact hstays
  have hin := hseg (n - x.start) (by omega)
  rw [Nat.add_sub_cancel' hn, hs] at hin
  obtain ⟨hlow, -, hstays⟩ := hextent _ s hin.symm
  exact ⟨hlow, hstays rfl⟩

/-- What comes last undoes as many bindings as the form makes. -/
theorem Place.Stands.last (h : x.Stands l) (hx : x.form = .dynBind names inits body)
    (hnames : names ≠ []) (hn : n + 1 = x.start + x.form.length) :
    ∃ s, l[n]? = some s ∧ s.instr = ⟨.dynUnbind, names.length, .nil⟩ ∧
      s.shape.dyns = x.ctx.dyns + names.length := by
  have hseg := h.segment
  rw [hx, Core.gen] at hseg
  have hend := (hseg.right rfl).right rfl
  rw [Core.length_genAll, Core.length_gen, if_neg (by simpa using hnames)] at hend
  rw [hx, Core.length, if_neg (by simpa using hnames)] at hn
  have hhead := hend.head
  rw [show x.start + Core.lengthOf (names.map .bind) inits + body.length = n by omega] at hhead
  exact ⟨_, hhead, rfl, x.ctx.dyns_posts_bind names⟩

end DynBind

end Listing

/-! ## Procedures -/

/-- The forms of a procedure. -/
def Proc.places (p : Proc) : List Place := p.body.places p.ctx p.entry.length p.tail

theorem Proc.placed {p : Proc} (hok : p.body.Ok p.scope) : ∀ x ∈ p.places, x.Stands p.sites := by
  have hseg : Segment p.sites 0 p.sites := fun i _ => by rw [Nat.zero_add]
  have hbody := hseg.right rfl
  rw [Nat.zero_add] at hbody
  have hret := hbody.right rfl
  rw [Core.length_gen] at hret
  exact p.body.placed ⟨hok, hbody.left, hret.bound rfl⟩

end CellLisp
