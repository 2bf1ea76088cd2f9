import CellLisp.Proofs.Code.Place
import CellLisp.Proofs.Machine.Run

/-!
# `CellLisp.Proofs.Machine.Within` — a run inside a dynamic binding form

From when it comes to a dynamic binding form until it is out of that, a run keeps the frame that it
is in, and the dynamic bindings that this frame had (`Run.within`): what it calls has frames on
top, and the code of the form touches none of the older bindings.  How many there are is seen from
the place in the code.
-/

namespace CellLisp

/-! ## Frames -/

/-- A frame is in a pile, on top of others, with the dynamic bindings that it had and maybe more. -/
def Frame.Under (f : Frame) (fs pile : List Frame) : Prop :=
  ∃ gs g, pile = gs ++ g :: fs ∧ g.proc = f.proc ∧ g.args.length = f.args.length ∧
    f.dyns <:+ g.dyns

/-- Where the frame pointer is in a frame on top of others. -/
def Frame.base (f : Frame) (fs : List Frame) (o : Machine) : Nat :=
  f.args.length + (slotsOf fs o).length + 3

section Frames

variable {w w' : System} {o : Machine} {fs gs pile pile' : List Frame} {f g : Frame} {op : Opcode}
  {place : Return}

theorem Frame.Under.refl (f : Frame) (fs : List Frame) : f.Under fs (f :: fs) :=
  ⟨[], f, rfl, rfl, rfl, List.suffix_rfl⟩

/-- A frame has more slots than its base is high. -/
theorem Frame.base_le (f : Frame) (gs fs : List Frame) (o : Machine) :
    f.base fs o ≤ (slotsOf (gs ++ f :: fs) o).length := by
  simp only [Frame.base, slotsOf_append, slotsOf_cons, Frame.below, Frame.saved, List.length_append,
    List.length_cons, List.length_nil]
  omega

theorem Frame.lt_base (f : Frame) (fs : List Frame) (o : Machine) :
    (slotsOf fs o).length < f.base fs o := by
  unfold Frame.base
  omega

theorem Stands.fp_eq (h : Stands w o (f :: fs)) : w.state.machine.fp = f.base fs o :=
  h.exists_place.1.fp

/-- The frame pointer is at the base of a frame in the pile only if that is the newest. -/
theorem Stands.base_eq (h : Stands w o (gs ++ g :: fs)) (hfp : w.state.machine.fp = g.base fs o) :
    gs = [] := by
  cases gs with
  | nil => rfl
  | cons f gs =>
      have hbase : w.state.machine.fp = f.base (gs ++ g :: fs) o := h.fp_eq
      have hle := g.base_le gs fs o
      have hlt := f.lt_base (gs ++ g :: fs) o
      omega

/-- A frame stays in the pile as long as its own code does not give it up, and control does not go
back below it. -/
theorem Frame.Under.advances (h : f.Under fs pile) (hadvances : Advances op place pile pile')
    (hw : Stands w o pile) (hw' : Stands w' o pile')
    (hgives : w.state.machine.fp = f.base fs o → op.givesUp = false)
    (hbase : f.base fs o ≤ w'.state.machine.fp)
    (hdyns : w'.state.machine.fp = f.base fs o → ∀ site,
      f.proc.sites[w'.state.machine.pc]? = some site → f.dyns.length ≤ site.shape.dyns) :
    f.Under fs pile' := by
  obtain ⟨gs, g, rfl, hproc, hargs, hsuffix⟩ := h
  have hg : g.base fs o = f.base fs o := by rw [Frame.base, Frame.base, hargs]
  -- the frame itself goes on
  have hgoes {g' : Frame} (hbecomes : g.Becomes g') (hw' : Stands w' o (g' :: fs)) :
      f.Under fs (g' :: fs) := by
    have hproc' := hbecomes.proc.trans hproc
    have hargs' := hbecomes.args.trans hargs
    refine ⟨[], g', rfl, hproc', hargs', ?_⟩
    obtain ⟨-, site, hsite, hlen⟩ := hw'.exists_place
    have hle := hdyns (by rw [hw'.fp_eq, Frame.base, Frame.base, hargs']) site (hproc' ▸ hsite)
    rcases hbecomes.dyns with hshort | ⟨b, hpush⟩
    · exact List.suffix_of_suffix_length_le hsuffix hshort (by omega)
    · exact hpush ▸ hsuffix.trans (List.suffix_cons _ _)
  generalize hpile : gs ++ g :: fs = pile at hadvances hw
  cases hadvances with
  | stays hbecomes =>
      cases gs with
      | nil =>
          obtain ⟨rfl, rfl⟩ := List.cons.inj hpile
          exact hgoes hbecomes hw'
      | cons h gs =>
          obtain ⟨rfl, rfl⟩ := List.cons.inj hpile
          exact ⟨_ :: gs, g, rfl, hproc, hargs, hsuffix⟩
  | calls hbecomes hsame =>
      cases gs with
      | nil =>
          obtain ⟨rfl, rfl⟩ := List.cons.inj hpile
          exact ⟨[_], _, rfl, hbecomes.proc.trans hproc, hbecomes.args.trans hargs, hsame ▸ hsuffix⟩
      | cons h gs =>
          obtain ⟨rfl, rfl⟩ := List.cons.inj hpile
          exact ⟨_ :: _ :: gs, g, rfl, hproc, hargs, hsuffix⟩
  | @leaves hs fs' h h' _ hbecomes hshort =>
      rcases List.append_eq_append_iff.1 hpile with ⟨xs, rfl, hrest⟩ | ⟨xs, rfl, hrest⟩
      · cases xs with
        | nil =>
            obtain ⟨rfl, rfl⟩ := List.cons.inj hrest
            exact hgoes hbecomes hw'
        | cons x xs =>
            -- control went back below the frame
            obtain ⟨-, rfl⟩ := List.cons.inj hrest
            have hlow : w'.state.machine.fp = h.base fs' o :=
              hw'.fp_eq.trans (by rw [Frame.base, hbecomes.args, ← Frame.base])
            have hle := h.base_le xs fs' o
            have hlt := f.lt_base (xs ++ h :: fs') o
            have hbase : f.base (xs ++ h :: fs') o ≤ w'.state.machine.fp := hbase
            omega
      · cases xs with
        | nil =>
            obtain ⟨rfl, rfl⟩ := List.cons.inj hrest
            exact hgoes hbecomes hw'
        | cons x xs =>
            obtain ⟨-, rfl⟩ := List.cons.inj hrest
            exact ⟨_ :: xs, g, rfl, hproc, hargs, hsuffix⟩
  | givesUp hop hnew _ _ =>
      cases gs with
      | nil =>
          obtain ⟨rfl, rfl⟩ := List.cons.inj hpile
          rw [hgives (hw.fp_eq.trans hg)] at hop
          cases hop
      | cons h gs =>
          obtain ⟨rfl, rfl⟩ := List.cons.inj hpile
          exact ⟨_ ++ gs, g, (List.append_assoc _ _ _).symm, hproc, hargs, hsuffix⟩

end Frames

/-! ## Forms -/

/-- From `a`, where a run has come to a form, it has come to `u` inside the form, in the same frame
or in one above. -/
def Place.Contains (x : Place) (a u : State) : Prop :=
  a.machine.fp < u.machine.fp ∨
    u.machine.fp = a.machine.fp ∧ x.start ≤ u.machine.pc ∧ u.machine.pc < x.start + x.form.length

/-- It has come to `u` inside the form or just behind it. -/
def Place.Reaches (x : Place) (a u : State) : Prop :=
  x.Contains a u ∨ u.machine.fp = a.machine.fp ∧ u.machine.pc = x.start + x.form.length

section Forms

variable {m : Mode} {d : Nat} {o w : System} {f : Frame} {fs pile : List Frame} {x : Place}
  {names : List Value} {inits : List Core} {body : Core} {a s : State} {procedure : Value}
  {args : Array Value} {newer older : List State}

/-- Where a run is in the frame that came to a form, the place says how many bindings are older
than the form, at least. -/
theorem Place.Reaches.dyns_le (h : x.Reaches a s) (hx : x.Stands f.proc.sites)
    (hform : x.form = .dynBind names inits body) (hfp : s.machine.fp = a.machine.fp) {site : Site}
    (hsite : f.proc.sites[s.machine.pc]? = some site) : x.ctx.dyns ≤ site.shape.dyns := by
  rcases h with (habove | ⟨-, hstart, hend⟩) | ⟨-, hend⟩
  · omega
  · exact (hx.inside hform hstart hend hsite).1
  · obtain ⟨site', hsite', hdyns⟩ := hx.next
    rw [← hend, hsite] at hsite'
    obtain rfl := Option.some.inj hsite'
    exact Nat.le_of_eq hdyns.symm

/-- The frame that came to a form stays in the pile for an instruction inside it. -/
theorem Underway.under_next (h : Underway m d o w pile) (hg : Ground m d o)
    (hpermits : w.state.Permits m o.state.machine) (hstep : step w.state = .ok false s)
    (hx : x.Stands f.proc.sites) (hform : x.form = .dynBind names inits body)
    (hfp : a.machine.fp = f.base fs o.state.machine) (hdyns : f.dyns.length = x.ctx.dyns)
    (hunder : f.Under fs pile) (hin : x.Contains a w.state) (hout : x.Reaches a s) :
    ∃ w' pile', w'.state = s ∧ Underway m d o w' pile' ∧ f.Under fs pile' := by
  obtain ⟨ins, w', pile', hins, rfl, -, hnext, hadvances⟩ := h.next hg hpermits hstep
  refine ⟨w', pile', rfl, hnext, hunder.advances hadvances h.stands hnext.stands ?_ ?_ ?_⟩
  · intro hbase
    obtain ⟨gs, g, rfl, hproc, hargs, -⟩ := hunder
    have hgbase : g.base fs o.state.machine = f.base fs o.state.machine := by
      rw [Frame.base, Frame.base, hargs]
    have hstands := h.stands
    obtain rfl := hstands.base_eq (hbase.trans hgbase.symm)
    obtain ⟨hok, site, hsite, -⟩ := hstands.exists_place
    obtain rfl := Option.some.inj ((hok.instr? hsite).symm.trans hins)
    rcases hin with habove | ⟨-, hstart, hend⟩
    · omega
    · exact (hx.inside hform hstart hend (hproc ▸ hsite)).2
  · rcases hout with (habove | ⟨hsame, -⟩) | ⟨hsame, -⟩ <;> omega
  · intro hbase site hsite
    rw [hdyns]
    exact hout.dyns_le hx hform (hbase.trans hfp.symm) hsite

/-- The frame that came to a form stays in the pile as long as the run is inside the form. -/
theorem Run.under (h : Run procedure args o.state (s :: (newer ++ a :: older)))
    (hg : Ground m d o.launched)
    (hpermits : ∀ u ∈ newer ++ a :: older, u.Permits m o.launched.state.machine)
    (hwa : w.state = a) (hw : Underway m d o.launched w (f :: fs)) (hx : x.Stands f.proc.sites)
    (hform : x.form = .dynBind names inits body) (hstart : a.machine.pc = x.start)
    (hdyns : f.dyns.length = x.ctx.dyns) (hin : ∀ u ∈ newer, x.Contains a u)
    (hout : x.Reaches a s) :
    ∃ w' pile, w'.state = s ∧ Underway m d o.launched w' pile ∧ f.Under fs pile := by
  have hfp : a.machine.fp = f.base fs o.launched.state.machine := hwa ▸ hw.stands.fp_eq
  have hfirst : x.Contains a a := by
    refine .inr ⟨rfl, Nat.le_of_eq hstart.symm, ?_⟩
    have := Core.length_pos hx.ok
    omega
  induction newer generalizing s with
  | nil =>
      obtain - | ⟨-, hstep⟩ := h
      subst hwa
      exact hw.under_next hg (hpermits _ (by simp)) hstep hx hform hfp hdyns (.refl f fs) hfirst hout
  | cons u newer ih =>
      obtain - | ⟨h, hstep⟩ := h
      obtain ⟨w₁, pile, rfl, hunder, hpile⟩ := ih h (fun v hv => hpermits v (List.mem_cons_of_mem _ hv))
        (fun v hv => hin v (List.mem_cons_of_mem _ hv)) (.inl (hin u (by simp)))
      exact hunder.under_next hg (hpermits _ (by simp)) hstep hx hform hfp hdyns hpile
        (hin _ (by simp)) hout

/-- Inside a dynamic binding form, in the frame that came to it, the place in the code says how
many bindings there are on top of those that were there before. -/
theorem Run.within (h : Run procedure args o.state (s :: (newer ++ a :: older)))
    (hg : Ground m d o.launched)
    (hpermits : ∀ u ∈ newer ++ a :: older, u.Permits m o.launched.state.machine)
    (hwa : w.state = a) (hw : Underway m d o.launched w (f :: fs)) (hx : x.Stands f.proc.sites)
    (hform : x.form = .dynBind names inits body) (hstart : a.machine.pc = x.start)
    (hin : ∀ u ∈ newer, x.Contains a u) (hout : x.Reaches a s)
    (hfp : s.machine.fp = a.machine.fp) :
    ∃ site ds, f.proc.sites[s.machine.pc]? = some site ∧
      s.heap.instr? s.machine.code s.machine.pc = some site.instr ∧
        s.machine.bindings = ds ++ a.machine.bindings ∧ ds.length + x.ctx.dyns = site.shape.dyns := by
  have hplace := hw.stands.exists_place
  have hdyns : f.dyns.length = x.ctx.dyns := by
    obtain ⟨-, site, hsite, hlen⟩ := hplace
    obtain ⟨site', hsite', hctx⟩ := Core.bound hx.ok hx.segment
    rw [hwa, hstart] at hsite
    obtain rfl := Option.some.inj (hsite.symm.trans hsite')
    exact hlen.symm.trans hctx
  obtain ⟨w', pile, rfl, hunder, gs, g, rfl, hproc, hargs, ds, hds⟩ :=
    h.under hg hpermits hwa hw hx hform hstart hdyns hin hout
  have hbase : w'.state.machine.fp = g.base fs o.launched.state.machine := by
    rw [hfp, ← hwa, hw.stands.fp_eq, Frame.base, Frame.base, hargs]
  have hstands := hunder.stands
  obtain rfl := hstands.base_eq hbase
  obtain ⟨hok, site, hsite, hlen⟩ := hstands.exists_place
  refine ⟨site, ds, hproc ▸ hsite, hok.instr? hsite, ?_, ?_⟩
  · rw [hstands.shows.bindings, ← hwa, hw.stands.shows.bindings, List.nil_append, bindingsOf_cons,
      bindingsOf_cons, ← hds, List.append_assoc]
  · rw [hlen, ← hds, List.length_append, hdyns]

end Forms

end CellLisp
