import CellLisp.Proofs.State.Held
import CellLisp.Proofs.Syntax.Frames

/-!
# `CellLisp.Proofs.State.Reader` — reading on typed states

The reader keeps the elements of open lists among the protected values, from a depth on, and
these are good (`System.Rooted`).  Of the constructs still open only the innermost can hold a
value itself, the form behind a dot, and then nothing is allocated before it is closed.

| | leads to |
| :-- | :-- |
| `leads_deliver` | a form or constructs still open |
| `yields_read` | the first form of a text |
| `yields_readAll` | all forms of a text, in a list |
| `leads_all` | the forms of a text, kept |
-/

namespace CellLisp

/-- The protected values from a depth on are good. -/
structure System.Rooted (w : System) (d : Nat) : Prop where
  depth : d ≤ w.state.roots.size
  proper : ∀ k v, d ≤ k → w.state.roots[k]? = some v → Proper w.plans v

/-- The constructs still open: only the innermost may hold a form. -/
def Reader.FramesOk (d : Nat) (w : System) : List Reader.Frame → Prop
  | .ended base tail :: rest => d ≤ base ∧ w.Good tail ∧ ∀ f ∈ rest, f.Open d
  | frames => ∀ f ∈ frames, f.Open d

/-- What a token leads to is in order. -/
def Reader.OutcomeOk (d : Nat) (w : System) : Reader.Outcome → Prop
  | .more frames => Reader.FramesOk d w frames
  | .done form => w.Good form

section Reader

variable {m : Mode} {d : Nat} {w w' : System}

theorem System.Rooted.good (hr : w.Rooted d) {k : Nat} {v : Value} (hk : d ≤ k)
    (hv : w.state.roots[k]? = some v) : w.Good v :=
  ⟨w.holds_of_root (List.mem_of_getElem? (i := k) (by rw [Array.getElem?_toList]; exact hv)),
    hr.proper k v hk hv⟩

theorem System.Rooted.of_roots (hr : w.Rooted d) (hroots : w'.state.roots = w.state.roots)
    (hkept : ∀ u ∈ w.state.rootValues, w.Good u → w'.Good u) : w'.Rooted d := by
  refine ⟨by rw [hroots]; exact hr.depth, fun k v hk hv => ?_⟩
  rw [hroots] at hv
  have hmem : v ∈ w.state.roots.toList :=
    List.mem_of_getElem? (i := k) (by rw [Array.getElem?_toList]; exact hv)
  refine (hkept v ?_ (hr.good hk hv)).proper
  simp only [State.rootValues, List.mem_append]
  simp [hmem]

theorem System.Rooted.grown {A : List Value} (hr : w.Rooted d) (hg : Grown A w w') :
    w'.Rooted d :=
  hr.of_roots hg.roots fun _ hu h => hg.good h (List.mem_append_left _ hu)

theorem System.Rooted.guarding {v : Value} (hr : w.Rooted d) (hv : w.Good v) :
    (w.guarding hv.holds).Rooted d := by
  refine ⟨?_, fun k u hk hu => ?_⟩
  · show d ≤ (w.state.roots.push v).size
    have := hr.depth
    rw [Array.size_push]
    omega
  · have hget : (w.state.roots.push v)[k]? = some u := hu
    rw [Array.getElem?_push] at hget
    split at hget
    · obtain rfl := Option.some.inj hget
      exact hv.proper
    · exact hr.proper k u hk hget

theorem System.Rooted.cut (hr : w.Rooted d) {depth : Nat} (hd : d ≤ depth) :
    (w.cut depth).Rooted d := by
  refine ⟨?_, fun k u hk hu => ?_⟩
  · show d ≤ (w.state.roots.shrink depth).size
    have := hr.depth
    rw [Array.size_shrink]
    omega
  · refine hr.proper k u hk ?_
    have hget : (w.state.roots.shrink depth)[k]? = some u := hu
    rw [← Array.getElem?_toList, Array.toList_shrink, List.getElem?_take] at hget
    split at hget
    · rw [← Array.getElem?_toList]
      exact hget
    · cases hget

theorem System.good_getD (hr : w.Rooted d) {k : Nat} (hk : d ≤ k) :
    w.Good (w.state.roots.getD k .nil) := by
  rw [Array.getD_eq_getD_getElem?]
  cases hv : w.state.roots[k]? with
  | none => exact w.good_nil
  | some v => exact hr.good hk hv

/-- Protected values in front of a list. -/
theorem leads_consRoots {base n : Nat} {tail : Value} (hr : w.Rooted d) (hd : d ≤ base)
    (ht : w.Good tail) :
    Leads (Stable m d) (consRoots base n tail) w fun v w' => w'.Good v ∧ w'.Rooted d := by
  induction n generalizing w tail with
  | zero => exact Leads.pure ⟨ht, hr⟩
  | succ n ih =>
      refine Leads.bind (Leads.gets (Q := fun v w' => w = w' ∧ v = w.state.roots.getD (base + n) .nil)
        ⟨rfl, rfl⟩) ?_
      rintro _ _ - ⟨rfl, rfl⟩
      refine Leads.bind (leads_cons (System.good_getD hr (by omega)) ht).stable ?_
      rintro v w₁ - ⟨hg, hv, -⟩
      exact ih (hr.grown hg) hv

theorem leads_listFromRoots {base : Nat} {tail : Value} (hr : w.Rooted d) (hd : d ≤ base)
    (ht : w.Good tail) :
    Leads (Stable m d) (listFromRoots base tail) w fun v w' => w'.Good v ∧ w'.Rooted d := by
  unfold listFromRoots
  refine Leads.bind (Leads.gets (Q := fun _ w' => w = w') rfl) ?_
  rintro n _ - rfl
  exact leads_consRoots hr hd ht

/-- A form goes to the construct it belongs to. -/
theorem leads_deliver {form : Value} {frames : List Reader.Frame} (hr : w.Rooted d)
    (hform : w.Good form) (hframes : ∀ f ∈ frames, f.Open d) :
    Leads (Stable m d) (Reader.deliver form frames) w fun o w' =>
      Reader.OutcomeOk d w' o ∧ w'.Rooted d := by
  induction frames generalizing w form with
  | nil => exact Leads.pure ⟨hform, hr⟩
  | cons f rest ih =>
      have hrest : ∀ f ∈ rest, f.Open d := fun f hf => hframes f (List.mem_cons_of_mem _ hf)
      have hopen := hframes f List.mem_cons_self
      cases f with
      | quoted =>
          refine Leads.bind (leads_cons hform w.good_nil).stable ?_
          rintro body w₁ - ⟨hg, hbody, -⟩
          refine Leads.bind (Leads.gets (Q := fun v w' => w₁ = w' ∧ v = w₁.state.known.quote)
            ⟨rfl, rfl⟩) ?_
          rintro _ _ - ⟨rfl, rfl⟩
          have hquote : w₁.Good w₁.state.known.quote := System.good_of_known (by simp [WellKnown.symbols])
          refine Leads.bind (leads_cons hquote hbody).stable ?_
          rintro v w₂ - ⟨hg', hv, -⟩
          exact ih ((hr.grown hg).grown hg') hv hrest
      | list base =>
          refine Leads.bind (leads_protect hform.holds hr.depth) ?_
          rintro place w₁ - ⟨-, rfl⟩
          exact Leads.pure ⟨hframes, hr.guarding hform⟩
      | dotted base => exact Leads.pure ⟨⟨hopen, hform, hrest⟩, hr⟩
      | ended base tail => exact hopen.elim

/-- A list is completed. -/
theorem leads_close {base : Nat} {tail : Value} {rest : List Reader.Frame} (hr : w.Rooted d)
    (hd : d ≤ base) (ht : w.Good tail) (hrest : ∀ f ∈ rest, f.Open d) :
    Leads (Stable m d) (Reader.close base tail rest) w fun o w' =>
      Reader.OutcomeOk d w' o ∧ w'.Rooted d := by
  unfold Reader.close
  refine Leads.bind (leads_listFromRoots hr hd ht) ?_
  rintro v w₁ - ⟨hv, hr₁⟩
  refine Leads.bind (Leads.change (u := w₁.cut base) rfl (w₁.stable_cut hd)
    (Q := fun _ w' => w' = w₁.cut base) rfl) ?_
  rintro _ _ - rfl
  exact leads_deliver (hr₁.cut hd) ⟨hv.holds, hv.proper⟩ hrest

/-- One token. -/
theorem leads_step {t : Token} {frames : List Reader.Frame} (hr : w.Rooted d)
    (hframes : Reader.FramesOk d w frames) :
    Leads (Stable m d) (Reader.step t frames) w fun o w' =>
      Reader.OutcomeOk d w' o ∧ w'.Rooted d := by
  unfold Reader.step
  split
  · exact Leads.fail _
  · exact leads_close hr hframes.1 hframes.2.1 hframes.2.2
  · exact Leads.fail _
  · have hbase := hframes _ List.mem_cons_self
    exact leads_close hr hbase w.good_nil fun f hf => hframes f (List.mem_cons_of_mem _ hf)
  · exact Leads.fail _
  · rename_i base rest
    refine Leads.bind (Leads.gets (Q := fun _ w' => w = w') rfl) ?_
    rintro n _ - rfl
    split
    · exact Leads.fail _
    · refine Leads.pure ⟨fun f hf => ?_, hr⟩
      rcases List.mem_cons.1 hf with rfl | hf
      · exact hframes (.list base) List.mem_cons_self
      · exact hframes f (List.mem_cons_of_mem _ hf)
  · exact Leads.fail _
  all_goals
    have hopen : ∀ f ∈ frames, f.Open d := by
      cases frames with
      | nil => nofun
      | cons f rest =>
          cases f with
          | ended base tail => simp_all
          | list | dotted | quoted => exact hframes
  · refine Leads.bind (Leads.gets (Q := fun n w' => w = w' ∧ n = w.state.roots.size) ⟨rfl, rfl⟩) ?_
    rintro _ _ - ⟨rfl, rfl⟩
    refine Leads.pure ⟨fun f hf => ?_, hr⟩
    rcases List.mem_cons.1 hf with rfl | hf
    · exact hr.depth
    · exact hopen f hf
  · refine Leads.pure ⟨fun f hf => ?_, hr⟩
    rcases List.mem_cons.1 hf with rfl | hf
    · trivial
    · exact hopen f hf
  · refine Leads.bind (leads_makeString w _).stable ?_
    rintro v w₁ - ⟨hg, hv⟩
    exact leads_deliver (hr.grown hg) hv hopen
  · unfold Reader.atomValue
    split
    · rename_i n _
      refine Leads.bind (Leads.pure (Q := fun v w' => w = w' ∧ v = .ofNumber n) ⟨rfl, rfl⟩) ?_
      rintro _ _ - ⟨rfl, rfl⟩
      refine leads_deliver hr (w.good_of_cell?_eq_none ?_) hopen
      cases n <;> rfl
    · refine Leads.bind (leads_intern w _) ?_
      rintro v w₁ - ⟨hv, hroots, hkept⟩
      exact leads_deliver (hr.of_roots hroots hkept) hv hopen

/-- Up to the end of the first form. -/
theorem leads_first {ts : List Token} {frames : List Reader.Frame} (hr : w.Rooted d)
    (hframes : Reader.FramesOk d w frames) :
    Leads (Stable m d) (Reader.first ts frames) w fun v w' => w'.Good v := by
  induction ts generalizing w frames with
  | nil => exact Leads.fail _
  | cons t ts ih =>
      refine Leads.bind (leads_step hr hframes) ?_
      rintro o w₁ - ⟨ho, hr₁⟩
      cases o with
      | done form => exact Leads.pure ho
      | more frames => exact ih hr₁ ho

/-- All forms are kept. -/
theorem leads_all {ts : List Token} {frames : List Reader.Frame} (hr : w.Rooted d)
    (hframes : Reader.FramesOk d w frames) :
    Leads (Stable m d) (Reader.all ts frames) w fun _ w' => w'.Rooted d := by
  induction ts generalizing w frames with
  | nil =>
      rw [Reader.all]
      split
      · exact Leads.fail _
      · exact Leads.pure hr
  | cons t ts ih =>
      refine Leads.bind (leads_step hr hframes) ?_
      rintro o w₁ - ⟨ho, hr₁⟩
      cases o with
      | done form =>
          refine Leads.bind (leads_protect ho.holds hr₁.depth) ?_
          rintro place w₂ - ⟨-, rfl⟩
          exact ih (hr₁.guarding ho) nofun
      | more frames => exact ih hr₁ ho

theorem System.rooted_size (w : System) : w.Rooted w.state.roots.size :=
  ⟨Nat.le_refl _, fun k v hk hv => by simp [Array.getElem?_eq_none hk] at hv⟩

end Reader

section Read

variable {m : Mode} {d : Nat} {w : System}

theorem System.Good.cut {v : Value} (hv : w.Good v) (depth : Nat) : (w.cut depth).Good v :=
  ⟨hv.holds, hv.proper⟩

/-- The first form of a text. -/
theorem yields_read (text : String) (hd : d ≤ w.state.roots.size) : Yields m d (read text) w := by
  have h : Leads (Stable m w.state.roots.size) (Reader.first (Token.ofString text) []) w
      fun v w' => w'.Good v := leads_first w.rooted_size nofun
  exact Leads.withRoots (h.weaken fun _ hs => hs.of_le hd) hd fun _ _ _ hv => hv.cut _

/-- All forms of a text, in a list that programs may get hold of. -/
theorem yields_readAll (text : String) (hd : d ≤ w.state.roots.size) :
    Yields m d (readAll text) w := by
  refine Leads.withRoots (Q := fun v w' => w'.Good v) ?_ hd fun _ _ _ hv => hv.cut _
  refine Leads.bind (Leads.gets (Q := fun n w' => w = w' ∧ n = w.state.roots.size) ⟨rfl, rfl⟩) ?_
  rintro _ _ - ⟨rfl, rfl⟩
  have hall : Leads (Stable m w.state.roots.size) (Reader.all (Token.ofString text) []) w
      fun _ w' => w'.Rooted w.state.roots.size := leads_all w.rooted_size nofun
  refine Leads.bind (hall.weaken fun _ hs => hs.of_le hd) ?_
  rintro _ w₁ - hr
  have hlist : Leads (Stable m w.state.roots.size) (listFromRoots w.state.roots.size .nil) w₁
      fun v w' => w'.Good v ∧ w'.Rooted w.state.roots.size :=
    leads_listFromRoots hr (Nat.le_refl _) w₁.good_nil
  exact Leads.mono (hlist.weaken fun _ hs => hs.of_le hd) fun _ _ _ hv => hv.1

end Read

end CellLisp
