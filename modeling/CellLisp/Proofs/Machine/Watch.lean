import CellLisp.Proofs.Machine.Loading
import CellLisp.Proofs.Machine.Return

/-!
# `CellLisp.Proofs.Machine.Watch` — calls that are watched

What is known of runs is known of those that join no environment to code by themselves, change no
list where lists are to stay, and set no symbol that is to stay outside their bindings of it.  A
`Watch` looks out for that while a run goes on; its `caller` calls a procedure as `invoke` does,
but stops for good where a run would do otherwise.

| | |
| :-- | :-- |
| `Watch.allows` | whether the next instruction is one of those |
| `Watch.admits` | whether all instructions of a run are |
| `Watch.steady` | calls that are watched leave what lasts as it is |
-/

namespace CellLisp

/-- What is looked out for. -/
structure Watch where
  /-- Lists are to stay as they are. -/
  pairs : Bool
  /-- Symbols whose global value is to stay. -/
  fixed : Nat → Bool

/-- Whether the next instruction leaves the global value of the symbols alone, or sets one that has
been bound since there were `depth` bindings. -/
def State.settles (s : State) (fixed : Nat → Bool) (depth : Nat) : Bool :=
  match s.heap.instr? s.machine.code s.machine.pc with
  | some ⟨.globalSet, _, symbol⟩ => symbol.cell?.all fun j =>
      !fixed j || (s.machine.bindingsFrom depth).any (·.symbol.cell? == some j)
  | _ => true

namespace Watch

/-- Whether the next instruction is allowed. -/
def allows (k : Watch) (depth : Nat) (s : State) : Bool :=
  s.permits k.pairs && s.settles k.fixed depth

/-- Whether the next `n` instructions of a run are. -/
def passes (k : Watch) (depth : Nat) : Nat → State → Bool
  | 0, _ => true
  | n + 1, s => k.allows depth s && match step s with
    | .ok false s' => k.passes depth n s'
    | _ => true

/-- Whether all instructions of a run are. -/
def admits (k : Watch) (procedure : Value) (args : Array Value) (s : State) : Bool :=
  s.heap.isTame k.pairs procedure && match beginRun procedure args (s.setRunning true) with
    | .ok _ t => k.passes s.machine.dyns.size t.config.stepLimit t
    | .error _ _ => true

/-- Calls a procedure, but stops for good if not all instructions of the run are allowed. -/
def caller (k : Watch) : Caller := fun procedure args s =>
  if k.admits procedure args s then invoke procedure args s else halt .corrupt s

section Watch

variable {k : Watch} {m : Mode} {depth n : Nat} {procedure : Value} {args : Array Value}
  {s : State} {base : Machine}

theorem permits_of_allows (h : k.allows base.dyns.size s = true) (hpairs : m.pairs = k.pairs)
    (hfixed : ∀ j, m.fixed j → k.fixed j = true) : s.Permits m base := by
  obtain ⟨htame, hsettles⟩ := Bool.and_eq_true_iff.1 h
  refine ⟨hpairs ▸ htame, fun ins hins hop j hj hm => ?_⟩
  obtain ⟨op, n, v⟩ := ins
  obtain rfl : op = .globalSet := hop
  unfold State.settles at hsettles
  simp only [hins, show v.cell? = some j from hj, Option.all_some, hfixed j hm, Bool.not_true,
    Bool.false_or, List.any_eq_true, beq_iff_eq] at hsettles
  exact hsettles

/-- When a run has ended after so many instructions, there are no more to be looked at. -/
theorem passes_of_ended (h : k.passes depth n s = true)
    (hended : ∀ c t, runSteps n s ≠ .error (.fatal c) t) (i : Nat) :
    k.passes depth i s = true := by
  induction n generalizing s i with
  | zero => exact absurd rfl (hended .stepLimit s)
  | succ n ih =>
      rw [passes, Bool.and_eq_true_iff] at h
      cases i with
      | zero => rfl
      | succ i =>
          rw [passes, Bool.and_eq_true_iff]
          refine ⟨h.1, ?_⟩
          have hrest := h.2
          cases hstep : step s with
          | error c t => rfl
          | ok stop t =>
              cases stop with
              | true => rfl
              | false =>
                  rw [hstep] at hrest
                  refine ih hrest (fun c u he => hended c u ?_) i
                  rw [runSteps, act_bind, hstep]
                  exact he

/-- Every instruction of a run that ends is allowed, if it is admitted. -/
theorem allows_of_run (h : k.admits procedure args s = true) (hidle : s.machine.running = false)
    (hended : ∀ c t, invoke procedure args s ≠ .error (.fatal c) t) {ss : List State}
    (hrun : Run procedure args s ss) : ∀ u ∈ ss, k.allows s.machine.dyns.size u = true := by
  have hpasses {t : State} (hbegin : beginRun procedure args (s.setRunning true) = .ok () t)
      (i : Nat) : k.passes s.machine.dyns.size i t = true := by
    have hadmits := (Bool.and_eq_true_iff.1 h).2
    rw [hbegin] at hadmits
    refine passes_of_ended hadmits (fun c u he => ?_) i
    have hbody : runBody procedure args (s.setRunning true) = .error (.fatal c) u := by
      rw [runBody_eq, act_bind, hbegin]
      exact he
    rcases invoke_idle procedure args hidle with ⟨_, he, -⟩ | ⟨_, _, _, he, -⟩ | ⟨_, _, -, hinvoke⟩
    · cases hbody.symm.trans he
    · cases hbody.symm.trans he
    · exact hended _ _ hinvoke
  have hall : (∀ t ∈ ss.head?, ∀ i, k.passes s.machine.dyns.size i t = true) ∧
      ∀ u ∈ ss, k.allows s.machine.dyns.size u = true := by
    induction hrun with
    | begins hbegin =>
        refine ⟨fun t ht => ?_, fun u hu => ?_⟩
        · obtain rfl := Option.some.inj ht
          exact hpasses hbegin
        · obtain rfl := List.mem_singleton.1 hu
          exact (Bool.and_eq_true_iff.1 (hpasses hbegin 1)).1
    | @goesOn t t' ts _ hstep ih =>
        have hhead (i : Nat) : k.passes s.machine.dyns.size i t' = true := by
          have hnext := (Bool.and_eq_true_iff.1 (ih.1 t rfl (i + 1))).2
          rwa [hstep] at hnext
        refine ⟨fun u hu => ?_, fun u hu => ?_⟩
        · obtain rfl := Option.some.inj hu
          exact hhead
        · rcases List.mem_cons.1 hu with rfl | hu
          · exact (Bool.and_eq_true_iff.1 (hhead 1)).1
          · exact ih.2 u hu
  exact hall.2

end Watch

end Watch

/-! ## Calls between runs -/

/-- No run is under way, and one may be launched. -/
structure System.Resting (w : System) : Prop extends w.Prepared where
  code : w.state.machine.code = .nil

section Calls

variable {k : Watch} {m : Mode} {d : Nat} {w w' : System} {procedure : Value} {args : Array Value}

/-- It stays so as long as only the value register changes. -/
theorem System.Resting.stable {target : Option Nat} (h : w.Resting) (hrests : m.rests = true)
    (hw : w.Spares target) (hs : Stable { m with target } d w w') : w'.Resting := by
  obtain ⟨val, argc, hmachine⟩ := hs.rests hrests
  have hidle := h.idle
  refine ⟨⟨?_, h.halts.spared hs hw, h.addressable.stable hs⟩, ?_⟩
  · rw [hmachine]
    exact ⟨hidle.running, hidle.native, hidle.conts, hidle.dyns, hidle.room, hidle.fp⟩
  · rw [hmachine]
    exact h.code

/-- A watched call leads to a good value, and leaves what lasts as it is. -/
theorem Watch.yields (hm : m.machine = false) (ht : m.target = none) (hpairs : m.pairs = k.pairs)
    (hfixed : ∀ j, m.fixed j → k.fixed j = true) (h : w.Resting) (hd : d ≤ w.state.roots.size)
    (hprocedure : w.Good procedure) (hargs : ∀ v ∈ args, w.Good v) :
    Yields m d (k.caller procedure args) w := by
  cases hadmits : k.admits procedure args w.state with
  | false =>
      unfold Yields Leads caller
      rw [if_neg (by simp [hadmits])]
      trivial
  | true =>
      have hcaller : k.caller procedure args w.state = invoke procedure args w.state := by
        rw [caller, if_pos hadmits]
      refine Leads.congr ?_ hcaller
      by_cases hended : ∀ c t, invoke procedure args w.state ≠ .error (.fatal c) t
      · have htame : w.heap.isTame m.pairs procedure = true := by
          rw [hpairs]
          exact (Bool.and_eq_true_iff.1 hadmits).1
        refine yields_invoke ⟨h.idle, h.halts, h.addressable, hprocedure, htame, hargs⟩ hm ht hd
          h.code fun ss hrun u hu => ?_
        exact permits_of_allows (allows_of_run hadmits h.idle.running hended hrun u hu) hpairs hfixed
      · simp only [ne_eq, not_forall, not_not] at hended
        obtain ⟨c, t, hfatal⟩ := hended
        unfold Leads
        rw [hfatal]
        trivial

/-- What is called while compiling leaves what lasts as it is, lists included. -/
theorem Watch.steady (hm : m.machine = false) (hrests : m.rests = true) (hpairs : m.pairs = true)
    (hk : k.pairs = true) (hfixed : ∀ j, m.fixed j → k.fixed j = true) :
    Steady m System.Resting k.caller where
  pairs := hpairs
  yields := fun h hd hf hargs => Watch.yields (m := m.still) hm rfl (hpairs.trans hk.symm) hfixed h hd hf hargs
  stays := fun hw hs h => h.stable hrests hw hs

end Calls

end CellLisp
