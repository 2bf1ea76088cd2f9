import CellLisp.Proofs.State.Act
import CellLisp.Session
import Mathlib.Algebra.BigOperators.Group.List.Basic
import Mathlib.Algebra.Ring.Int.Defs

/-!
# `CellLisp.Proofs.Number.Exact` — integer arithmetic is exact or fails

`Computes act s zero partials result`: on `s`, `act` yields the integer `result`, unless a divisor
is zero or the computation leaves its range — 64 bits on the way, where it goes through
`partials`, and 60 bits at the end.  In these two cases it fails, each with an error of its own.

    operation    partials                           result
    sum          0, x, x + y, …                     the last of them
    product      1, x, x * y, …                     the last of them
    negation     -x                                 -x
    difference   x, x - y, x - y - z, …             the last of them
    reciprocal   1, 1 / x                           the last of them
    quotient     x, x / y, (x / y) / z, …           the last of them
    remainder                                       r in 0 .. |y|-1 with y ∣ x - r

A quotient is never larger than its dividend, so that a divisor of zero is always reached.
-/

namespace CellLisp

/-! ## Ranges -/

/-- An integer that a value can be. -/
def InRange (i : Int) : Prop := intMin ≤ i ∧ i ≤ intMax

instance (i : Int) : Decidable (InRange i) := inferInstanceAs (Decidable (_ ∧ _))

/-- An integer of 64 bits. -/
def Fits64 (i : Int) : Prop := -0x8000000000000000 ≤ i ∧ i < 0x8000000000000000

instance (i : Int) : Decidable (Fits64 i) := inferInstanceAs (Decidable (_ ∧ _))

section Ranges

variable {i j : Int}

theorem inRange_iff : InRange i ↔ -0x800000000000000 ≤ i ∧ i < 0x800000000000000 := by
  unfold InRange intMin intMax
  omega

theorem InRange.fits64 (hi : InRange i) : Fits64 i := by
  rw [inRange_iff] at hi
  unfold Fits64
  omega

theorem fits64?_of_fits64 (hi : Fits64 i) : fits64? i = some i := if_pos hi

theorem fits64?_of_not (hi : ¬ Fits64 i) : fits64? i = none := if_neg hi

theorem Number.value_int (hi : InRange i) : (Number.int i).value = .ok (.int i) := if_pos hi

theorem Number.value_int_of_not (hi : ¬ InRange i) : (Number.int i).value = .error .overflow :=
  if_neg hi

/-- No bit is lost of an integer that a value can be. -/
theorem Value.ofInt_of_inRange (hi : InRange i) : Value.ofInt i = .int i := by
  rw [inRange_iff] at hi
  exact congrArg Value.int (Int.bmod_eq_of_le (by omega) (by omega))

/-- Dividing an integer that a value can be, one stays within 64 bits. -/
theorem fits64_of_natAbs_le (hi : InRange i) (hj : j.natAbs ≤ i.natAbs) : Fits64 j := by
  rw [inRange_iff] at hi
  unfold Fits64
  omega

end Ranges

/-! ## Outcomes -/

/-- On `s` an action computes an integer, exactly or not at all. -/
structure Computes (act : Act Value) (s : State) (zero : Prop) (partials : List Int) (result : Int) :
    Prop where
  yields : ∀ v t, act s = .ok v t ↔
    t = s ∧ v = .int result ∧ ¬ zero ∧ (∀ p ∈ partials, Fits64 p) ∧ InRange result
  divisionByZero : ∀ t, act s = .error (.error .divisionByZero) t ↔ t = s ∧ zero
  overflow : ∀ t, act s = .error (.error .overflow) t ↔
    t = s ∧ ¬ zero ∧ ((∃ p ∈ partials, ¬ Fits64 p) ∨ ¬ InRange result)
  /-- No result is reduced to the bits that a value has. -/
  unreduced : ∀ v t, act s = .ok v t → v = .ofInt result

namespace Computes

variable {act : Act Value} {s : State} {zero : Prop} {partials : List Int} {result : Int}

theorem of_ok (h : act s = .ok (.int result) s) (hz : ¬ zero) (hp : ∀ p ∈ partials, Fits64 p)
    (hr : InRange result) : Computes act s zero partials result where
  yields v t := by
    rw [h, EStateM.Result.ok.injEq]
    exact ⟨fun ⟨hv, ht⟩ => ⟨ht.symm, hv.symm, hz, hp, hr⟩, fun ⟨ht, hv, _⟩ => ⟨hv.symm, ht.symm⟩⟩
  divisionByZero t := by
    rw [h]
    exact ⟨nofun, fun ⟨_, hzero⟩ => absurd hzero hz⟩
  overflow t := by
    rw [h]
    refine ⟨nofun, ?_⟩
    rintro ⟨-, -, ⟨p, hmem, hnot⟩ | hnot⟩
    · exact absurd (hp p hmem) hnot
    · exact absurd hr hnot
  unreduced v t hok := by
    rw [h] at hok
    cases hok
    exact (Value.ofInt_of_inRange hr).symm

theorem of_divisionByZero (h : act s = .error (.error .divisionByZero) s) (hz : zero) :
    Computes act s zero partials result where
  yields v t := by
    rw [h]
    exact ⟨nofun, fun ⟨_, _, hnot, _⟩ => absurd hz hnot⟩
  divisionByZero t := by
    rw [h, EStateM.Result.error.injEq]
    exact ⟨fun ⟨_, ht⟩ => ⟨ht.symm, hz⟩, fun ⟨ht, _⟩ => ⟨rfl, ht.symm⟩⟩
  overflow t := by
    rw [h]
    refine ⟨fun heq => ?_, fun ⟨_, hnot, _⟩ => absurd hz hnot⟩
    cases heq
  unreduced v t hok := by
    rw [h] at hok
    cases hok

theorem of_overflow (h : act s = .error (.error .overflow) s) (hz : ¬ zero)
    (hleaves : (∃ p ∈ partials, ¬ Fits64 p) ∨ ¬ InRange result) :
    Computes act s zero partials result where
  yields v t := by
    rw [h]
    refine ⟨nofun, ?_⟩
    rintro ⟨-, -, -, hp, hr⟩
    rcases hleaves with ⟨p, hmem, hnot⟩ | hnot
    · exact absurd (hp p hmem) hnot
    · exact absurd hr hnot
  divisionByZero t := by
    rw [h]
    refine ⟨fun heq => ?_, fun ⟨_, hzero⟩ => absurd hzero hz⟩
    cases heq
  overflow t := by
    rw [h, EStateM.Result.error.injEq]
    exact ⟨fun ⟨_, ht⟩ => ⟨ht.symm, hz, hleaves⟩, fun ⟨ht, _⟩ => ⟨rfl, ht.symm⟩⟩
  unreduced v t hok := by
    rw [h] at hok
    cases hok

/-- A last value computed within range is turned into a value, or fails. -/
theorem of_value (h : act s = ofExcept (Number.int result).value s) (hz : ¬ zero)
    (hp : ∀ p ∈ partials, Fits64 p) : Computes act s zero partials result := by
  by_cases hr : InRange result
  · refine of_ok ?_ hz hp hr
    rw [h, Number.value_int hr]
    rfl
  · refine of_overflow ?_ hz (.inr hr)
    rw [h, Number.value_int_of_not hr]
    rfl

end Computes

/-! ## Folding -/

namespace ArithOp

/-- The operation on all integers. -/
def exact : ArithOp → Int → Int → Int
  | .add, x, y => x + y
  | .mul, x, y => x * y
  | .sub, x, y => x - y
  | .div, x, y => x.tdiv y

/-- What an operation goes through over a list, from `x` on. -/
def partials (op : ArithOp) (x : Int) (ys : List Int) : List Int := ys.scanl op.exact x

/-- Whether an operation divides by zero over a list. -/
def HasZero (op : ArithOp) (ys : List Int) : Prop := op = .div ∧ 0 ∈ ys

section Folding

variable {op : ArithOp} {x y : Int} {ys : List Int} {s : State}

theorem mem_partials_self : x ∈ op.partials x ys := by
  cases ys <;> simp [partials]

theorem partials_cons : op.partials x (y :: ys) = x :: op.partials (op.exact x y) ys := by
  simp [partials]

/-- One step divides by zero, computes an integer of 64 bits, or leaves them. -/
theorem apply_int (op : ArithOp) (x y : Int) :
    op.apply (.int x) (.int y) =
      if op = .div ∧ y = 0 then .error .divisionByZero
      else if Fits64 (op.exact x y) then .ok (.int (op.exact x y))
      else .error (if y = 0 then .divisionByZero else .overflow) := by
  by_cases hzero : op = .div ∧ y = 0
  · obtain ⟨rfl, rfl⟩ := hzero
    rfl
  have honInts : op.onInts? x y = fits64? (op.exact x y) := by
    cases op with
    | div => exact if_neg fun hy => hzero ⟨rfl, hy⟩
    | _ => rfl
  rw [if_neg hzero]
  unfold apply
  by_cases hfits : Fits64 (op.exact x y)
  · simp only [honInts, fits64?_of_fits64 hfits, if_pos hfits]
  · simp only [honInts, fits64?_of_not hfits, if_neg hfits]

/-- Zero added or taken away, or as a factor, cannot lead out of 64 bits. -/
theorem ne_zero_of_not_fits64 (hx : Fits64 x) (hzero : ¬ (op = .div ∧ y = 0))
    (hy : ¬ Fits64 (op.exact x y)) : y ≠ 0 := by
  rintro rfl
  cases op with
  | add => exact hy (by simpa [exact] using hx)
  | sub => exact hy (by simpa [exact] using hx)
  | mul => exact hy (by simp [exact, Fits64])
  | div => exact hzero ⟨rfl, rfl⟩

/-- The step of a fold over arguments. -/
def step (op : ArithOp) (acc : Number) (v : Value) : Act Number := do
  ofExcept (op.apply acc (← numberOf v))

theorem step_int (op : ArithOp) (x y : Int) (s : State) :
    op.step (.int x) (.int y) s = ofExcept (op.apply (.int x) (.int y)) s := rfl

/-- From an integer of 64 bits on, a fold over integers reaches its last partial result, or stops
where one leaves 64 bits or a divisor is zero. -/
theorem foldlM_step (op : ArithOp) (ys : List Int) (s : State) (hx : Fits64 x) :
    (ys.map Value.int).foldlM op.step (.int x) s = .ok (.int (ys.foldl op.exact x)) s ∧
        (∀ p ∈ op.partials x ys, Fits64 p) ∧ ¬ op.HasZero ys ∨
      (ys.map Value.int).foldlM op.step (.int x) s = .error (.error .overflow) s ∧
        (∃ p ∈ op.partials x ys, ¬ Fits64 p) ∨
      (ys.map Value.int).foldlM op.step (.int x) s = .error (.error .divisionByZero) s ∧
        op.HasZero ys := by
  induction ys generalizing x with
  | nil => exact .inl ⟨rfl, by simpa [partials] using hx, fun h => absurd h.2 List.not_mem_nil⟩
  | cons y ys ih =>
      rw [List.map_cons, List.foldlM_cons, act_bind, step_int, apply_int, partials_cons]
      by_cases hzero : op = .div ∧ y = 0
      · rw [if_pos hzero]
        exact .inr (.inr ⟨rfl, hzero.1, hzero.2 ▸ List.mem_cons_self⟩)
      rw [if_neg hzero]
      by_cases hfits : Fits64 (op.exact x y)
      · have hhead : op.HasZero (y :: ys) ↔ op.HasZero ys := by
          unfold HasZero at *
          rw [List.mem_cons]
          exact ⟨fun ⟨hop, h⟩ => ⟨hop, h.resolve_left fun hy => hzero ⟨hop, hy.symm⟩⟩,
            fun ⟨hop, h⟩ => ⟨hop, .inr h⟩⟩
        rw [if_pos hfits, hhead, List.foldl_cons]
        rcases ih hfits with ⟨h, hp, hz⟩ | ⟨h, p, hmem, hnot⟩ | ⟨h, hz⟩
        · exact .inl ⟨h, List.forall_mem_cons.2 ⟨hx, hp⟩, hz⟩
        · exact .inr (.inl ⟨h, p, List.mem_cons_of_mem _ hmem, hnot⟩)
        · exact .inr (.inr ⟨h, hz⟩)
      · rw [if_neg hfits, if_neg (ne_zero_of_not_fits64 hx hzero hfits)]
        exact .inr (.inl ⟨rfl, _, List.mem_cons_of_mem _ mem_partials_self, hfits⟩)

/-- A fold over integers computes what is left of them, if no quotient leaves 64 bits. -/
theorem computes_foldArith (op : ArithOp) (ys : List Int) (s : State) (hx : Fits64 x)
    (hdiv : op = .div → ∀ p ∈ op.partials x ys, Fits64 p) :
    Computes (foldArith op (.int x) (ys.map Value.int)) s (op.HasZero ys) (op.partials x ys)
      (ys.foldl op.exact x) := by
  have hfold : foldArith op (.int x) (ys.map Value.int) s
      = match (ys.map Value.int).foldlM op.step (.int x) s with
        | .ok total t => ofExcept total.value t
        | .error c t => .error c t := by
    change ((ys.map Value.int).foldlM op.step (.int x) >>= fun total => ofExcept total.value) s = _
    rw [act_bind]
    cases (ys.map Value.int).foldlM op.step (.int x) s <;> rfl
  rcases foldlM_step op ys s hx with ⟨h, hp, hz⟩ | ⟨h, p, hmem, hnot⟩ | ⟨h, hz⟩
  · rw [h] at hfold
    exact .of_value hfold hz hp
  · rw [h] at hfold
    exact .of_overflow hfold (fun hz => hnot (hdiv hz.1 p hmem)) (.inl ⟨p, hmem, hnot⟩)
  · rw [h] at hfold
    exact .of_divisionByZero hfold hz

/-- Quotients do not grow. -/
theorem natAbs_le_of_mem_partials {p : Int} (hp : p ∈ ArithOp.div.partials x ys) :
    p.natAbs ≤ x.natAbs := by
  induction ys generalizing x with
  | nil => simp_all [partials]
  | cons y ys ih =>
      rw [partials_cons, List.mem_cons] at hp
      rcases hp with rfl | hp
      · exact Nat.le_refl _
      · have hle : (x.tdiv y).natAbs ≤ x.natAbs := by
          rw [Int.natAbs_tdiv]
          exact Nat.div_le_self _ _
        exact Nat.le_trans (ih hp) hle

theorem computes_foldArith_of_inRange (op : ArithOp) (ys : List Int) (s : State) (hx : InRange x) :
    Computes (foldArith op (.int x) (ys.map Value.int)) s (op.HasZero ys) (op.partials x ys)
      (ys.foldl op.exact x) := by
  refine op.computes_foldArith ys s hx.fits64 ?_
  rintro rfl p hp
  exact fits64_of_natAbs_le hx (natAbs_le_of_mem_partials hp)

end Folding

end ArithOp

/-! ## The built-in procedures -/

section Builtins

variable {x y : Int} {xs ys : List Int} {s : State}

theorem foldl_add_exact : ys.foldl ArithOp.add.exact x = x + ys.sum := by
  induction ys generalizing x with
  | nil => simp
  | cons y ys ih => rw [List.foldl_cons, ih, List.sum_cons, ArithOp.exact, Int.add_assoc]

theorem foldl_mul_exact : ys.foldl ArithOp.mul.exact x = x * ys.prod := by
  induction ys generalizing x with
  | nil => simp
  | cons y ys ih => rw [List.foldl_cons, ih, List.prod_cons, ArithOp.exact, Int.mul_assoc]

theorem foldl_sub_exact : ys.foldl ArithOp.sub.exact x = x - ys.sum := by
  induction ys generalizing x with
  | nil => simp
  | cons y ys ih =>
      rw [List.foldl_cons, ih, List.sum_cons, ArithOp.exact]
      omega

theorem hasZero_of_ne_div {op : ArithOp} (h : op ≠ .div) : op.HasZero ys ↔ False :=
  iff_false_intro fun hz => h hz.1

/-- A fold of anything but quotients starts from any integer of 64 bits. -/
theorem computes_of_ne_div {op : ArithOp} (ys : List Int) (s : State) (h : op ≠ .div)
    (hx : Fits64 x) :
    Computes (foldArith op (.int x) (ys.map Value.int)) s False (op.partials x ys)
      (ys.foldl op.exact x) := by
  have hcomputes := op.computes_foldArith ys s hx fun hop => absurd hop h
  rwa [propext (hasZero_of_ne_div h)] at hcomputes

theorem computes_add (xs : List Int) (s : State) :
    Computes (Builtin.apply .add (xs.map Value.int)) s False (xs.scanl (· + ·) 0) xs.sum := by
  have hcomputes := computes_of_ne_div xs s (show ArithOp.add ≠ .div from nofun)
    (show Fits64 0 by decide)
  rwa [foldl_add_exact, Int.zero_add] at hcomputes

theorem computes_mul (xs : List Int) (s : State) :
    Computes (Builtin.apply .mul (xs.map Value.int)) s False (xs.scanl (· * ·) 1) xs.prod := by
  have hcomputes := computes_of_ne_div xs s (show ArithOp.mul ≠ .div from nofun)
    (show Fits64 1 by decide)
  rwa [foldl_mul_exact, Int.one_mul] at hcomputes

theorem computes_negation (hx : InRange x) :
    Computes (Builtin.apply .sub [.int x]) s False [-x] (-x) := by
  refine .of_value rfl id ?_
  rw [List.forall_mem_singleton]
  rw [inRange_iff] at hx
  unfold Fits64
  omega

theorem computes_difference (hx : InRange x) (hys : ys ≠ []) :
    Computes (Builtin.apply .sub (.int x :: ys.map Value.int)) s False (ys.scanl (· - ·) x)
      (x - ys.sum) := by
  have hcomputes := computes_of_ne_div ys s (show ArithOp.sub ≠ .div from nofun) hx.fits64
  rw [foldl_sub_exact] at hcomputes
  cases ys with
  | nil => exact absurd rfl hys
  | cons y ys => exact hcomputes

theorem computes_reciprocal (x : Int) (s : State) :
    Computes (Builtin.apply .div [.int x]) s (x = 0) [1, Int.tdiv 1 x] (Int.tdiv 1 x) := by
  have hcomputes := ArithOp.div.computes_foldArith_of_inRange [x] s (show InRange 1 by decide)
  have hzero : ArithOp.div.HasZero [x] ↔ x = 0 := by
    rw [ArithOp.HasZero, eq_self, true_and, List.mem_singleton, eq_comm]
  rw [propext hzero] at hcomputes
  exact hcomputes

theorem computes_quotient (hx : InRange x) (hys : ys ≠ []) :
    Computes (Builtin.apply .div (.int x :: ys.map Value.int)) s (0 ∈ ys) (ys.scanl Int.tdiv x)
      (ys.foldl Int.tdiv x) := by
  have hcomputes := ArithOp.div.computes_foldArith_of_inRange ys s hx
  rw [ArithOp.HasZero, eq_self, true_and] at hcomputes
  cases ys with
  | nil => exact absurd rfl hys
  | cons y ys => exact hcomputes

theorem computes_remainder (x y : Int) (s : State) :
    ∃ r : Int, (y ≠ 0 → 0 ≤ r ∧ r < y.natAbs ∧ y ∣ x - r) ∧
      Computes (Builtin.apply .modulo [.int x, .int y]) s (y = 0) [] r := by
  refine ⟨x % y, fun hne => ⟨Int.emod_nonneg x hne, Int.emod_lt x hne, Int.dvd_self_sub_emod⟩, ?_⟩
  by_cases hzero : y = 0
  · subst hzero
    exact .of_divisionByZero rfl rfl
  · refine .of_value ?_ hzero nofun
    have hbranch : modulo (.int x) (.int y) s
        = (if y = 0 then fail .divisionByZero else ofExcept (Number.value (.int (x % y)))) s := rfl
    exact hbranch.trans (by rw [if_neg hzero])

/-- What the built-in procedures of arithmetic compute of integers, as many as each of them takes. -/
structure Arithmetic (s : State) (xs : List Int) : Prop where
  sum : Computes (Builtin.apply .add (xs.map .int)) s False (xs.scanl (· + ·) 0) xs.sum
  product : Computes (Builtin.apply .mul (xs.map .int)) s False (xs.scanl (· * ·) 1) xs.prod
  negation : ∀ x, xs = [x] → Computes (Builtin.apply .sub (xs.map .int)) s False [-x] (-x)
  difference : ∀ x ys, xs = x :: ys → ys ≠ [] →
    Computes (Builtin.apply .sub (xs.map .int)) s False (ys.scanl (· - ·) x) (x - ys.sum)
  reciprocal : ∀ x, xs = [x] →
    Computes (Builtin.apply .div (xs.map .int)) s (x = 0) [1, Int.tdiv 1 x] (Int.tdiv 1 x)
  quotient : ∀ x ys, xs = x :: ys → ys ≠ [] →
    Computes (Builtin.apply .div (xs.map .int)) s (0 ∈ ys) (ys.scanl Int.tdiv x)
      (ys.foldl Int.tdiv x)
  remainder : ∀ x y, xs = [x, y] → ∃ r : Int, (y ≠ 0 → 0 ≤ r ∧ r < y.natAbs ∧ y ∣ x - r) ∧
    Computes (Builtin.apply .modulo (xs.map .int)) s (y = 0) [] r
  /-- Sums and products that exist do not depend on the order of the arguments. -/
  order : ∀ ys, xs.Perm ys → ∀ p ∈ [Primitive.add, .mul], ∀ v w t t' t'',
    Builtin.apply p (xs.map .int) s = .ok v t → Builtin.apply p (ys.map .int) t' = .ok w t'' → v = w

/-- Integer arithmetic is exact or fails: it divides by zero exactly where a divisor is zero, and
overflows exactly where a result leaves its range. -/
theorem arithmetic_exact (s : State) (hxs : ∀ x ∈ xs, InRange x) : Arithmetic s xs where
  sum := computes_add xs s
  product := computes_mul xs s
  negation := by
    rintro x rfl
    exact computes_negation (hxs x List.mem_cons_self)
  difference := by
    rintro x ys rfl hys
    exact computes_difference (hxs x List.mem_cons_self) hys
  reciprocal := by
    rintro x rfl
    exact computes_reciprocal x s
  quotient := by
    rintro x ys rfl hys
    exact computes_quotient (hxs x List.mem_cons_self) hys
  remainder := by
    rintro x y rfl
    exact computes_remainder x y s
  order := by
    intro ys hperm p hp v w t t' t'' hv hw
    rw [List.mem_cons, List.mem_singleton] at hp
    rcases hp with rfl | rfl
    · rw [(((computes_add xs s).yields v t).1 hv).2.1, (((computes_add ys t').yields w t'').1 hw).2.1,
        hperm.sum_eq]
    · rw [(((computes_mul xs s).yields v t).1 hv).2.1, (((computes_mul ys t').yields w t'').1 hw).2.1,
        hperm.prod_eq]

/-- The least integer, divided by minus one, overflows at the end, its opposite having 61 bits; the
remainder is zero. -/
theorem arithmetic_exact_least :
    (∀ x ∈ [intMin, -1], InRange x) ∧
    Builtin.apply .div [.int intMin, .int (-1)] (.initial {} default)
      = .error (.error .overflow) (.initial {} default) ∧
    Builtin.apply .modulo [.int intMin, .int (-1)] (.initial {} default)
      = .ok (.int 0) (.initial {} default) := by
  have hrange : ∀ x ∈ [intMin, -1], InRange x := by decide
  have hexact := arithmetic_exact (.initial {} default) hrange
  obtain ⟨r, hr, hremainder⟩ := hexact.remainder intMin (-1) rfl
  obtain ⟨hmin, hmax, -⟩ := hr (by decide)
  obtain rfl : r = 0 := by
    change r < 1 at hmax
    omega
  refine ⟨hrange, ?_, ?_⟩
  · refine ((hexact.quotient intMin [-1] rfl (List.cons_ne_nil _ _)).overflow _).2 ⟨rfl, ?_, .inr ?_⟩
    · decide
    · decide
  · exact (hremainder.yields _ _).2 ⟨rfl, rfl, by decide, nofun, by decide⟩

end Builtins

end CellLisp
