import CellLisp.Proofs.Compile.Closure

/-!
# `CellLisp.Proofs.Compile.Parameters` — the arity of a parameter list

The arity of a procedure is one number of 16 bits, made of the count of the fixed parameters.  It
says what the parameter list does (`Arity.Tells`) exactly if these are fewer than 32768
(`Arity.tells_made_iff`); a longer list compiles all the same, with an arity that says something
else, unless the count has no opposite in 16 bits and a rest parameter asks for one.
-/

namespace CellLisp

/-! ## Arities -/

namespace Arity

/-- What is made of a count of fixed parameters, if anything is. -/
def made? (fixed : Nat) (variadic : Bool) : Option Arity :=
  if variadic then atLeast? fixed else some (exactly fixed)

/-- An arity says what a parameter list does: how many arguments a call takes, and how many of the
frame's words they come to. -/
structure Tells (a : Arity) (fixed : List Value) (rest : Option Value) : Prop where
  required : a.required = fixed.length
  isVariadic : a.isVariadic = rest.isSome
  slots : a.slots = (fixed ++ rest.toList).length
  accepts : ∀ count, a.accepts count = true ↔
    if rest.isSome then fixed.length ≤ count else count = fixed.length

section

variable {a : Arity} {n : Nat} {variadic : Bool} {fixed : List Value} {rest : Option Value}

/-- The required arguments and whether there may be more settle everything else. -/
theorem tells_of_required (hrequired : a.required = fixed.length)
    (hvariadic : a.isVariadic = rest.isSome) : a.Tells fixed rest where
  required := hrequired
  isVariadic := hvariadic
  slots := by
    rw [slots, List.length_append, ← hrequired]
    cases rest <;> simp_all [isVariadic]
  accepts count := by
    have hcode : a.code < 0 ↔ rest.isSome = true := by rw [← hvariadic, isVariadic, decide_eq_true_iff]
    by_cases hrest : rest.isSome = true
    · simp [accepts, hcode.2 hrest, hrest, hrequired]
    · simp [accepts, mt hcode.1 hrest, hrest, hrequired]

theorem wrap_lt (n : Nat) : -32768 ≤ wrap n ∧ wrap n < 32768 :=
  ⟨Int.le_bmod (by decide), Int.bmod_lt (by decide)⟩

/-- Sixteen bits hold no greater count than 32767. -/
theorem required_of_made (h : made? n variadic = some a) (ha : a.required = n) : n < 32768 := by
  have hwrap := wrap_lt n
  unfold made? at h
  split at h
  · unfold atLeast? at h
    split at h
    · cases h
    · obtain rfl := Option.some.inj h
      simp only [required] at ha
      split at ha <;> omega
  · obtain rfl := Option.some.inj h
    unfold required exactly at ha
    dsimp only at ha
    split at ha <;> omega

theorem exists_made (hn : n < 32768) (variadic : Bool) :
    ∃ a, made? n variadic = some a ∧ a.required = n ∧ a.isVariadic = variadic := by
  have hwrap := wrap_of_lt hn
  cases variadic with
  | false =>
      have hcode : ¬(n : Int) < 0 := by omega
      exact ⟨exactly n, rfl, by simp [required, exactly, hwrap, hcode],
        by simp [Arity.isVariadic, exactly, hwrap, hcode]⟩
  | true =>
      have hcode : -(n : Int) - 1 < 0 := by omega
      have hopposite : ¬(n : Int) = -32768 := by omega
      exact ⟨⟨-n - 1⟩, by simp [made?, atLeast?, hwrap, hopposite], by simp [required, hcode],
        by simp [Arity.isVariadic, hcode]⟩

/-- The arity that is made of a parameter list says what the list does exactly if there are fewer
than 32768 fixed parameters. -/
theorem tells_made_iff : (∃ a, made? fixed.length rest.isSome = some a ∧ a.Tells fixed rest) ↔
    fixed.length < 32768 := by
  constructor
  · rintro ⟨a, ha, htells⟩
    exact required_of_made ha htells.required
  · intro hlt
    obtain ⟨a, ha, hrequired, hvariadic⟩ := exists_made hlt rest.isSome
    exact ⟨a, ha, tells_of_required hrequired hvariadic⟩

end

end Arity

/-! ## Parameter lists -/

/-- A value is the list of some fixed parameters, behind which stands one for the rest, if any; all
of them are symbols. -/
structure Heap.Parameters (h : Heap) (params : Value) (fixed : List Value) (rest : Option Value) :
    Prop where
  spine : h.spine params = (fixed.toArray, rest.getD .nil)
  symbols : ∀ p ∈ fixed ++ rest.toList, p.isSymbol = true

namespace Comp

/-- A parameter list is looked through with what stands behind it. -/
theorem parameters_of_spine {params tail : Value} {fixed : Array Value} {s : State}
    (hspine : s.heap.spine params = (fixed, tail)) (d : Draft) :
    parameters params d s = (match fixed.find? (!·.isSymbol) with
      | some p => reject (.badParameter (s.heap.print p))
      | none =>
        if tail.isNil then return (fixed.toList, none)
        else if tail.isSymbol then return (fixed.toList, some tail)
        else reject (.badParameterList (s.heap.print tail)) : Comp _) d s := by
  obtain rfl : (s.heap.spine params).1 = fixed := congrArg Prod.fst hspine
  obtain rfl : (s.heap.spine params).2 = tail := congrArg Prod.snd hspine
  rfl

/-- A parameter list is taken apart, or the form is in error; nothing else happens. -/
theorem parameters_ends (params : Value) (d : Draft) (s : State) :
    (∃ cause, parameters params d s = .error (.error (.form cause)) s) ∨
      ∃ fixed rest, parameters params d s = .ok ((fixed, rest), d) s ∧
        s.heap.Parameters params fixed rest := by
  obtain ⟨fixed, tail, hspine⟩ : ∃ fixed tail, s.heap.spine params = (fixed, tail) := ⟨_, _, rfl⟩
  rw [parameters_of_spine hspine]
  cases hfind : fixed.find? (!·.isSymbol) with
  | some p => exact .inl ⟨_, rfl⟩
  | none =>
      have hfixed : ∀ p ∈ fixed.toList, p.isSymbol = true := by
        simpa [Array.find?_eq_none] using hfind
      by_cases hnil : tail.isNil = true
      · have htail : tail = .nil := by cases tail <;> first | rfl | cases hnil
        subst htail
        exact .inr ⟨fixed.toList, none, rfl, hspine, by simpa using hfixed⟩
      · by_cases hsymbol : tail.isSymbol = true
        · refine .inr ⟨fixed.toList, some tail, by simp only [hnil, hsymbol]; rfl, hspine, ?_⟩
          intro p hp
          rcases List.mem_append.1 hp with hp | hp
          · exact hfixed p hp
          · obtain rfl := List.mem_singleton.1 hp
            exact hsymbol
        · exact .inl ⟨_, by simp only [hnil, hsymbol]; rfl⟩

theorem arityOf_eq (fixed : Nat) (variadic : Bool) (d : Draft) (s : State) :
    arityOf fixed variadic d s = match Arity.made? fixed variadic with
      | some a => .ok (a, d) s
      | none => .error (.fatal .arityRange) s := by
  unfold arityOf Arity.made?
  cases variadic with
  | false => rfl
  | true => cases Arity.atLeast? fixed <;> rfl

/-! ## Procedures -/

section

variable (form : FormCompiler) (walk : Walker) (name params : Value) (body : List Value)

/-- A procedure with known parameters and arity. -/
def compileWith (fixed : List Value) (rest : Option Value) (arity : Arity) : Comp Unit := do
  let (doc, body) := splitDoc (← heap id) body
  let names := fixed ++ rest.toList
  let captures ← body.foldlM (walk ⟨names, []⟩) {}
  withRoots do
    let code ← makeBytecode name doc arity
    let _ ← protect code
    compileProcedure form (procedureScope code names captures) rest.isSome fixed.length body
    op' .const 0 code
    if captures.count != 0 then compileClosure captures

variable {params} in
/-- Its parameters taken apart, a procedure is compiled with the arity that is made of them. -/
theorem compileLambda_of_parameters {fixed : List Value} {rest : Option Value} {d : Draft} {s : State}
    (hparameters : parameters params d s = .ok ((fixed, rest), d) s) :
    compileLambda form walk name params body d s =
      match Arity.made? fixed.length rest.isSome with
      | some a => compileWith form walk name body fixed rest a d s
      | none => .error (.fatal .arityRange) s := by
  unfold compileLambda
  rw [comp_bind, hparameters]
  dsimp only
  rw [comp_bind, arityOf_eq]
  cases Arity.made? fixed.length rest.isSome <;> rfl

/-- Whatever stands in its place, a parameter list is in error or is one of `fixed` parameters and
`rest`.  Then the code gets the arity that is made of them, which says what they do exactly if the
fixed ones are fewer than 32768. -/
theorem compileLambda_tells (d : Draft) (s : State) :
    (∃ cause, compileLambda form walk name params body d s = .error (.error (.form cause)) s) ∨
      ∃ fixed rest, s.heap.Parameters params fixed rest ∧
        (compileLambda form walk name params body d s =
          match Arity.made? fixed.length rest.isSome with
          | some a => compileWith form walk name body fixed rest a d s
          | none => .error (.fatal .arityRange) s) ∧
        ((∃ a, Arity.made? fixed.length rest.isSome = some a ∧ a.Tells fixed rest) ↔
          fixed.length < 32768) := by
  rcases parameters_ends params d s with ⟨cause, hreject⟩ | ⟨fixed, rest, hparameters, hp⟩
  · refine .inl ⟨cause, ?_⟩
    unfold compileLambda
    rw [comp_bind, hreject]
  · exact .inr ⟨fixed, rest, hp, compileLambda_of_parameters form walk name body hparameters,
      Arity.tells_made_iff⟩

/-- Code with 32768 parameters and none for the rest gets the arity of one that takes any number of
arguments from 32767 on. -/
theorem made_wide : ¬∀ (fixed : List Value) (rest : Option Value) (a : Arity),
    Arity.made? fixed.length rest.isSome = some a → a.Tells fixed rest := by
  intro h
  have hmade : Arity.made? (List.replicate 32768 Value.nil).length (none : Option Value).isSome
      = some ⟨-32768⟩ := by
    rw [List.length_replicate]
    decide
  have hvariadic := (h _ none _ hmade).isVariadic
  cases hvariadic

end

end Comp
end CellLisp
