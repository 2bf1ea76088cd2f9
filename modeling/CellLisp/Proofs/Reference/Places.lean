import CellLisp.Proofs.Reference.Evaluation

/-!
# `CellLisp.Proofs.Reference.Places` — names and the words of a frame

The compiler finds a name in its model of the operand stack (`Scope`), the reference in what a
procedure has (`Env`).  The one is the other without its values (`Scoped`), so a name is found in
the same place (`Scoped.here`, `.copied`, `.global`, and `.cont` for continuations): the word at the
offset that the compiler has worked out is the value of the variable, and another value for the
variable is another word there.
-/

namespace CellLisp

/-- What the compiler takes a part to leave. -/
def Post.entry? : Post → Option Entry
  | .next => none
  | .push => some .temp
  | .bind x => some (.dynamic x)

namespace Reference

/-! ## What stands on the stack -/

/-- What the compiler knows of it. -/
def Item.entry : Item → Entry
  | .var x _ => .var x
  | .temp _ => .temp
  | .dynamic x => .dynamic x

/-- The words of a frame, the top first; three of them have been saved by the call. -/
def Env.frame (E : Env) (array : Option Value) (saved : List Value) : List Value :=
  E.words ++ (array.toList ++ (saved ++ E.params.map (·.2)))

/-- The compiler's model of a procedure that has `E`; `ps` are its parameters. -/
structure Scoped (σ : Self) (ps : List Value) (s : Scope) (E : Env) : Prop where
  params : E.params.map (·.1) = ps
  entries : s.entries = E.own.map Item.entry
    ++ (σ.array.toList.map (fun _ => Entry.env) ++ Entry.frame :: ps.map Entry.var)
  conts : s.conts = E.conts.map (·.1)
  closedVars : s.closedVars = σ.copies.vars
  closedConts : s.closedConts = σ.copies.conts

@[simp] theorem Item.filterMap_var (x v : Value) (is : List Item) :
    (.var x v :: is).filterMap Item.value? = v :: is.filterMap Item.value? := rfl

@[simp] theorem Item.filterMap_temp (v : Value) (is : List Item) :
    (.temp v :: is).filterMap Item.value? = v :: is.filterMap Item.value? := rfl

@[simp] theorem Item.filterMap_dynamic (x : Value) (is : List Item) :
    (.dynamic x :: is).filterMap Item.value? = is.filterMap Item.value? := rfl

section Finding

variable {x v u : Value} {items : List Item} {ps : List (Value × Value)} {rest : List Entry} {n : Nat}

/-- Where the newest variable of a name is among what a procedure has made. -/
theorem Item.exists_of_find? (h : Item.find? x items = some (some v)) :
    ∃ k, (∀ n rest, Scope.findEntry x n (items.map Item.entry ++ rest) = some (.stack (n + k))) ∧
      (items.filterMap Item.value?)[k]? = some v ∧
      ∀ u, (Item.set x u items).filterMap Item.value? = (items.filterMap Item.value?).set k u := by
  induction items with
  | nil => cases h
  | cons i is ih =>
      cases i with
      | var y w =>
          by_cases hy : y = x
          · subst hy
            rw [Item.find?, if_pos rfl] at h
            obtain rfl := Option.some.inj (Option.some.inj h)
            refine ⟨0, fun n rest => ?_, rfl, fun u => ?_⟩
            · simp [Scope.findEntry, Item.entry]
            · simp [Item.set]
          · rw [Item.find?, if_neg hy] at h
            obtain ⟨k, hfind, hget, hset⟩ := ih h
            refine ⟨k + 1, fun n rest => ?_, hget, fun u => ?_⟩
            · simp [Scope.findEntry, Item.entry, if_neg hy, hfind, Nat.add_comm 1 k, Nat.add_assoc]
            · simp [Item.set, if_neg hy, hset]
      | temp w =>
          obtain ⟨k, hfind, hget, hset⟩ := ih h
          refine ⟨k + 1, fun n rest => ?_, hget, fun u => ?_⟩
          · simp [Scope.findEntry, Item.entry, hfind, Nat.add_comm 1 k, Nat.add_assoc]
          · simp [Item.set, hset]
      | dynamic y =>
          by_cases hy : y = x
          · rw [Item.find?, if_pos hy] at h
            cases h
          · rw [Item.find?, if_neg hy] at h
            obtain ⟨k, hfind, hget, hset⟩ := ih h
            refine ⟨k, fun n rest => ?_, hget, fun u => ?_⟩
            · simp [Scope.findEntry, Item.entry, if_neg hy, hfind]
            · simpa [Item.set] using hset u

/-- A name that a dynamic binding hides is global. -/
theorem Item.findEntry_of_hidden (h : Item.find? x items = some none) :
    Scope.findEntry x n (items.map Item.entry ++ rest) = some .global := by
  induction items generalizing n with
  | nil => cases h
  | cons i is ih =>
      cases i with
      | temp w => simpa [Scope.findEntry, Item.entry] using ih h
      | var y w =>
          by_cases hy : y = x
          · rw [Item.find?, if_pos hy] at h
            cases h
          · rw [Item.find?, if_neg hy] at h
            simpa [Scope.findEntry, Item.entry, if_neg hy] using ih h
      | dynamic y =>
          by_cases hy : y = x
          · simp [Scope.findEntry, Item.entry, if_pos hy]
          · rw [Item.find?, if_neg hy] at h
            simpa [Scope.findEntry, Item.entry, if_neg hy] using ih h

/-- One that is not there is looked for below. -/
theorem Item.findEntry_of_none (h : Item.find? x items = none) :
    Scope.findEntry x n (items.map Item.entry ++ rest)
      = Scope.findEntry x (n + (items.filterMap Item.value?).length) rest := by
  induction items generalizing n with
  | nil => rfl
  | cons i is ih =>
      cases i with
      | temp w =>
          simp only [List.map_cons, Item.entry, List.cons_append, Scope.findEntry]
          rw [ih h, Item.filterMap_temp, List.length_cons, Nat.add_right_comm, Nat.add_assoc]
      | var y w =>
          by_cases hy : y = x
          · rw [Item.find?, if_pos hy] at h
            cases h
          · rw [Item.find?, if_neg hy] at h
            simp only [List.map_cons, Item.entry, List.cons_append, Scope.findEntry, if_neg hy]
            rw [ih h, Item.filterMap_var, List.length_cons, Nat.add_right_comm, Nat.add_assoc]
      | dynamic y =>
          by_cases hy : y = x
          · rw [Item.find?, if_pos hy] at h
            cases h
          · rw [Item.find?, if_neg hy] at h
            simp only [List.map_cons, Item.entry, List.cons_append, Scope.findEntry, if_neg hy]
            rw [ih h, Item.filterMap_dynamic]

/-- Where the first parameter of a name is. -/
theorem exists_of_findParam? (h : findParam? x ps = some v) :
    ∃ k, (∀ n, Scope.findEntry x n (ps.map fun p => .var p.1) = some (.stack (n + k))) ∧
      (ps.map (·.1)).idxOf? x = some k ∧ (ps.map (·.2))[k]? = some v ∧
      ∀ u, (setParam x u ps).map (·.2) = (ps.map (·.2)).set k u := by
  induction ps with
  | nil => cases h
  | cons p ps ih =>
      obtain ⟨y, w⟩ := p
      by_cases hy : y = x
      · subst hy
        rw [findParam?, if_pos rfl] at h
        obtain rfl := Option.some.inj h
        exact ⟨0, fun n => by simp [Scope.findEntry], by simp [List.idxOf?_cons], rfl,
          fun u => by simp [setParam]⟩
      · rw [findParam?, if_neg hy] at h
        obtain ⟨k, hfind, hidx, hget, hset⟩ := ih h
        refine ⟨k + 1, fun n => ?_, ?_, hget, fun u => ?_⟩
        · simp [Scope.findEntry, if_neg hy, hfind, Nat.add_comm 1 k, Nat.add_assoc]
        · simp [List.idxOf?_cons, hy, hidx]
        · simp [setParam, if_neg hy, hset]

theorem findEntry_of_findParam?_none (h : findParam? x ps = none) :
    (∀ n, Scope.findEntry x n (ps.map fun p => .var p.1) = none) ∧
      (ps.map (·.1)).idxOf? x = none := by
  induction ps with
  | nil => exact ⟨fun _ => rfl, rfl⟩
  | cons p ps ih =>
      obtain ⟨y, w⟩ := p
      by_cases hy : y = x
      · rw [findParam?, if_pos hy] at h
        cases h
      · rw [findParam?, if_neg hy] at h
        obtain ⟨hfind, hidx⟩ := ih h
        refine ⟨fun n => by simp [Scope.findEntry, if_neg hy, hfind], ?_⟩
        rw [List.map_cons, List.idxOf?_cons, hidx]
        simp [hy]

/-- The environment lies below what the procedure has made. -/
theorem Item.findEnv_own : Scope.findEnv n (items.map Item.entry ++ rest)
    = Scope.findEnv (n + (items.filterMap Item.value?).length) rest := by
  induction items generalizing n with
  | nil => rfl
  | cons i is ih =>
      cases i <;>
        simp [Scope.findEnv, Item.entry, Entry.slots, ih, Nat.add_comm, Nat.add_left_comm]

theorem findEnv_vars (n : Nat) (ps : List Value) :
    Scope.findEnv n (ps.map Entry.var) = none := by
  induction ps generalizing n with
  | nil => rfl
  | cons p ps ih => simp [Scope.findEnv, ih]

end Finding

namespace Scoped

variable {σ : Self} {ps : List Value} {s : Scope} {E : Env} {x v a k : Value} {i : Nat}

theorem envOffset (h : Scoped σ ps s E) :
    s.envOffset = σ.array.map fun _ => E.words.length := by
  rw [Scope.envOffset, h.entries, Item.findEnv_own, Nat.zero_add]
  cases σ.array with
  | none => simp [Scope.findEnv, Entry.slots, findEnv_vars]
  | some a => simp [Scope.findEnv, Env.words]

theorem findEntry_of_none (h : Scoped σ ps s E) (hx : Item.find? x E.own = none) :
    Scope.findEntry x 0 s.entries = Scope.findEntry x
      (E.words.length + (σ.array.toList.length + 3)) (E.params.map fun p => .var p.1) := by
  have hmap : ps.map Entry.var = E.params.map fun p => .var p.1 := by
    rw [← h.params, List.map_map]
    rfl
  rw [h.entries, Item.findEntry_of_none hx, Nat.zero_add, hmap]
  cases σ.array <;> simp [Scope.findEntry, Env.words, Nat.add_assoc]

/-- A variable of the procedure is the word at the offset where the compiler finds it. -/
theorem here (h : Scoped σ ps s E) (hx : σ.meant E x = .here v) :
    ∃ n, s.resolve x = .stack n ∧ ∀ saved : List Value, saved.length = 3 →
      (E.frame σ.array saved)[n]? = some v ∧
      ∀ u, (E.set x u).frame σ.array saved = (E.frame σ.array saved).set n u := by
  have hfind : E.find? x = some (some v) := by
    unfold Self.meant at hx
    split at hx
    · rename_i w hw
      cases hx
      exact hw
    · cases hx
    · split at hx <;> cases hx
  unfold Env.find? at hfind
  cases hown : Item.find? x E.own with
  | some found =>
      rw [hown] at hfind
      obtain rfl := Option.some.inj hfind
      obtain ⟨n, hn, hget, hset⟩ := Item.exists_of_find? hown
      refine ⟨n, by simp [Scope.resolve, h.entries, hn], fun saved _ => ⟨?_, fun u => ?_⟩⟩
      · exact (List.getElem?_append_left (List.getElem?_eq_some_iff.1 hget).1).trans hget
      · simp only [Env.frame, Env.set, hown, Env.words, hset]
        rw [List.set_append_left _ _ (List.getElem?_eq_some_iff.1 hget).1]
  | none =>
      simp only [hown, Option.map_eq_some_iff, Option.some.injEq, exists_eq_right] at hfind
      obtain ⟨n, hn, -, hget, hset⟩ := exists_of_findParam? hfind
      refine ⟨E.words.length + (σ.array.toList.length + 3) + n, ?_, fun saved hsaved => ⟨?_, fun u => ?_⟩⟩
      · simp [Scope.resolve, h.findEntry_of_none hown, hn]
      · rw [Env.frame, List.getElem?_append_right (by omega),
          List.getElem?_append_right (by omega), List.getElem?_append_right (by omega), ← hget]
        congr 1
        omega
      · simp only [Env.frame, Env.set, hown, hset]
        rw [List.set_append_right _ _ (by omega), List.set_append_right _ _ (by omega),
          List.set_append_right _ _ (by omega)]
        rw [show E.words.length + (σ.array.toList.length + 3) + n - E.words.length
          - σ.array.toList.length - saved.length = n by omega]
        rfl

theorem findEntry_of_find?_none (h : Scoped σ ps s E) (hx : E.find? x = none) :
    Scope.findEntry x 0 s.entries = none := by
  unfold Env.find? at hx
  cases hown : Item.find? x E.own with
  | some found => simp [hown] at hx
  | none =>
      simp only [hown, Option.map_eq_none_iff] at hx
      rw [h.findEntry_of_none hown, (findEntry_of_findParam?_none hx).1 _]

/-- A copy is found in the environment of the closure. -/
theorem copied (h : Scoped σ ps s E) (hx : σ.meant E x = .copied a i) :
    s.resolve x = .env E.words.length i ∧ σ.array = some a := by
  unfold Self.meant at hx
  split at hx
  · cases hx
  · cases hx
  · rename_i hfind
    split at hx
    · rename_i j b hj hb
      cases hx
      rw [Scope.resolve, h.findEntry_of_find?_none hfind, h.closedVars, hj]
      simp [h.envOffset, hb, h.closedConts]
    · cases hx

/-- What is not found is global. -/
theorem global (h : Scoped σ ps s E) (hx : σ.meant E x = .global) : s.resolve x = .global := by
  unfold Self.meant at hx
  split at hx
  · cases hx
  · rename_i hfind
    unfold Env.find? at hfind
    cases hown : Item.find? x E.own with
    | some found =>
        rw [hown] at hfind
        obtain rfl := Option.some.inj hfind
        simp [Scope.resolve, h.entries, Item.findEntry_of_hidden hown]
    | none => simp [hown] at hfind
  · rename_i hfind
    rw [Scope.resolve, h.findEntry_of_find?_none hfind, h.closedVars, h.envOffset]
    split at hx
    · cases hx
    · rename_i hnot
      cases hidx : σ.copies.vars.idxOf? x with
      | none => rfl
      | some j =>
          cases harray : σ.array with
          | none => rfl
          | some b => exact absurd harray (hnot j b hidx)

/-- A continuation is found at the same place: among those established, or among the copies. -/
theorem cont {t : State} {c : Value} (h : Scoped σ ps s E) (hk : σ.cont? E t k = some c) :
    (∃ n, s.resolveCont k = some (.stack n) ∧ (E.conts.map (·.2))[n]? = some c) ∨
      ∃ i a, s.resolveCont k = some (.env E.words.length i) ∧ σ.array = some a ∧
        t.heap.item? a i = some c := by
  unfold Self.cont? at hk
  cases hfind : findParam? k E.conts with
  | some d =>
      simp only [hfind, Option.some.injEq] at hk
      subst hk
      obtain ⟨n, -, hidx, hget, -⟩ := exists_of_findParam? hfind
      exact .inl ⟨n, by simp [Scope.resolveCont, h.conts, hidx], hget⟩
  | none =>
      rw [hfind] at hk
      simp only at hk
      split at hk
      · rename_i i a hi ha
        refine .inr ⟨i, a, ?_, ha, hk⟩
        simp [Scope.resolveCont, h.conts, (findEntry_of_findParam?_none hfind).2, h.closedConts,
          hi, h.envOffset, ha]
      · cases hk

/-! ## What changes them -/

theorem map_entry_set (x u : Value) (items : List Item) :
    (Item.set x u items).map Item.entry = items.map Item.entry := by
  induction items with
  | nil => rfl
  | cons i is ih =>
      cases i with
      | var y w =>
          by_cases hy : y = x <;> simp [Item.set, hy, ih, Item.entry]
      | temp w => simp [Item.set, ih]
      | dynamic y => simp [Item.set, ih]

theorem map_fst_setParam (x u : Value) (ps : List (Value × Value)) :
    (setParam x u ps).map (·.1) = ps.map (·.1) := by
  induction ps with
  | nil => rfl
  | cons p ps ih =>
      obtain ⟨y, w⟩ := p
      by_cases hy : y = x <;> simp [setParam, hy, ih]

/-- Another value for a variable changes no name. -/
theorem set (h : Scoped σ ps s E) (x u : Value) : Scoped σ ps s (E.set x u) := by
  unfold Env.set
  split
  · exact { h with entries := by rw [h.entries, map_entry_set] }
  · exact { h with params := by rw [map_fst_setParam]; exact h.params }

theorem push (h : Scoped σ ps s E) (v : Value) : Scoped σ ps (s.push .temp) (E.push (.temp v)) :=
  { h with entries := by simp [Scope.push, Env.push, h.entries, Item.entry] }

theorem bind (h : Scoped σ ps s E) (x : Value) :
    Scoped σ ps (s.push (.dynamic x)) (E.push (.dynamic x)) :=
  { h with entries := by simp [Scope.push, Env.push, h.entries, Item.entry] }

/-- What follows a part does to the variables what the compiler takes it to do. -/
theorem post {t t' : State} {E' : Env} {p : Post} (h : Scoped σ ps s E)
    (hp : follow v E t p = some (E', t')) : Scoped σ ps (s.post p) E' := by
  cases p with
  | next =>
      cases hp
      exact h
  | push =>
      cases hp
      exact h.push v
  | bind x =>
      obtain ⟨r, -, he⟩ := Option.map_eq_some_iff.1 hp
      cases he
      exact h.bind x

theorem establish (h : Scoped σ ps s E) (name k : Value) :
    Scoped σ ps { s with conts := name :: s.conts } (E.establish name k) :=
  { h with conts := by simp [Env.establish, h.conts] }

/-- So many things less. -/
theorem drop {n : Nat} (h : Scoped σ ps s E) (hn : n ≤ E.own.length) :
    Scoped σ ps (s.drop n) (E.drop n) :=
  { h with
    entries := by
      simp only [Scope.drop, Env.drop, h.entries]
      rw [List.drop_append_of_le_length (by simpa using hn), List.map_drop] }

end Scoped

/-! ## Environments that grow -/

namespace Env

variable {E E' E'' E₀ : Env} {i : Item} {x v k : Value} {n : Nat}

/-- The same names stand for something. -/
structure Like (E E' : Env) : Prop where
  own : E'.own.map Item.entry = E.own.map Item.entry
  params : E'.params.map (·.1) = E.params.map (·.1)
  conts : E'.conts = E.conts

/-- So they do, and newer ones perhaps. -/
structure Onto (E E' : Env) : Prop where
  own : E.own.map Item.entry <:+ E'.own.map Item.entry
  params : E'.params.map (·.1) = E.params.map (·.1)
  conts : E.conts <:+ E'.conts

/-- Something has been made, and nothing is gone. -/
structure Above (E E' : Env) : Prop where
  own : E.own <:+ E'.own
  params : E'.params = E.params
  conts : E.conts <:+ E'.conts

theorem Like.refl (E : Env) : E.Like E := ⟨rfl, rfl, rfl⟩

theorem Like.trans (h : E.Like E') (h' : E'.Like E'') : E.Like E'' :=
  ⟨h'.own.trans h.own, h'.params.trans h.params, h'.conts.trans h.conts⟩

theorem Like.onto (h : E.Like E') : E.Onto E' :=
  ⟨h.own ▸ List.suffix_rfl, h.params, h.conts ▸ List.suffix_rfl⟩

theorem Like.length_own (h : E.Like E') : E'.own.length = E.own.length := by
  simpa using congrArg List.length h.own

theorem Onto.refl (E : Env) : E.Onto E := (Like.refl E).onto

theorem Onto.trans (h : E.Onto E') (h' : E'.Onto E'') : E.Onto E'' :=
  ⟨h.own.trans h'.own, h'.params.trans h.params, h.conts.trans h'.conts⟩

theorem Above.refl (E : Env) : E.Above E := ⟨List.suffix_rfl, rfl, List.suffix_rfl⟩

theorem Above.trans (h : E.Above E') (h' : E'.Above E'') : E.Above E'' :=
  ⟨h.own.trans h'.own, h'.params.trans h.params, h.conts.trans h'.conts⟩

theorem Above.onto (h : E.Above E') : E.Onto E' :=
  ⟨h.own.map _, by rw [h.params], h.conts⟩

theorem like_set (E : Env) (x v : Value) : E.Like (E.set x v) := by
  unfold set
  split
  · exact ⟨Scoped.map_entry_set x v _, rfl, rfl⟩
  · exact ⟨rfl, Scoped.map_fst_setParam x v _, rfl⟩

theorem above_establish (E : Env) (x k : Value) : E.Above (E.establish x k) :=
  ⟨List.suffix_rfl, rfl, List.suffix_cons _ _⟩

theorem drop_of_suffix {α : Type} {xs ys : List α} (h : xs <:+ ys) :
    ys.drop (ys.length - xs.length) = xs := by
  obtain ⟨zs, rfl⟩ := h
  rw [List.length_append, Nat.add_sub_cancel, List.drop_left]

/-- What is left when what is newer is gone. -/
theorem Onto.like_cut (h : E.Onto E') : E.Like (E'.cut E) where
  own := by
    have hdrop := drop_of_suffix h.own
    rwa [List.length_map, List.length_map, ← List.map_drop] at hdrop
  params := h.params
  conts := drop_of_suffix h.conts

theorem above_cut (E E₀ : Env) : (E.cut E₀).Above E :=
  ⟨List.drop_suffix _ _, rfl, List.drop_suffix _ _⟩

theorem Above.cut_eq (h : E.Above E') : E'.cut E = E := by
  obtain ⟨own, params, conts⟩ := E
  obtain ⟨own', params', conts'⟩ := E'
  obtain rfl : params' = params := h.params
  simp only [cut, drop_of_suffix h.own, drop_of_suffix h.conts]

/-- It does not matter what is newer. -/
theorem Above.cut_cut (h : E'.Above E'') (h₀ : E₀.Onto E') : E''.cut E₀ = E'.cut E₀ := by
  obtain ⟨own, params, conts⟩ := E'
  obtain ⟨own', params', conts'⟩ := E''
  obtain rfl : params' = params := h.params
  have hown := h₀.own.length_le
  have hconts := h₀.conts.length_le
  obtain ⟨xs, rfl⟩ : own <:+ own' := h.own
  obtain ⟨ys, rfl⟩ : conts <:+ conts' := h.conts
  simp only [List.length_map] at hown
  simp only [cut, List.length_append]
  rw [Nat.add_sub_assoc hown, Nat.add_sub_assoc hconts, List.drop_length_add_append,
    List.drop_length_add_append]

theorem Like.cut_eq (h : E.Like E') : E'.cut E = E' := by
  rw [cut, h.length_own, h.conts, Nat.sub_self, Nat.sub_self, List.drop_zero, List.drop_zero,
    ← h.conts]

/-- Newer operands and variables are gone. -/
theorem cut_of_drop (h : E.Like (E'.drop n)) (hn : n ≤ E'.own.length) : E'.cut E = E'.drop n := by
  have hlen := h.length_own
  have hconts : E'.conts = E.conts := h.conts
  simp only [drop, List.length_drop] at hlen
  simp only [cut, drop, hconts, Nat.sub_self, List.drop_zero]
  congr 2
  omega

theorem length_values (items : List Item) :
    (items.filterMap Item.value?).length = ((items.map Item.entry).map Entry.slots).sum := by
  induction items with
  | nil => rfl
  | cons i is ih => cases i <;> simp [Item.entry, Entry.slots, ih, Nat.add_comm]

theorem length_words_of_map (h : E'.own.map Item.entry = E.own.map Item.entry) :
    E'.words.length = E.words.length := by
  rw [words, length_values, h, ← length_values, words]

theorem Like.length_words (h : E.Like E') : E'.words.length = E.words.length :=
  length_words_of_map h.own

theorem Like.length_params (h : E.Like E') : E'.params.length = E.params.length := by
  simpa using congrArg List.length h.params

/-- What is newer has words of its own. -/
theorem Above.exists_words (h : E.Above E') : ∃ newer, E'.words = newer ++ E.words := by
  obtain ⟨is, his⟩ := h.own
  exact ⟨is.filterMap Item.value?, by rw [words, ← his, List.filterMap_append, words]⟩

/-! ## Parts -/

theorem words_eq (E : Env) (n : Nat) : E.words = E.operands n ++ (E.drop n).words := by
  rw [words, operands, words, drop, ← List.filterMap_append, List.take_append_drop]

/-- How many operands there are among the newest things. -/
theorem length_operands {es rest : List Entry} (h : E.own.map Item.entry = es ++ rest) :
    (E.operands es.length).length = (es.map Entry.slots).sum := by
  rw [operands, length_values, List.map_take, h, List.take_left' rfl]

/-- What parts have left is there, in front of what there was. -/
structure Posted (posts : List Post) (E E' : Env) : Prop where
  own : E'.own.map Item.entry = (posts.filterMap Post.entry?).reverse ++ E.own.map Item.entry
  params : E'.params.map (·.1) = E.params.map (·.1)
  conts : E'.conts = E.conts

theorem Posted.refl (E : Env) : E.Posted [] E := ⟨rfl, rfl, rfl⟩

theorem Posted.onto {posts : List Post} (h : E.Posted posts E') : E.Onto E' :=
  ⟨⟨_, h.own.symm⟩, h.params, h.conts ▸ List.suffix_rfl⟩

theorem Posted.like {posts : List Post} (h : E.Posted posts E') (hnone : posts.filterMap Post.entry? = []) :
    E.Like E' :=
  ⟨by rw [h.own, hnone]; rfl, h.params, h.conts⟩

theorem Posted.trans_like {posts : List Post} (h : E.Posted posts E') (h' : E'.Like E'') :
    E.Posted posts E'' :=
  ⟨h'.own.trans h.own, h'.params.trans h.params, h'.conts.trans h.conts⟩

/-- One part, what comes after it, and the other parts. -/
theorem Posted.cons {p : Post} {posts : List Post} {t t' : State} (hlike : E.Like E')
    (hp : follow v E' t p = some (E'', t')) {F : Env} (h : E''.Posted posts F) :
    E.Posted (p :: posts) F := by
  have hE'' : E''.own.map Item.entry = p.entry?.toList ++ E.own.map Item.entry ∧
      E''.params.map (·.1) = E.params.map (·.1) ∧ E''.conts = E.conts := by
    cases p with
    | next =>
        cases hp
        exact ⟨hlike.own, hlike.params, hlike.conts⟩
    | push =>
        cases hp
        exact ⟨by simp [push, Item.entry, Post.entry?, hlike.own], hlike.params, hlike.conts⟩
    | bind x =>
        obtain ⟨r, -, he⟩ := Option.map_eq_some_iff.1 hp
        cases he
        exact ⟨by simp [push, Item.entry, Post.entry?, hlike.own], hlike.params, hlike.conts⟩
  obtain ⟨hown, hparams, hconts⟩ := hE''
  refine ⟨?_, h.params.trans hparams, h.conts.trans hconts⟩
  rw [h.own, hown, List.filterMap_cons]
  cases p.entry? <;> simp

theorem filterMap_entry_next {α : Type} (xs : List α) :
    (xs.map fun _ => Post.next).filterMap Post.entry? = [] := by
  induction xs with
  | nil => rfl
  | cons x xs ih => exact ih

theorem filterMap_entry_push {α : Type} (xs : List α) :
    (xs.map fun _ => Post.push).filterMap Post.entry? = List.replicate xs.length .temp := by
  induction xs with
  | nil => rfl
  | cons x xs ih => rw [List.map_cons, List.filterMap_cons, ih]; rfl

theorem filterMap_entry_bind (names : List Value) :
    (names.map Post.bind).filterMap Post.entry? = names.map Entry.dynamic := by
  induction names with
  | nil => rfl
  | cons x names ih => rw [List.map_cons, List.filterMap_cons, ih]; rfl

/-- What is left when what is newest is gone. -/
theorem like_drop {es : List Entry} (h : E'.own.map Item.entry = es ++ E.own.map Item.entry)
    (hparams : E'.params.map (·.1) = E.params.map (·.1)) (hconts : E'.conts = E.conts) :
    E.Like (E'.drop es.length) ∧ E'.cut E = E'.drop es.length := by
  have hlike : E.Like (E'.drop es.length) :=
    ⟨by rw [drop, List.map_drop, h, List.drop_left' rfl], hparams, hconts⟩
  refine ⟨hlike, cut_of_drop hlike ?_⟩
  have hlen := congrArg List.length h
  simp only [List.length_map, List.length_append] at hlen
  omega

section Operands

variable {names : List Value}

/-- As many operands as there are parts. -/
theorem Posted.operands {α : Type} {xs : List α} (h : E.Posted (xs.map fun _ => .push) E') :
    (E'.operands xs.length).length = xs.length ∧ E.Like (E'.drop xs.length) ∧
      E'.cut E = E'.drop xs.length := by
  have hown := h.own
  rw [filterMap_entry_push, List.reverse_replicate] at hown
  have hlen := length_operands hown
  have hdrop := like_drop hown h.params h.conts
  rw [List.length_replicate] at hlen hdrop
  exact ⟨by rw [hlen]; simp [Entry.slots], hdrop⟩

theorem map_entry_zipWith {vs : List Value} (h : vs.length = names.length) :
    (List.zipWith Item.var names vs).map Item.entry = names.map Entry.var := by
  induction names generalizing vs with
  | nil => rfl
  | cons x names ih =>
      cases vs with
      | nil => cases h
      | cons v vs => exact congrArg (Entry.var x :: ·) (ih (Nat.succ.inj h))

theorem words_name {n : List Value} (h : (E.operands n.length).length = n.length) :
    (E.name n).words = E.words := by
  have hvalues {names vs : List Value} (h : vs.length = names.length) :
      (List.zipWith Item.var names vs).filterMap Item.value? = vs := by
    induction names generalizing vs with
    | nil => exact (List.eq_nil_of_length_eq_zero h).symm
    | cons x names ih =>
        cases vs with
        | nil => cases h
        | cons v vs => exact congrArg (v :: ·) (ih (Nat.succ.inj h))
  rw [E.words_eq n.length, words, name, List.filterMap_append, hvalues (h.trans List.length_reverse.symm)]
  rfl

/-- Operands that have become variables. -/
theorem Posted.name (h : E.Posted (names.map fun _ => .push) E') :
    (E'.name names).own.map Item.entry = (names.map Entry.var).reverse ++ E.own.map Item.entry := by
  obtain ⟨hlen, hlike, -⟩ := h.operands
  rw [Env.name, List.map_append, show (E'.own.drop names.length).map Item.entry = _ from hlike.own,
    map_entry_zipWith (hlen.trans List.length_reverse.symm), List.map_reverse]

/-- When a form that has named its operands is over, those are on top. -/
theorem Posted.unname (h : E.Posted (names.map fun _ => .push) E') (hlike : (E'.name names).Like E'') :
    E.Like (E''.cut E) ∧ names.length ≤ E''.words.length ∧
      (E''.cut E).words = E''.words.drop names.length := by
  have hown := hlike.own.trans h.name
  obtain ⟨hcut, he⟩ := like_drop hown (hlike.params.trans h.params) (hlike.conts.trans h.conts)
  have hlen : (E''.operands names.length).length = names.length := by
    have hsum := length_operands hown
    have hslots : ((names.map Entry.var).map Entry.slots).sum = names.length := by
      rw [List.map_map]
      change (names.map fun _ => 1).sum = _
      simp
    rwa [List.map_reverse, List.sum_reverse, hslots, List.length_reverse, List.length_map] at hsum
  rw [List.length_reverse, List.length_map] at he hcut
  rw [he]
  refine ⟨hcut, ?_, ?_⟩
  · rw [words_eq E'' names.length, List.length_append, hlen]
    exact Nat.le_add_right _ _
  · rw [words_eq E'' names.length, List.drop_left' hlen]

/-- When a form that has made dynamic bindings is over, there are no more operands. -/
theorem Posted.unbind (h : E.Posted (names.map .bind) E') (hlike : E'.Like E'') :
    E.Like (E''.cut E) ∧ (E''.cut E).words = E''.words := by
  have hown := (h.trans_like hlike).own
  rw [filterMap_entry_bind] at hown
  obtain ⟨hcut, he⟩ := like_drop hown (h.trans_like hlike).params (h.trans_like hlike).conts
  rw [he]
  refine ⟨hcut, ?_⟩
  have hnone : E''.operands (names.map Entry.dynamic).reverse.length = [] := by
    refine List.eq_nil_of_length_eq_zero ((length_operands hown).trans ?_)
    rw [List.map_reverse, List.sum_reverse, List.map_map]
    change (names.map fun _ => 0).sum = _
    simp
  rw [words_eq E'' (names.map Entry.dynamic).reverse.length, hnone, List.nil_append]

end Operands

end Env

namespace Scoped

variable {σ : Self} {ps : List Value} {s : Scope} {E E' : Env}

theorem like (h : Scoped σ ps s E) (hE : E.Like E') : Scoped σ ps s E' :=
  ⟨hE.params.trans h.params, by rw [hE.own]; exact h.entries, by rw [hE.conts]; exact h.conts,
    h.closedVars, h.closedConts⟩

theorem entries_posts (s : Scope) (posts : List Post) :
    (s.posts posts).entries = (posts.filterMap Post.entry?).reverse ++ s.entries := by
  induction posts generalizing s with
  | nil => rfl
  | cons p posts ih =>
      refine (ih (s.post p)).trans ?_
      cases p <;> simp [Scope.post, Scope.push, List.filterMap_cons, Post.entry?]

/-- Parts leave what the compiler takes them to leave. -/
theorem posted {posts : List Post} (h : Scoped σ ps s E) (hE : E.Posted posts E') :
    Scoped σ ps (s.posts posts) E' := by
  have hentries := entries_posts s posts
  rw [Scope.posts_eq]
  refine ⟨hE.params.trans h.params, ?_, by rw [hE.conts]; exact h.conts, h.closedVars, h.closedConts⟩
  change (s.posts posts).entries = _
  rw [hentries, hE.own, h.entries, List.append_assoc]

/-- Operands become variables. -/
theorem name {names : List Value} (h : Scoped σ ps s E) (hE : E.Posted (names.map fun _ => .push) E') :
    Scoped σ ps ((s.posts (names.map fun _ => .push)).nameTop names) (E'.name names) := by
  have hentries := s.entries_nameTop_posts names
  have hposted := h.posted hE
  refine ⟨hposted.params, ?_, hposted.conts, hposted.closedVars, hposted.closedConts⟩
  rw [hentries, hE.name, h.entries, List.append_assoc]

end Scoped

end Reference
end CellLisp
