import CellLisp.Proofs.Compile.Steps
import CellLisp.Proofs.State.Reader
import CellLisp.Proofs.State.Stream

/-!
# `CellLisp.Proofs.Machine.Builtin` — what built-in procedures do to a typed state

While a built-in procedure runs, its arguments are on the operand stack, so they last.  It
leaves a typed state, what lasts as it was, and a good value; only the two that change pairs
need leave to do so.

| | |
| :-- | :-- |
| arithmetic, questions, texts | only look at the state (`Looks`) |
| lists, arrays, strings, symbols, streams | allocate, or change one cell or block |
| the maker of closures, evaluation by an embedding program | left aside |
-/

namespace CellLisp

/-! ## Looking -/

section Looking

variable {α : Type} {s : State}

theorem looks_typeError {Q : α → Prop} (expected : Expected) (v : Value) :
    Looks (typeError expected v : Act α) s Q :=
  Looks.bind (Looks.gets (Q := fun _ => True) trivial) fun _ _ => Looks.fail _

theorem looks_bytecodeOf (v : Value) :
    Looks (bytecodeOf v) s fun b => s.heap.bytecode? v = some b := by
  unfold bytecodeOf
  refine Looks.bind (Looks.gets (Q := fun r => r = s.heap.bytecode? v) rfl) ?_
  rintro _ rfl
  split
  · rename_i b hb
    exact Looks.pure hb
  · exact Looks.halt _

theorem looks_numberOf (v : Value) : Looks (numberOf v) s fun _ => True := by
  unfold numberOf
  split
  · exact Looks.pure trivial
  · exact looks_typeError _ _

theorem looks_integerOf (v : Value) : Looks (integerOf v) s fun _ => True := by
  unfold integerOf
  split
  · exact Looks.pure trivial
  · exact looks_typeError _ _

theorem looks_indexOf (v : Value) : Looks (indexOf v) s fun _ => True := by
  unfold indexOf
  split
  · split
    · exact Looks.pure trivial
    · exact looks_typeError _ _
  · exact looks_typeError _ _

theorem looks_ofExcept {x : Except Error α} {Q : α → Prop} (h : ∀ a, x = .ok a → Q a) :
    Looks (ofExcept x) s Q := by
  cases x with
  | ok a => exact Looks.pure (h a rfl)
  | error cause => exact Looks.fail cause

theorem cell?_of_value {n : Number} {v : Value} (h : n.value = .ok v) : v.cell? = none := by
  unfold Number.value at h
  split at h
  · split at h
    · cases h
      rfl
    · cases h
  · cases h
    rfl

theorem cell?_of_negate {n : Number} {v : Value} (h : n.negate = .ok v) : v.cell? = none := by
  unfold Number.negate at h
  split at h
  · exact cell?_of_value h
  · cases h
    rfl

theorem looks_foldlM {β : Type} {f : β → α → Act β} (hf : ∀ b a, Looks (f b a) s fun _ => True)
    (l : List α) (b : β) : Looks (l.foldlM f b) s fun _ => True := by
  induction l generalizing b with
  | nil => exact Looks.pure trivial
  | cons a l ih =>
      rw [List.foldlM_cons]
      exact Looks.bind (hf b a) fun b' _ => ih b'

theorem looks_foldArith (op : ArithOp) (start : Number) (args : List Value) :
    Looks (foldArith op start args) s fun v => v.cell? = none := by
  unfold foldArith
  refine Looks.bind (looks_foldlM (fun acc v => ?_) args start) fun total _ =>
    looks_ofExcept fun _ => cell?_of_value
  exact Looks.bind (looks_numberOf v) fun _ _ => looks_ofExcept fun _ _ => trivial

theorem looks_subtract (first : Value) (rest : List Value) :
    Looks (subtract first rest) s fun v => v.cell? = none := by
  unfold subtract
  refine Looks.bind (looks_numberOf first) fun n _ => ?_
  split
  · exact looks_ofExcept fun _ => cell?_of_negate
  · exact looks_foldArith _ _ _

theorem looks_divide (first : Value) (rest : List Value) :
    Looks (divide first rest) s fun v => v.cell? = none := by
  unfold divide
  split
  · exact looks_foldArith _ _ _
  · exact Looks.bind (looks_numberOf first) fun n _ => looks_foldArith _ _ _

theorem looks_modulo (a b : Value) : Looks (modulo a b) s fun v => v.cell? = none := by
  unfold modulo
  refine Looks.bind (looks_integerOf a) fun x _ => Looks.bind (looks_integerOf b) fun y _ => ?_
  split
  · exact Looks.fail _
  · exact looks_ofExcept fun _ => cell?_of_value

theorem looks_textOf (v : Value) : Looks (Builtin.textOf v) s fun _ => True := by
  unfold Builtin.textOf
  refine Looks.bind (Looks.gets (Q := fun _ => True) trivial) fun _ _ => ?_
  split
  · exact Looks.pure trivial
  · exact looks_typeError _ _

theorem looks_wordOf (v : Value) : Looks (Builtin.wordOf v) s fun _ => True := by
  unfold Builtin.wordOf
  split
  · exact Looks.gets trivial
  · exact looks_textOf v

/-- The block of an array. -/
theorem looks_arrayOf (v : Value) :
    Looks (Builtin.arrayOf v) s fun b => ∃ i, v = .ref .object i ∧ s.heap.cell i = .array b := by
  unfold Builtin.arrayOf
  refine Looks.bind (Looks.gets (Q := fun r => r = s.heap.array? v) rfl) ?_
  rintro _ rfl
  split
  · rename_i b hb
    exact Looks.pure (Heap.exists_of_array? hb)
  · exact looks_typeError _ _

theorem looks_arrayIndex (array index : Value) :
    Looks (Builtin.arrayIndex array index) s fun p =>
      ∃ i, array = .ref .object i ∧ s.heap.cell i = .array p.1 := by
  unfold Builtin.arrayIndex
  refine Looks.bind (looks_arrayOf array) fun b hb => Looks.bind (looks_indexOf index) fun i _ => ?_
  refine Looks.bind (Looks.gets (Q := fun _ => True) trivial) fun n _ => ?_
  split
  · exact Looks.bind (Q := fun _ => False) (Looks.fail _) fun _ h => h.elim
  · exact Looks.pure (a := (b, i)) hb

end Looking

/-! ## Good values -/

section Good

variable {m : Mode} {d : Nat} {w : System} {v : Value}

/-- An action that only looks, and yields a good value. -/
theorem Looks.yields {act : Act Value} (h : Looks act w.state fun v => w.Good v) :
    Yields m d act w :=
  h.leads.mono fun _ _ _ hv => hv.1 ▸ hv.2

theorem Looks.yields_of_cell? {act : Act Value} (h : Looks act w.state fun v => v.cell? = none) :
    Yields m d act w :=
  (h.mono fun _ hv => w.good_of_cell?_eq_none hv).yields

/-- Head and tail of a good pair are good. -/
theorem System.Good.pair {head tail : Value} (hv : w.Good v)
    (hp : w.heap.pair? v = some (head, tail)) : w.Good head ∧ w.Good tail := by
  obtain ⟨i, rfl, hc⟩ := Heap.exists_of_pair? hp
  have hne := (Value.cell?_eq_some_iff.1 (w.cell?_of_pair hc)).choose_spec.2
  have hmem : ∀ u ∈ [head, tail], w.Good u := by
    intro u hu
    refine w.good_of_reference (i := i) (by rw [hc]; rfl)
      (fun _ _ _ => hv.proper.shown i rfl hne) ?_
    rw [hc]
    simpa [Heap.references, Cell.block?, Cell.values] using hu
  exact ⟨hmem head (by simp), hmem tail (by simp)⟩

/-- Elements of an array are good. -/
theorem System.good_item {i : Nat} {b : Block} (hc : w.heap.cell i = .array b) (k : Nat) :
    w.Good ((w.heap.payload b).items.getD k .nil) := by
  rw [Array.getD_eq_getD_getElem?]
  cases hk : (w.heap.payload b).items[k]? with
  | none => exact w.good_nil
  | some v =>
      refine w.good_of_reference (i := i) (by rw [hc]; rfl) (by rw [hc]; nofun) ?_
      have hmem := Array.mem_of_getElem? hk
      rw [hc]
      simp only [Heap.references, Cell.block?, Cell.values, List.append_nil]
      revert hmem
      cases w.heap.payload b <;> simp [Payload.items, Payload.references]

theorem looks_truth (b : Bool) : Looks (truth b) w.state fun v => w.Good v := by
  unfold truth
  split
  · exact Looks.gets (System.good_of_known (by simp [WellKnown.symbols]))
  · exact Looks.pure w.good_nil

theorem looks_compareFrom (test : Ordering → Bool) (previous : Number) (args : List Value) :
    Looks (compareFrom test previous args) w.state fun v => w.Good v := by
  induction args generalizing previous with
  | nil => exact looks_truth true
  | cons v rest ih =>
      unfold compareFrom
      refine Looks.bind (looks_numberOf v) fun n _ => ?_
      split
      · exact ih n
      · exact Looks.pure w.good_nil

/-- The stream given, or the standard one, is reachable. -/
theorem looks_globalOf (hv : v ∈ w.state.known.symbols) :
    Looks (globalOf v) w.state fun u => ∀ i, u.cell? = some i →
      w.heap.Reachable w.state.rootValues i := by
  unfold globalOf
  refine Looks.bind (Looks.gets (Q := fun r => r = w.heap.global? v) rfl) ?_
  rintro _ rfl
  split
  · rename_i u hu
    refine Looks.pure fun i hi => ?_
    obtain ⟨s, hs, hvalue⟩ := Option.bind_eq_some_iff.1 hu
    have hheld : w.Held { machine := false, pairs := false } 0 v := System.held_of_known hv
    unfold Heap.symbol? at hs
    split at hs
    · rename_i j hj
      split at hs
      · rename_i s' hc
        obtain rfl : s' = s := Option.some.inj hs
        refine .step ((hheld.anchored j hj).reachable hj) ?_ hi
        rw [hc]
        simp [Heap.references, Cell.block?, Cell.values, hvalue]
      · cases hs
    · cases hs
  · exact Looks.bind (Looks.gets (Q := fun _ => True) trivial) fun _ _ => Looks.fail _

theorem looks_streamOr {standard : Act Value} {args : List Value}
    (hstandard : Looks standard w.state fun u => ∀ i, u.cell? = some i →
      w.heap.Reachable w.state.rootValues i)
    (hargs : ∀ v ∈ args, w.Held m d v) :
    Looks (Builtin.streamOr standard args) w.state fun u => ∀ i, u.cell? = some i →
      w.heap.Reachable w.state.rootValues i := by
  unfold Builtin.streamOr
  split
  · exact Looks.pure fun i hi => ((hargs _ List.mem_cons_self).anchored i hi).reachable hi
  · exact hstandard

theorem looks_standardOutput :
    Looks standardOutput w.state fun u => ∀ i, u.cell? = some i →
      w.heap.Reachable w.state.rootValues i := by
  unfold standardOutput
  refine Looks.bind (Looks.gets (Q := fun v => v = w.state.known.standardOutput) rfl) ?_
  rintro _ rfl
  exact looks_globalOf (by simp [WellKnown.symbols])

theorem looks_standardInput :
    Looks standardInput w.state fun u => ∀ i, u.cell? = some i →
      w.heap.Reachable w.state.rootValues i := by
  unfold standardInput
  refine Looks.bind (Looks.gets (Q := fun v => v = w.state.known.standardInput) rfl) ?_
  rintro _ rfl
  exact looks_globalOf (by simp [WellKnown.symbols])

end Good

/-! ## Changing the state -/

section Changing

variable {m : Mode} {d : Nat} {w : System} {v x : Value} {args : List Value}

/-- An action after one that only looks. -/
theorem Yields.look {α : Type} {Q : α → Prop} {act : Act α} {f : α → Act Value}
    (h : Looks act w.state Q) (hf : ∀ a, Q a → Yields m d (f a) w) : Yields m d (act >>= f) w := by
  refine Leads.bind h.leads ?_
  rintro a _ - ⟨rfl, ha⟩
  exact hf a ha

/-- A value that lasts is yielded after some action. -/
theorem Yields.after {α : Type} {Q : α → System → Prop} {act : Act α}
    (h : Leads (Stable m d) act w Q) (hv : w.Held m d v) :
    Yields m d (do
      let _ ← act
      return v) w :=
  Leads.bind h fun _ _ hs _ => Leads.pure (hv.stable hs).good

theorem yields_cons (hhead : w.Good v) (htail : w.Good x) : Yields m d (cons v x) w :=
  (leads_cons hhead htail).stable.mono fun _ _ _ h => h.2.1

theorem yields_makeString (w : System) (text : String) : Yields m d (makeString text) w :=
  (leads_makeString w text).stable.mono fun _ _ _ h => h.2

theorem yields_head (hv : w.Good v) : Yields m d (Builtin.head v) w := by
  unfold Builtin.head
  refine .look (Looks.gets (Q := fun p => p = w.heap.pair? v) rfl) ?_
  rintro _ rfl
  split
  · rename_i hp
    exact .of_good (hv.pair hp).1
  · split
    · exact .of_good w.good_nil
    · exact (looks_typeError _ _).yields

theorem yields_tail (hv : w.Good v) : Yields m d (Builtin.tail v) w := by
  unfold Builtin.tail
  refine .look (Looks.gets (Q := fun p => p = w.heap.pair? v) rfl) ?_
  rintro _ rfl
  split
  · rename_i hp
    exact .of_good (hv.pair hp).2
  · split
    · exact .of_good w.good_nil
    · exact (looks_typeError _ _).yields

/-- One half of a pair changes. -/
theorem yields_updatePair {f : Value → Value → Cell} (hm : m.pairs = false) (hv : w.Good v)
    (hx : w.Held m d x) (hf : ∀ a b, w.Good a → w.Good b →
      ∃ a' b', f a b = .pair a' b' ∧ w.Good a' ∧ w.Good b') :
    Yields m d (Builtin.updatePair v x f) w := by
  unfold Builtin.updatePair
  refine .look (Looks.gets (Q := fun p => p = w.heap.pair? v) rfl) ?_
  rintro _ rfl
  split
  · rename_i i a b hi hp
    obtain ⟨j, rfl, hc⟩ := Heap.exists_of_pair? hp
    obtain rfl : j = i := Option.some.inj ((w.cell?_of_pair hc).symm.trans hi)
    have hne := (Value.cell?_eq_some_iff.1 hi).choose_spec.2
    obtain ⟨a', b', he, ha', hb'⟩ := hf a b (hv.pair hp).1 (hv.pair hp).2
    rw [he]
    exact .after (leads_setPair hm hc (hv.proper.shown j rfl hne) ha' hb') hx
  · exact (looks_typeError _ _).yields

theorem yields_list (hargs : ∀ v ∈ args, w.Held m d v) : Yields m d (Builtin.list args) w := by
  unfold Builtin.list
  refine (Leads.foldlM (P := fun rest u => u.Good rest ∧ ∀ v ∈ args, u.Held m d v)
    ⟨w.good_nil, hargs⟩ ?_).mono fun _ _ _ h => h.1
  rintro v hv rest w' - ⟨hrest, hheld⟩
  refine (leads_cons (hheld v (List.mem_reverse.1 hv)).good hrest).stable.mono ?_
  rintro u w'' hs ⟨-, hu, -⟩
  exact ⟨hu, fun v hv => (hheld v hv).stable hs⟩

theorem yields_newArray (hargs : ∀ v ∈ args, w.Held m d v) :
    Yields m d (Builtin.newArray x args) w := by
  unfold Builtin.newArray
  refine .look (looks_indexOf x) fun n _ => ?_
  refine Leads.bind (leads_allocBlock w (8 * n)).stable ?_
  rintro b w₁ hs₁ ⟨hg₁, hspare⟩
  have hfill : w₁.Good (args.head?.getD .nil) := by
    cases args with
    | nil => exact w₁.good_nil
    | cons v rest => exact ((hargs v List.mem_cons_self).stable hs₁).good
  have hsize : (Payload.values (Array.replicate n (args.head?.getD .nil))).size ≤ 8 * n := by
    simp [Payload.size]
  have hmem : ∀ u ∈ (Payload.values (Array.replicate n (args.head?.getD .nil))).references,
      u = args.head?.getD .nil := by
    intro u hu
    simp only [Payload.references, Array.toList_replicate] at hu
    exact List.eq_of_mem_replicate hu
  refine Leads.bind (leads_putPayload hspare hsize fun u hu => by rw [hmem u hu]; exact hfill.holds).stable ?_
  rintro _ w₂ hs₂ ⟨hg₂, hspare₂, -, hplans⟩
  have hstorable : w₂.Storable none (.array b) := by
    refine System.storable_of_spare rfl rfl hspare₂ hsize fun u hu => ?_
    rw [hmem u (by simpa [Cell.values] using hu)]
    cases args with
    | nil => exact w₂.good_nil
    | cons v rest => exact (((hargs v List.mem_cons_self).stable hs₁).stable hs₂).good
  exact (leads_allocPlain hstorable rfl).stable.mono fun _ _ _ h => h.2.1

theorem yields_arrayRef (array index : Value) : Yields m d (Builtin.arrayRef array index) w := by
  unfold Builtin.arrayRef
  refine .look (looks_arrayIndex array index) ?_
  rintro ⟨b, k⟩ ⟨i, -, hc⟩
  exact (Looks.gets (w.good_item hc k)).yields

theorem yields_arraySet (array index : Value) (hv : w.Held m d v) :
    Yields m d (Builtin.arraySet array index v) w := by
  unfold Builtin.arraySet
  refine .look (looks_arrayIndex array index) ?_
  rintro ⟨b, k⟩ ⟨i, -, hc⟩
  exact .after (leads_setItem hc hv.good) hv

theorem yields_arrayLength (array : Value) : Yields m d (Builtin.arrayLength array) w :=
  .look (looks_arrayOf array) fun _ _ =>
    .look (Looks.gets (Q := fun _ => True) trivial) fun _ _ => .of_good (w.good_ofInt _)

theorem yields_stringAppend (parts : List Value) : Yields m d (Builtin.stringAppend parts) w := by
  unfold Builtin.stringAppend
  refine .look (looks_foldlM (fun acc p => ?_) parts "") fun text _ => yields_makeString w text
  exact Looks.bind (looks_textOf p) fun _ _ => Looks.pure trivial

theorem yields_gensym (w : System) : Yields m d Builtin.gensym w := by
  unfold Builtin.gensym
  refine Leads.bind (leads_quiet w (act_modify _ _) ⟨rfl, rfl, rfl, rfl, rfl, rfl⟩).stable ?_
  rintro _ w' - -
  exact Yields.look (Looks.gets (Q := fun _ => True) trivial) fun _ _ => yields_makeSymbol w' _

theorem yields_symbolName (v : Value) : Yields m d (Builtin.symbolName v) w := by
  unfold Builtin.symbolName
  refine .look (Looks.gets (Q := fun r => ∀ s, r = some s → w.Good s.name) ?_) fun r hr => ?_
  · intro s hs
    split at hs
    · unfold Heap.symbol? at hs
      split at hs
      · rename_i i _
        split at hs
        · rename_i s' hc
          obtain rfl : s' = s := Option.some.inj hs
          refine w.good_of_reference (i := i) (by rw [hc]; rfl) (by rw [hc]; nofun) ?_
          rw [hc]
          simp [Heap.references, Cell.block?, Cell.values]
        · cases hs
      · cases hs
    · cases hs
  · split
    · exact .of_good (hr _ rfl)
    · exact (looks_typeError _ _).yields

theorem yields_stringToNumber (v : Value) : Yields m d (Builtin.stringToNumber v) w := by
  unfold Builtin.stringToNumber
  refine .look (looks_textOf v) fun text _ => .of_good (w.good_of_cell?_eq_none ?_)
  cases Number.parse? (Text.trim text) with
  | none => rfl
  | some n => cases n <;> rfl

theorem yields_numberToString (v : Value) : Yields m d (Builtin.numberToString v) w :=
  .look (looks_numberOf v) fun _ _ =>
    .look (Looks.gets (Q := fun _ => True) trivial) fun _ _ => yields_makeString w _

/-- A declaration leaves the value of the symbol alone. -/
theorem yields_declareSymbol {role : Value} {arity : List Value} (hv : w.Held m d v) :
    Yields m d (Builtin.declareSymbol v role arity) w := by
  have hrole : Looks (Builtin.roleOf role) w.state fun _ => True := by
    unfold Builtin.roleOf
    refine Looks.bind (Looks.gets (Q := fun _ => True) trivial) fun k _ => ?_
    split
    · exact Looks.pure trivial
    · split
      · exact Looks.pure trivial
      · split
        · exact Looks.pure trivial
        · split
          · exact Looks.pure trivial
          · exact looks_typeError _ _
  have harity : Looks (Builtin.arityOf? arity) w.state fun _ => True := by
    unfold Builtin.arityOf?
    split
    · exact Looks.pure trivial
    · refine Looks.bind (looks_integerOf _) fun i _ => ?_
      split
      · exact Looks.pure trivial
      · exact looks_typeError _ _
  unfold Builtin.declareSymbol
  refine .look hrole fun role _ => .look harity fun arity _ => ?_
  refine .after (Q := fun _ _ => True) ?_ hv
  unfold declare
  split
  · refine Leads.mono (leads_updateSymbol ?_ ?_ ?_ ?_) fun _ _ _ _ => trivial
    · exact fun _ => rfl
    · exact fun _ => rfl
    · exact fun _ _ h => .inl h
    · exact fun _ _ _ _ => rfl
  · exact (looks_typeError _ _).leads.mono fun _ _ _ h => h.2

theorem Heap.exists_of_bytecode? {h : Heap} {b : Bytecode} (hb : h.bytecode? v = some b) :
    ∃ i, v.cell? = some i ∧ h.cell i = .bytecode b := by
  unfold Heap.bytecode? at hb
  split at hb
  · rename_i i hi
    split at hb
    · rename_i b' hc
      cases hb
      exact ⟨i, hi, hc⟩
    · cases hb
  · cases hb

/-- The documentation of code is good. -/
theorem System.good_doc {i : Nat} {b : Bytecode} (hc : w.heap.cell i = .bytecode b) :
    w.Good b.doc := by
  have ht := w.typed.cells i
  unfold CellTyped ContentsOk at ht
  rw [show w.state.heap.cell i = _ from hc] at ht
  obtain ⟨plan, -, -, -, -, -, hdoc, -⟩ := ht
  refine ⟨(w.typed.heap.wf.sound i (by rw [show w.state.heap.cell i = _ from hc]; rfl)).values _ ?_,
    hdoc⟩
  rw [show w.state.heap.cell i = _ from hc]
  simp only [Heap.references, Cell.block?, Cell.values]
  simp

theorem yields_documentation (v : Value) : Yields m d (Builtin.documentation v) w := by
  unfold Builtin.documentation
  refine .look (Looks.gets (Q := fun _ => True) trivial) fun code _ => ?_
  split
  · refine .look (looks_bytecodeOf _) fun b hb => ?_
    obtain ⟨i, -, hc⟩ := Heap.exists_of_bytecode? hb
    exact .of_good (w.good_doc hc)
  · exact .of_good w.good_nil

theorem yields_disassemble (v : Value) : Yields m d (Builtin.disassemble v) w := by
  unfold Builtin.disassemble
  refine .look (Looks.gets (Q := fun _ => True) trivial) fun code _ => ?_
  split
  · exact .look (Looks.gets (Q := fun _ => True) trivial) fun _ _ => yields_makeString w _
  · exact (looks_typeError _ _).yields

theorem yields_signal (v : Value) (about : List Value) : Yields m d (Builtin.signal v about) w :=
  (Looks.bind (Looks.gets (Q := fun _ => True) trivial) fun _ _ => Looks.fail _ :
    Looks (Builtin.signal v about) w.state fun v => w.Good v).yields

theorem yields_output {text : Heap → Value → String} (hv : w.Held m d v)
    (hargs : ∀ u ∈ args, w.Held m d u) : Yields m d (Builtin.output text v args) w := by
  unfold Builtin.output
  refine .look (looks_streamOr looks_standardOutput hargs) fun out hout => ?_
  exact .look (Looks.gets (Q := fun _ => True) trivial) fun s _ => .after (leads_writeBytes hout) hv

theorem yields_newline (hargs : ∀ u ∈ args, w.Held m d u) : Yields m d (Builtin.newline args) w := by
  unfold Builtin.newline
  exact .look (looks_streamOr looks_standardOutput hargs) fun out hout =>
    .after (leads_writeBytes hout) System.held_nil

theorem yields_bufferStream (hd : d ≤ w.state.roots.size) :
    Yields m d (Builtin.bufferStream args) w := by
  unfold Builtin.bufferStream
  refine Leads.bind (leads_makeStringStream w).stable ?_
  rintro stream w₁ hs₁ ⟨hg, hstream⟩
  have hd₁ := hs₁.depth d (Nat.le_refl d) hd
  split
  · exact Yields.of_good hstream
  · refine Yields.look (looks_textOf _) fun text _ => ?_
    refine Leads.bind (leads_protect hstream.holds hd₁) ?_
    rintro _ w₂ hs₂ ⟨-, rfl⟩
    have hreach : ∀ i, stream.cell? = some i →
        (w₁.guarding hstream.holds).heap.Reachable (w₁.guarding hstream.holds).state.rootValues i := by
      refine fun i hi => .root (State.mem_rootValues_of_root ?_) hi
      simp [System.guarding, System.rooted]
    have hsize : (w₁.guarding hstream.holds).state.roots.size = w₁.state.roots.size + 1 :=
      Array.size_push _
    have hheld : (w₁.guarding hstream.holds).Held m (w₁.state.roots.size + 1) stream := by
      refine System.held_of_mem ⟨hstream.holds, hstream.proper⟩ ?_
      simp only [State.base, List.mem_append]
      refine .inl (.inl (.inr ?_))
      rw [List.take_of_length_le (by simp [hsize])]
      simp [System.guarding, System.rooted]
    refine Leads.bindFrom (R := Stable m (w₁.state.roots.size + 1)) (leads_writeBytes hreach)
      (fun _ hs => hs.of_le (Nat.le_succ_of_le hd₁)) ?_
    rintro _ w₃ hs₃ -
    have hsize₃ := hs₃.depth _ (Nat.le_refl _) (Nat.le_of_eq hsize.symm)
    have hs₃' : Stable m d (w₁.guarding hstream.holds) w₃ := hs₃.of_le (Nat.le_succ_of_le hd₁)
    refine Leads.bindFrom (leads_unprotect w₃ (m := m) (d := d) (by omega))
      (fun _ hs => Follows.trans hs₃' hs) ?_
    rintro _ _ hs₄ rfl
    exact Leads.ok rfl (Follows.trans hs₃' hs₄) ((hheld.stable hs₃).good.cut _)

theorem yields_openPath (path mode : Value) : Yields m d (Builtin.openPath path mode) w :=
  .look (looks_textOf path) fun _ _ => .look (looks_wordOf mode) fun _ _ => yields_openFile w _ _

theorem yields_nextByte (args : List Value) (hargs : ∀ u ∈ args, w.Held m d u) :
    Yields m d (Builtin.nextByte args) w := by
  unfold Builtin.nextByte
  refine .look (looks_streamOr looks_standardInput hargs) fun stream _ => ?_
  refine Leads.bind (leads_readByte w stream) ?_
  intro b? w' _ _
  split
  · exact Yields.of_good (w'.good_ofInt _)
  · exact Yields.of_good w'.good_nil

theorem yields_putByte (hv : w.Held m d v) (hargs : ∀ u ∈ args, w.Held m d u) :
    Yields m d (Builtin.putByte v args) w := by
  unfold Builtin.putByte
  refine .look (looks_streamOr looks_standardOutput hargs) fun out hout => ?_
  refine .look (looks_integerOf v) fun i _ => ?_
  split
  · exact .look (looks_typeError (Q := fun _ => False) _ _) fun _ h => h.elim
  · exact .after (leads_writeBytes hout) hv

theorem yields_nextChar (args : List Value) (hargs : ∀ u ∈ args, w.Held m d u) :
    Yields m d (Builtin.nextChar args) w := by
  unfold Builtin.nextChar
  refine .look (looks_streamOr looks_standardInput hargs) fun stream _ => ?_
  refine Leads.bind (leads_readChar w stream) ?_
  intro c? w' _ _
  split
  · exact yields_makeString w' _
  · exact Yields.of_good w'.good_nil

theorem yields_putChar (hv : w.Held m d v) (hargs : ∀ u ∈ args, w.Held m d u) :
    Yields m d (Builtin.putChar v args) w := by
  unfold Builtin.putChar
  refine .look (looks_streamOr looks_standardOutput hargs) fun out hout => ?_
  exact .look (looks_textOf v) fun text _ => .after (leads_writeBytes hout) hv

/-! ## All of them -/

theorem yields_one {f : Value → Act Value} (hargs : ∀ v ∈ args, w.Held m d v)
    (hf : ∀ a, w.Held m d a → Yields m d (f a) w) : Yields m d (Builtin.one f args) w := by
  unfold Builtin.one
  split
  · exact hf _ (hargs _ (by simp))
  · exact Leads.halt _

theorem yields_two {f : Value → Value → Act Value} (hargs : ∀ v ∈ args, w.Held m d v)
    (hf : ∀ a b, w.Held m d a → w.Held m d b → Yields m d (f a b) w) :
    Yields m d (Builtin.two f args) w := by
  unfold Builtin.two
  split
  · exact hf _ _ (hargs _ (by simp)) (hargs _ (by simp))
  · exact Leads.halt _

theorem yields_three {f : Value → Value → Value → Act Value} (hargs : ∀ v ∈ args, w.Held m d v)
    (hf : ∀ a b c, w.Held m d a → w.Held m d b → w.Held m d c → Yields m d (f a b c) w) :
    Yields m d (Builtin.three f args) w := by
  unfold Builtin.three
  split
  · exact hf _ _ _ (hargs _ (by simp)) (hargs _ (by simp)) (hargs _ (by simp))
  · exact Leads.halt _

theorem yields_oneOrMore {f : Value → List Value → Act Value} (hargs : ∀ v ∈ args, w.Held m d v)
    (hf : ∀ a rest, w.Held m d a → (∀ v ∈ rest, w.Held m d v) → Yields m d (f a rest) w) :
    Yields m d (Builtin.oneOrMore f args) w := by
  unfold Builtin.oneOrMore
  split
  · exact hf _ _ (hargs _ (by simp)) fun v hv => hargs v (by simp [hv])
  · exact Leads.halt _

theorem yields_twoOrMore {f : Value → Value → List Value → Act Value}
    (hargs : ∀ v ∈ args, w.Held m d v)
    (hf : ∀ a b rest, w.Held m d a → w.Held m d b → (∀ v ∈ rest, w.Held m d v) →
      Yields m d (f a b rest) w) : Yields m d (Builtin.twoOrMore f args) w := by
  unfold Builtin.twoOrMore
  split
  · exact hf _ _ _ (hargs _ (by simp)) (hargs _ (by simp)) fun v hv => hargs v (by simp [hv])
  · exact Leads.halt _

theorem yields_truth (w : System) (b : Bool) : Yields m d (truth b) w := (looks_truth b).yields

theorem yields_ask {test : Heap → Value → Bool} (hargs : ∀ v ∈ args, w.Held m d v) :
    Yields m d (Builtin.ask test args) w :=
  yields_one hargs fun _ _ => .look (Looks.gets (Q := fun _ => True) trivial) fun _ _ => yields_truth w _

theorem yields_compareAll {test : Ordering → Bool} (hargs : ∀ v ∈ args, w.Held m d v) :
    Yields m d (Builtin.oneOrMore (compareAll test) args) w :=
  yields_oneOrMore hargs fun _ _ _ _ =>
    .look (looks_numberOf _) fun _ _ => (looks_compareFrom test _ _).yields

/-- A built-in procedure that programs may call, and that changes pairs only if they need not
stay as they are. -/
def Primitive.isTame (pairs : Bool) : Primitive → Bool
  | .makeClosure | .host .evaluate => false
  | .setHead | .setTail => !pairs
  | _ => true

/-- A built-in procedure that programs may call leaves what lasts as it was, and yields a good
value. -/
theorem yields_apply {p : Primitive} (hp : p.isTame m.pairs = true) (hd : d ≤ w.state.roots.size)
    (hargs : ∀ v ∈ args, w.Held m d v) : Yields m d (Builtin.apply p args) w := by
  cases p with
  | add => exact (looks_foldArith _ _ _).yields_of_cell?
  | mul => exact (looks_foldArith _ _ _).yields_of_cell?
  | sub => exact yields_oneOrMore hargs fun _ _ _ _ => (looks_subtract _ _).yields_of_cell?
  | div => exact yields_oneOrMore hargs fun _ _ _ _ => (looks_divide _ _).yields_of_cell?
  | modulo => exact yields_two hargs fun _ _ _ _ => (looks_modulo _ _).yields_of_cell?
  | numEq | numLt | numGt | numLe | numGe => exact yields_compareAll hargs
  | same => exact yields_two hargs fun _ _ _ _ => yields_truth w _
  | equal =>
      exact yields_two hargs fun _ _ _ _ =>
        .look (Looks.gets (Q := fun _ => True) trivial) fun _ _ => yields_truth w _
  | not | isNil | isPair | isSymbol | isInt | isFloat | isNumber | isString | isProcedure
  | isArray | isContinuation | isStream =>
      unfold Builtin.apply
      exact yields_ask hargs
  | cons => exact yields_two hargs fun _ _ ha hb => yields_cons ha.good hb.good
  | head => exact yields_one hargs fun _ ha => yields_head ha.good
  | tail => exact yields_one hargs fun _ ha => yields_tail ha.good
  | setHead =>
      have hm : m.pairs = false := by simpa [Primitive.isTame] using hp
      exact yields_two hargs fun _ x ha hx =>
        yields_updatePair hm ha.good hx fun _ b _ hb => ⟨x, b, rfl, hx.good, hb⟩
  | setTail =>
      have hm : m.pairs = false := by simpa [Primitive.isTame] using hp
      exact yields_two hargs fun _ x ha hx =>
        yields_updatePair hm ha.good hx fun a _ ha _ => ⟨a, x, rfl, ha, hx.good⟩
  | list => exact yields_list hargs
  | makeArray => exact yields_oneOrMore hargs fun _ _ _ hrest => yields_newArray hrest
  | arrayRef => exact yields_two hargs fun _ _ _ _ => yields_arrayRef _ _
  | arraySet => exact yields_three hargs fun _ _ _ _ _ hx => yields_arraySet _ _ hx
  | arrayLength => exact yields_one hargs fun _ _ => yields_arrayLength _
  | stringLength =>
      exact yields_one hargs fun _ _ => .look (looks_textOf _) fun _ _ => .of_good (w.good_ofInt _)
  | stringAppend => exact yields_stringAppend args
  | symbolName => exact yields_one hargs fun _ _ => yields_symbolName _
  | intern =>
      exact yields_one hargs fun _ _ => .look (looks_textOf _) fun _ _ => yields_intern w _
  | gensym => exact yields_gensym w
  | stringToNumber => exact yields_one hargs fun _ _ => yields_stringToNumber _
  | numberToString => exact yields_one hargs fun _ _ => yields_numberToString _
  | readFromString =>
      exact yields_one hargs fun _ _ => .look (looks_textOf _) fun _ _ => yields_read _ hd
  | declare => exact yields_twoOrMore hargs fun _ _ _ ha _ _ => yields_declareSymbol ha
  | makeClosure => cases hp
  | documentation => exact yields_one hargs fun _ _ => yields_documentation _
  | disassemble => exact yields_one hargs fun _ _ => yields_disassemble _
  | signal => exact yields_oneOrMore hargs fun _ _ _ _ => yields_signal _ _
  | collect =>
      refine Leads.bind (leads_collect w).stable fun _ w' _ _ => ?_
      exact Yields.look (Looks.gets (Q := fun _ => True) trivial) fun _ _ => .of_good (w'.good_ofInt _)
  | print | display => exact yields_oneOrMore hargs fun _ _ ha hrest => yields_output ha hrest
  | newline => exact yields_newline hargs
  | makeStringStream => exact yields_bufferStream hd
  | streamString => exact yields_one hargs fun _ _ => yields_streamString w _
  | openFile => exact yields_two hargs fun _ _ _ _ => yields_openPath _ _
  | closeStream =>
      exact yields_one hargs fun _ _ => .after (leads_closeStream w _) System.held_nil
  | readByte => exact yields_nextByte args hargs
  | writeByte => exact yields_oneOrMore hargs fun _ _ ha hrest => yields_putByte ha hrest
  | readChar => exact yields_nextChar args hargs
  | writeChar => exact yields_oneOrMore hargs fun _ _ ha hrest => yields_putChar ha hrest
  | host h =>
      cases h with
      | evaluate => cases hp
      | count => exact .of_good (w.good_ofInt _)
      | last =>
          refine .of_good ?_
          cases hlast : args.getLast? with
          | none => exact w.good_nil
          | some v => exact (hargs v (List.mem_of_getLast? hlast)).good

end Changing

end CellLisp
