import CellLisp.Proofs.Syntax.Readable

/-!
# `CellLisp.Proofs.Syntax.RoundTrip` — what is printed reads back

On readable data, reading undoes printing.  What the reader yields is readable, so a value that
was read once is read again from its text, as often as one likes.
-/

namespace CellLisp

/-- Every value that a text is read as is a tree whose leaves can be written.  The text of such a
value is read as the same tree, unless a store is full; and if the roots keep the value, it is
equal to the one read. -/
theorem State.read_undoes_print {s : State} (hs : s.Ready) :
    (∀ text v s', read text s = .ok v s' → s'.Readable v) ∧
    (∀ text v s', readAll text s = .ok v s' → s'.Readable v) ∧
    ∀ v, s.Readable v → Gives (fun _ => False) (read (s.heap.print v)) s fun w s' =>
      (∀ d, s.Denotes v d → s'.Denotes w d) ∧
      (s.heap.Reaches s.rootValues v → s'.heap.equal v w = true) := by
  refine ⟨fun text v s' h => (gives_readable_read hs text).of_ok h,
    fun text v s' h => (gives_readable_readAll hs text).of_ok h, fun v hv => ?_⟩
  obtain ⟨d, hd, hr⟩ := hv
  refine (gives_read_print hs hd hr).mono ?_
  rintro w s' ⟨hon, hw⟩
  refine ⟨fun d' hd' => by rw [hd'.unique hd]; exact hw, fun hreach => ?_⟩
  exact (hd.onward hs.toInOrder hon (hreach.mono (List.subset_append_left _ _))).equal_of_denotes hw

/-! ### A list with a leaf of every kind -/

/-- Twelve cells: the symbol 1 with its name 2, and from 3 on the list that is written
`(quote -7 0.5 . "a b")`. -/
def Heap.mixed : Heap :=
  { cells := #[.free 0, .symbol (.fresh (.ref .object 2) (hashName (Utf8.encode "quote")) .nil),
      .string ⟨0⟩, .pair (.ref .symbol 1) (.ref .pair 4), .pair (.int (-7)) (.ref .pair 5),
      .pair (.ofFloat ⟨0x3F000000⟩) (.ref .object 6), .string ⟨2⟩, .free 8, .free 9, .free 10,
      .free 11, .free 0]
    marks := Array.replicate 12 false
    firstFree := 7
    freeCount := 5
    lowWater := 0
    arena :=
      { slots := #[.header ⟨1, true, false, .text "quote"⟩, .inner,
          .header ⟨1, true, false, .text "a b"⟩, .inner]
        residue := #[]
        limit := 64 }
    collections := 0 }

/-- The list is protected. -/
def State.mixed : State :=
  { heap := .mixed
    symbols := ⟨#[.ref .symbol 1], 1⟩
    machine := { limit := 16 }
    roots := #[.ref .pair 3]
    known := { quote := .ref .symbol 1 }
    config := {}
    gensyms := 0
    failure := none
    world := { input := [], output := .empty, log := #[], files := [] } }

theorem Heap.pooled_mixed : Heap.mixed.Pooled := by
  refine ⟨rfl, rfl, [7, 8, 9, 10, 11], ?_, by decide, rfl, fun i => ?_⟩
  · exact .cons (by decide) rfl (.cons (by decide) rfl (.cons (by decide) rfl
      (.cons (by decide) rfl (.cons (by decide) rfl .nil))))
  · match i with
    | 0 | 1 | 2 | 3 | 4 | 5 | 6 | 7 | 8 | 9 | 10 | 11 => simp [Heap.mixed, Heap.cell, Cell.isFree]
    | n + 12 =>
        have hsize : ¬n + 12 < Heap.mixed.cells.size := by
          show ¬n + 12 < 12
          omega
        simp [hsize]

theorem Heap.holds_mixed {vs : List Value}
    (hvs : ∀ v ∈ vs, v.cell? = none ∨ v ∈ [Value.ref .symbol 1, .ref .object 2, .ref .pair 3,
      .ref .pair 4, .ref .pair 5, .ref .object 6]) : ∀ v ∈ vs, Heap.mixed.Holds v := by
  intro v hv
  rcases hvs v hv with hnone | hmem
  · exact holds_of_cell?_eq_none hnone
  · rintro tag i hi -
    simp only [List.mem_cons, List.not_mem_nil, or_false] at hmem
    rcases hmem with rfl | rfl | rfl | rfl | rfl | rfl <;> cases hi <;> exact ⟨rfl, rfl⟩

theorem Heap.sound_mixed (i : Nat) (hi : (Heap.mixed.cell i).isFree = false) :
    Heap.mixed.Sound (Heap.mixed.cell i) := by
  have hblock : ∀ j : Nat, (Heap.mixed.cell j).block? = none →
      (∀ v ∈ Heap.mixed.references (Heap.mixed.cell j), Heap.mixed.Holds v) →
      Heap.mixed.Sound (Heap.mixed.cell j) := fun j hnone hrefs =>
    ⟨hrefs, by rw [hnone]; rintro b ⟨⟩⟩
  rcases i with _ | _ | _ | _ | _ | _ | _ | n
  · cases hi
  · have hrefs : Heap.mixed.references (Heap.mixed.cell 1) = [.ref .object 2, .nil] := rfl
    exact hblock 1 rfl (by rw [hrefs]; exact holds_mixed (by simp [Value.cell?]))
  · exact ⟨by rintro v ⟨⟩, by rintro b ⟨⟩; exact ⟨_, rfl, rfl⟩⟩
  · have hrefs : Heap.mixed.references (Heap.mixed.cell 3) = [.ref .symbol 1, .ref .pair 4] := rfl
    exact hblock 3 rfl (by rw [hrefs]; exact holds_mixed (by simp))
  · have hrefs : Heap.mixed.references (Heap.mixed.cell 4) = [.int (-7), .ref .pair 5] := rfl
    exact hblock 4 rfl (by rw [hrefs]; exact holds_mixed (by simp [Value.cell?]))
  · have hrefs : Heap.mixed.references (Heap.mixed.cell 5)
      = [.ofFloat ⟨0x3F000000⟩, .ref .object 6] := rfl
    exact hblock 5 rfl (by rw [hrefs]; exact holds_mixed (by simp [Value.cell?, Value.ofFloat]))
  · exact ⟨by rintro v ⟨⟩, by rintro b ⟨⟩; exact ⟨_, rfl, rfl⟩⟩
  · rcases n with _ | _ | _ | _ | _ | n
    case succ => simp [Heap.mixed, Heap.cell, Cell.isFree] at hi
    all_goals cases hi

theorem Heap.wellFormed_mixed : Heap.mixed.WellFormed := by
  refine ⟨pooled_mixed, ?_, by decide, sound_mixed, fun i => ?_, fun o r hr => ?_⟩
  · refine .block (r := ⟨1, true, false, .text "quote"⟩) rfl (by decide) (fun k hk hk' => ?_)
      (.block (r := ⟨1, true, false, .text "a b"⟩) rfl (by decide) (fun k hk hk' => ?_) (.done rfl))
    · obtain rfl : k = 1 := by simp at hk'; omega
      rfl
    · obtain rfl : k = 3 := by simp at hk hk'; omega
      rfl
  · rcases i with _ | _ | _ | _ | _ | _ | _ | _ | _ | _ | _ | _ | n
    case succ => simp [Heap.mixed, Heap.marked]
    all_goals rfl
  · rcases o with _ | _ | _ | _ | n
    case succ => simp [Heap.mixed, Arena.record?] at hr
    all_goals cases hr
    all_goals rfl

theorem Heap.block?_mixed {i : Nat} {b : Block} (hb : (Heap.mixed.cell i).block? = some b) :
    i = 2 ∧ b = ⟨0⟩ ∨ i = 6 ∧ b = ⟨2⟩ := by
  match i with
  | 0 | 1 | 3 | 4 | 5 | 7 | 8 | 9 | 10 | 11 => cases hb
  | 2 => cases hb; exact .inl ⟨rfl, rfl⟩
  | 6 => cases hb; exact .inr ⟨rfl, rfl⟩
  | n + 12 => simp [Heap.mixed, Heap.cell, Cell.block?] at hb

theorem Heap.orderly_mixed : Heap.mixed.Orderly := by
  refine ⟨wellFormed_mixed, fun i j b hi hj => ?_, fun i b hi => ?_⟩
  · rcases block?_mixed hi with ⟨rfl, rfl⟩ | ⟨rfl, rfl⟩ <;>
      rcases block?_mixed hj with ⟨rfl, hb⟩ | ⟨rfl, hb⟩ <;> first | rfl | cases hb
  · rcases block?_mixed hi with ⟨rfl, rfl⟩ | ⟨rfl, rfl⟩ <;> decide

theorem State.findSymbol?_mixed : State.mixed.findSymbol? "quote" = some (.ref .symbol 1) := by
  have hslot : ∀ hash, State.mixed.symbols.slot hash = 0 := fun hash => Nat.mod_one _
  refine findSymbol?_eq_some_iff.2 ⟨0, ?_⟩
  rw [chainOf, hslot]
  exact .here rfl rfl ⟨rfl, rfl⟩

theorem State.ready_mixed : State.mixed.Ready := by
  refine ⟨⟨Heap.orderly_mixed, ?_, by decide⟩, findSymbol?_mixed⟩
  have hroots : State.mixed.rootValues
    = [.ref .symbol 1, .ref .pair 3, .nil, .nil, .nil, .nil] := rfl
  rw [hroots]
  exact Heap.holds_mixed (by simp [Value.cell?])

theorem State.readable_mixed : State.mixed.Readable (.ref .pair 3) := by
  refine ⟨.pair (.symbol "quote") (.pair (.int (-7)) (.pair (.float ⟨0x3F000000⟩) (.string "a b"))),
    .pair rfl (.symbol findSymbol?_mixed) (.pair rfl (.int _) (.pair rfl (.float _) (.string rfl))),
    by decide⟩

/-- The list is read back. -/
theorem State.read_undoes_print_mixed :
    State.mixed.Ready ∧ State.mixed.Readable (.ref .pair 3) ∧
    ∀ w s', read (State.mixed.heap.print (.ref .pair 3)) State.mixed = .ok w s' →
      s'.heap.equal (.ref .pair 3) w = true := by
  have hroot : Value.ref .pair 3 ∈ State.mixed.roots := Array.mem_singleton.2 rfl
  have hready := ready_mixed
  have hreadable := readable_mixed
  -- The text and the run of the sample are not to be evaluated here.
  generalize State.mixed = s at *
  refine ⟨hready, hreadable, fun w s' h => ?_⟩
  have hread := (State.read_undoes_print hready).2.2 _ hreadable
  exact (hread.of_ok h).2 (Heap.reaches_of_mem (mem_rootValues_of_roots hroot))

end CellLisp
