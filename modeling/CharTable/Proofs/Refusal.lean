import CharTable.Proofs.ByteOrder
import CharTable.Proofs.Packing
import Mathlib.Order.WellFounded

/-!
What stops packing. The bytes are packed in ascending order and the symbols of a byte in the order
of their bytes; the first symbol without a flag, or with a class behind another class, decides the
fault.
-/
namespace CharTable.Packed

def Classed (e : Encoding) (s : String) : Prop := ∃ v, e.get? s = some (.ofClass v)

/-- The byte has the symbol, and the symbol has no flag, or it has a class and so has a smaller
symbol of the byte. -/
def Unpackable (t : Table) (e : Encoding) (b : UInt8) (s : String) : Prop :=
  t.hasSymbol b s = true ∧ (e.get? s = none ∨
    Classed e s ∧ ∃ r, t.hasSymbol b r = true ∧ Classed e r ∧ Utf8.encode r < Utf8.encode s)

structure FirstUnpackable (t : Table) (e : Encoding) (b : UInt8) (s : String) : Prop where
  here : Unpackable t e b s
  byte : ∀ c u, Unpackable t e c u → b ≤ c
  symbol : ∀ u, Unpackable t e b u → Utf8.encode s ≤ Utf8.encode u

inductive Refusal (t : Table) (e : Encoding) (b : UInt8) (s : String) : Fault → Prop
  | unmapped (free : e.get? s = none) : Refusal t e b s (.unencodedTag s)
  -- One smaller symbol of the byte has a class, and it is another class of another symbol.
  | conflict {first : String} {v w : UInt8} (early : e.get? first = some (.ofClass v))
      (late : e.get? s = some (.ofClass w)) (symbols : first ≠ s) (values : v ≠ w)
      (only : ∀ r, t.hasSymbol b r = true ∧ Classed e r ∧ Utf8.encode r < Utf8.encode s ↔
        r = first) : Refusal t e b s (.classConflict b first s)

variable {t : Table} {e : Encoding} {b : UInt8} {s : String}

/-- Behind symbols that can be packed the scan goes on, with the class among them if there is
one. -/
theorem scan_packable {before : List String} (sorted : before.Pairwise (· < ·))
    (packable : ∀ r ∈ before, t.hasSymbol b r = true ∧ ¬ Unpackable t e b r) (after : List String) :
    ∃ found bits, scan e b none 0 (before ++ after) = scan e b found bits after ∧
      ∀ v r, found = some (v, r) ↔ r ∈ before ∧ e.get? r = some (.ofClass v) := by
  induction before using List.reverseRecOn generalizing after with
  | nil => exact ⟨none, 0, rfl, by simp⟩
  | append_singleton before s ih =>
    obtain ⟨earlier, _, below⟩ := List.pairwise_append.mp sorted
    obtain ⟨has, fine⟩ := packable s (by simp)
    obtain ⟨found, bits, runs, held⟩ :=
      ih earlier (fun r listed => packable r (by simp [listed])) (s :: after)
    simp only [List.append_assoc, List.singleton_append, runs, scan, List.mem_append,
      List.mem_singleton]
    cases mapped : e.get? s with
    | none => exact absurd ⟨has, Or.inl mapped⟩ fine
    | some flag =>
      cases flag with
      | bit w =>
        refine ⟨found, bits ||| w, rfl, fun v r =>
          (held v r).trans ⟨fun old => ⟨Or.inl old.1, old.2⟩, ?_⟩⟩
        rintro ⟨listed | rfl, classed⟩
        · exact ⟨listed, classed⟩
        · cases mapped.symm.trans classed
      | ofClass w =>
        cases state : found with
        | some first =>
          obtain ⟨listed, classed⟩ := (held first.1 first.2).mp state
          have less := Utf8.encode_lt_iff.mpr (below _ listed s (by simp))
          have on := (packable first.2 (by simp [listed])).1
          exact absurd ⟨has, Or.inr ⟨⟨w, mapped⟩, first.2, on, ⟨_, classed⟩, less⟩⟩ fine
        | none =>
          refine ⟨some (w, s), bits, rfl, fun v r => ⟨?_, ?_⟩⟩
          · rintro ⟨⟩
            exact ⟨Or.inr rfl, mapped⟩
          · rintro ⟨listed | rfl, classed⟩
            · cases state.symm.trans ((held v r).mpr ⟨listed, classed⟩)
            · cases mapped.symm.trans classed
              rfl

theorem exists_flagByte (legible : t.Legible) (packable : ∀ s, ¬ Unpackable t e b s) :
    ∃ f, flagByte t e b = .ok f := by
  obtain ⟨found, bits, runs, _⟩ := scan_packable (legible.pairwise_lt_sortedSymbols b)
    (fun r listed => ⟨Table.mem_sortedSymbols.mp listed, packable r⟩) []
  rw [List.append_nil] at runs
  exact ⟨_, runs⟩

theorem exists_ofTable (legible : t.Legible) (packable : ∀ b s, ¬ Unpackable t e b s) :
    ∃ p, ofTable t e = .ok p := by
  have each (b : UInt8) : ∃ f, flagByte t e b = .ok f := exists_flagByte legible (packable b)
  choose flags packed using each
  refine ⟨⟨e.mask, Vector.ofFn fun i => flags (UInt8.ofNat i.val)⟩,
    ofTable_eq_ok_iff.mpr ⟨rfl, fun b => ?_⟩⟩
  simp [flagsOf, packed]

theorem flagByte_refusal (legible : t.Legible) (here : Unpackable t e b s)
    (least : ∀ u, Unpackable t e b u → Utf8.encode s ≤ Utf8.encode u) :
    ∃ fault, Refusal t e b s fault ∧ flagByte t e b = .error fault := by
  obtain ⟨before, after, parted⟩ := List.append_of_mem (Table.mem_sortedSymbols.mpr here.1)
  have smaller := legible.mem_before_iff parted
  have sorted : before.Pairwise (· < ·) :=
    (List.pairwise_append.mp (parted ▸ legible.pairwise_lt_sortedSymbols b)).1
  have packable (r : String) (listed : r ∈ before) : t.hasSymbol b r = true ∧
      ¬ Unpackable t e b r := by
    obtain ⟨on, less⟩ := (smaller r).mp listed
    exact ⟨on, fun refused => least r refused (Utf8.encode_lt_iff.mpr less)⟩
  obtain ⟨found, bits, runs, held⟩ := scan_packable sorted packable (s :: after)
  rw [flagByte, parted, runs, scan]
  obtain ⟨_, unmapped | ⟨⟨w, late⟩, first, on, ⟨v, early⟩, less⟩⟩ := here
  · rw [unmapped]
    exact ⟨_, .unmapped unmapped, rfl⟩
  · have state : found = some (v, first) :=
      (held v first).mpr ⟨(smaller first).mpr ⟨on, Utf8.encode_lt_iff.mp less⟩, early⟩
    have symbols : first ≠ s := by
      rintro rfl
      exact List.lt_irrefl _ less
    rw [late, state]
    refine ⟨_, .conflict early late symbols ?_ fun r => ⟨?_, ?_⟩, rfl⟩
    · rintro rfl
      exact symbols (Encoding.get?_injective early late)
    · rintro ⟨there, ⟨x, classed⟩, below⟩
      have again := (held x r).mpr ⟨(smaller r).mpr ⟨there, Utf8.encode_lt_iff.mp below⟩, classed⟩
      cases state.symm.trans again
      rfl
    · rintro rfl
      exact ⟨on, ⟨v, early⟩, less⟩

theorem ofTable_error {fault : Fault} (each : ∀ c < b, ∃ f, flagByte t e c = .ok f)
    (failed : flagByte t e b = .error fault) : ofTable t e = .error fault := by
  have stopped : (Vector.ofFn fun i : Fin 256 => UInt8.ofNat i.val).mapM (flagByte t e) =
      .error fault := by
    apply Traverse.vector_mapM_fault b.toNat_lt
    · intro j below
      have reached : (UInt8.ofNat j).toNat = j :=
        UInt8.toNat_ofNat_of_lt' (Nat.lt_trans below b.toNat_lt)
      rw [Vector.getElem_ofFn]
      exact each _ (UInt8.lt_iff_toNat_lt.mpr (by rwa [reached]))
    · rwa [Vector.getElem_ofFn, UInt8.ofNat_toNat]
  rw [ofTable, stopped]
  rfl

/-- The first symbol that cannot be packed decides the fault. -/
theorem ofTable_refusal (legible : t.Legible) (first : FirstUnpackable t e b s) :
    ∃ fault, Refusal t e b s fault ∧ ofTable t e = .error fault := by
  obtain ⟨fault, refusal, failed⟩ := flagByte_refusal legible first.here first.symbol
  refine ⟨fault, refusal,
    ofTable_error (fun c below => exists_flagByte legible fun u refused => ?_) failed⟩
  exact absurd (first.byte c u refused) (UInt8.not_le.mpr below)

/-- If something cannot be packed there is a first byte and a first symbol of it that cannot. -/
theorem exists_firstUnpackable (legible : t.Legible) (some : ∃ b s, Unpackable t e b s) :
    ∃ b s, FirstUnpackable t e b s := by
  obtain ⟨b, ⟨u, refused⟩, least⟩ :=
    (measure UInt8.toNat).wf.has_min {b | ∃ s, Unpackable t e b s} some
  have listed : ∃ s ∈ t.sortedSymbols b, Unpackable t e b s :=
    ⟨u, Table.mem_sortedSymbols.mpr refused.1, refused⟩
  obtain ⟨before, s, after, parted, none, here⟩ := Traverse.first_of_exists listed
  refine ⟨b, s, here, fun c u refused => UInt8.not_lt.mp (least c ⟨u, refused⟩),
    fun u refused less => ?_⟩
  exact none u ((legible.mem_before_iff parted u).mpr
    ⟨refused.1, Utf8.encode_lt_iff.mp less⟩) refused

section Program

variable {ds : List Declaration} {m : Model} {rules : List Rule}

/-- Packing succeeds when every symbol of every byte can be packed. Otherwise there is a first
symbol that cannot, and the fault is that it has no flag, or that it has a class as one smaller
symbol of its byte has. -/
theorem ofTable_outcome (accepted : Model.ofDeclarations ds = .ok m)
    (built : Table.ofRules m rules = .ok t) (e : Encoding) :
    ((∃ p, ofTable t e = .ok p) ↔ ∀ b s, ¬ Unpackable t e b s) ∧
      ((∃ b s, Unpackable t e b s) → ∃ b s, FirstUnpackable t e b s) ∧
      ∀ b s, FirstUnpackable t e b s →
        ∃ fault, Refusal t e b s fault ∧ ofTable t e = .error fault := by
  have legible := Table.legible_ofRules (copies_of_ofDeclarations accepted) built
  refine ⟨⟨fun packs b s refused => ?_, exists_ofTable legible⟩, exists_firstUnpackable legible,
    fun b s first => ofTable_refusal legible first⟩
  obtain ⟨p, packed⟩ := packs
  obtain ⟨c, u, first⟩ := exists_firstUnpackable legible ⟨b, s, refused⟩
  obtain ⟨fault, _, failed⟩ := ofTable_refusal legible first
  cases packed.symm.trans failed

end Program

section Word
open Table (wordTags)

def wordRange : List Rule := [.range "WORD" (.code 250) (.code 255)]

def clashingFlags : List (String × Flag) :=
  [("C_LETTER", .ofClass 1), ("C_DIGIT", .ofClass 2), ("C_JOINER", .bit 4)]

theorem exists_wordRange :
    ∃ m t, Model.ofDeclarations wordTags = .ok m ∧ Table.ofRules m wordRange = .ok t ∧
      t.hasSymbol 250 "C_LETTER" = true ∧ t.hasSymbol 250 "C_DIGIT" = true ∧
      ∀ c s, t.hasSymbol c s = true →
        250 ≤ c ∧ (s = "C_LETTER" ∨ s = "C_DIGIT" ∨ s = "C_JOINER") := by
  obtain ⟨m, _, accepted, _⟩ := Table.exists_word
  have copies := copies_of_ofDeclarations accepted
  obtain ⟨t, built⟩ :=
    (Table.exists_ofRules_iff_declared copies).mpr (show ∀ rule ∈ wordRange, _ by decide)
  have word (leaf s : String) (part : leaf ∈ ["LETTER", "DIGIT"])
      (declared : ⟨leaf, .atomic s⟩ ∈ wordTags) : t.hasSymbol 250 s = true := by
    have alnum : Carries wordTags "ALNUM" s :=
      ⟨leaf, .single ⟨["LETTER", "DIGIT"], by decide, part⟩, declared⟩
    have whole : Carries wordTags "WORD" s :=
      alnum.of_part ⟨["ALNUM", "LOW_LINE"], by decide, by decide⟩
    exact Table.hasSymbol_of_names copies built List.mem_cons_self ⟨250, 255, by decide⟩ whole
  refine ⟨m, t, accepted, built, word "LETTER" _ (by decide) (by decide),
    word "DIGIT" _ (by decide) (by decide), ?_⟩
  intro c s has
  obtain ⟨leaf, declared⟩ := Table.declared_of_hasSymbol copies built has
  obtain ⟨rule, listed, named, _⟩ := Table.names_of_hasSymbol copies built has
  rw [List.mem_singleton.mp listed] at named
  obtain ⟨lo, hi, lower, _, above, _⟩ := named
  cases lower
  exact ⟨above, Table.symbol_of_wordTags declared⟩

theorem exists_clashing :
    ∃ e, Encoding.ofEntries 3 clashingFlags = .ok e ∧ e.get? "C_LETTER" = some (.ofClass 1) ∧
      e.get? "C_DIGIT" = some (.ofClass 2) ∧ e.get? "C_JOINER" = some (.bit 4) :=
  ⟨_, rfl, rfl, rfl, rfl⟩

theorem ofTable_clash :
    ∃ m t e, Model.ofDeclarations wordTags = .ok m ∧ Table.ofRules m wordRange = .ok t ∧
      Encoding.ofEntries 3 clashingFlags = .ok e ∧ FirstUnpackable t e 250 "C_LETTER" ∧
      ofTable t e = .error (.classConflict 250 "C_DIGIT" "C_LETTER") := by
  obtain ⟨m, t, accepted, built, onLetter, onDigit, known⟩ := exists_wordRange
  obtain ⟨e, encoded, letter, digit, joiner⟩ := exists_clashing
  have smaller : Utf8.encode "C_DIGIT" < Utf8.encode "C_LETTER" := by decide
  have only {c : UInt8} {s : String} (refused : Unpackable t e c s) : s = "C_LETTER" := by
    obtain ⟨has, cause⟩ := refused
    rcases (known c s has).2 with rfl | rfl | rfl
    · rfl
    · rcases cause with free | ⟨_, r, other, _, less⟩
      · cases free.symm.trans digit
      · -- No symbol is smaller than this one.
        rcases (known c r other).2 with rfl | rfl | rfl <;> exact absurd less (by decide)
    · rcases cause with free | ⟨⟨v, late⟩, _⟩
      · cases free.symm.trans joiner
      · cases late.symm.trans joiner
  have first : FirstUnpackable t e 250 "C_LETTER" := by
    refine ⟨⟨onLetter, Or.inr ⟨⟨1, letter⟩, "C_DIGIT", onDigit, ⟨2, digit⟩, smaller⟩⟩, ?_, ?_⟩
    · exact fun c s refused => (known c s refused.1).1
    · exact fun s refused => only refused ▸ List.le_refl _
  refine ⟨m, t, e, accepted, built, encoded, first, ?_⟩
  obtain ⟨_, _, refuses⟩ := ofTable_outcome accepted built e
  obtain ⟨fault, refusal, failed⟩ := refuses _ _ first
  cases refusal with
  | unmapped free => cases free.symm.trans letter
  | conflict _ _ _ _ earlier => rw [failed, (earlier "C_DIGIT").mp ⟨onDigit, ⟨2, digit⟩, smaller⟩]

end Word
end CharTable.Packed
