import CharTable.Proofs.ByteOrder
import CharTable.Proofs.Equality

/-!
The symbols of a byte in their order. An entry lists atoms as they were inserted; read through their
symbols and sorted, they make the one list that has each symbol of the byte once, before those whose
UTF-8 forms have greater bytes.
-/
namespace CharTable.Table

variable {ds : List Declaration} {m : Model} {t : Table}

def Ascending (symbols : List String) : Prop := (symbols.map Utf8.encode).Pairwise (· < ·)

instance (symbols : List String) : Decidable (Ascending symbols) :=
  inferInstanceAs (Decidable ((symbols.map Utf8.encode).Pairwise (· < ·)))

theorem ascending_iff {symbols : List String} : Ascending symbols ↔ symbols.Pairwise (· < ·) := by
  rw [Ascending, List.pairwise_map]
  simp only [Utf8.encode_lt_iff]

theorem Ascending.nodup {symbols : List String}
    (ascending : Ascending symbols) : symbols.Nodup := by
  refine (ascending_iff.mp ascending).imp fun {s u} less same => ?_
  subst same
  exact String.lt_irrefl s less

/-- Ascending lists of the same symbols are one list. -/
theorem Ascending.unique {first second : List String} (left : Ascending first)
    (right : Ascending second) (same : ∀ s, s ∈ first ↔ s ∈ second) : first = second := by
  have permuted : first.Perm second := (List.perm_ext_iff_of_nodup left.nodup right.nodup).mpr same
  apply permuted.eq_of_pairwise ?_ (ascending_iff.mp left) (ascending_iff.mp right)
  intro s u _ _ less greater
  exact absurd (String.lt_trans less greater) (String.lt_irrefl s)

/-- Sorted symbols without repetition ascend strictly in the order of their bytes. -/
theorem Legible.ascending_sortedSymbols (legible : t.Legible) (b : UInt8) :
    Ascending (t.sortedSymbols b) :=
  ascending_iff.mpr (legible.pairwise_lt_sortedSymbols b)

/-- Every atom of an entry has a symbol, so none is left out. -/
theorem Legible.length_sortedSymbols (legible : t.Legible) (b : UInt8) :
    (t.sortedSymbols b).length = (t.entry b).size := by
  calc
    (t.sortedSymbols b).length = (t.symbolsOn b).length := List.length_mergeSort _
    _ = (t.entry b).atoms.length := by
      rw [symbolsOn, List.filterMap_length_eq_length]
      intro a member
      exact Option.isSome_iff_exists.mpr (legible.named b a member)

/-- On every table that can be reached over accepted declarations, whatever characters the symbols
have, the sorted symbols of a byte ascend without repetition, are as many as the atoms of its entry,
and are the symbols it has; no other ascending list has just these. -/
theorem sortedSymbols_ascending (accepted : Model.ofDeclarations ds = .ok m)
    (reached : Reachable m t) (b : UInt8) :
    Ascending (t.sortedSymbols b) ∧ (t.sortedSymbols b).Nodup ∧
      (t.sortedSymbols b).length = (t.entry b).size ∧
      (∀ s, s ∈ t.sortedSymbols b ↔ t.hasSymbol b s = true) ∧
      ∀ symbols, Ascending symbols → (∀ s, s ∈ symbols ↔ t.hasSymbol b s = true) →
        symbols = t.sortedSymbols b := by
  have legible := reached.legible (copies_of_ofDeclarations accepted)
  have ascending := legible.ascending_sortedSymbols b
  refine ⟨ascending, ascending.nodup, legible.length_sortedSymbols b,
    fun s => mem_sortedSymbols, ?_⟩
  intro symbols sorted same
  exact sorted.unique ascending fun s => (same s).trans mem_sortedSymbols.symm

def glyphTags : List Declaration :=
  [.composite "GLYPH" ["GRIN", "TILDE", "LONG", "SHORT"], .atomic "GRIN" "😀", .atomic "TILDE" "～",
    .atomic "LONG" "éa", .atomic "SHORT" "é"]

theorem symbol_of_glyphTags {leaf s : String} (declared : ⟨leaf, .atomic s⟩ ∈ glyphTags) :
    s ∈ ["é", "éa", "～", "😀"] := by
  simp only [glyphTags, Declaration.atomic, Declaration.composite, List.mem_cons,
    Declaration.mk.injEq, Declaration.Body.atomic.injEq, List.not_mem_nil, reduceCtorEq, and_false,
    or_false, false_or] at declared ⊢
  tauto

theorem hasSymbol_glyph_iff (copies : m.Copies glyphTags)
    (built : ofRules m [.points "GLYPH" [.code 255]] = .ok t) (s : String) :
    s ∈ ["é", "éa", "～", "😀"] ↔ t.hasSymbol 255 s = true := by
  constructor
  · intro listed
    have shown (leaf symbol : String) (part : leaf ∈ ["GRIN", "TILDE", "LONG", "SHORT"])
        (declared : ⟨leaf, .atomic symbol⟩ ∈ glyphTags) : t.hasSymbol 255 symbol = true := by
      apply hasSymbol_of_names copies built List.mem_cons_self
      · exact ⟨.code 255, List.mem_cons_self, rfl⟩
      · exact ⟨leaf, .single ⟨_, List.mem_cons_self, part⟩, declared⟩
    simp only [List.mem_cons, List.not_mem_nil, or_false] at listed
    rcases listed with rfl | rfl | rfl | rfl
    · exact shown "SHORT" "é" (by decide) (by decide)
    · exact shown "LONG" "éa" (by decide) (by decide)
    · exact shown "TILDE" "～" (by decide) (by decide)
    · exact shown "GRIN" "😀" (by decide) (by decide)
  · intro has
    obtain ⟨leaf, declared⟩ := declared_of_hasSymbol copies built has
    exact symbol_of_glyphTags declared

theorem sortedSymbols_glyph :
    ∃ m t, Model.ofDeclarations glyphTags = .ok m ∧ Reachable m t ∧
      (t.sortedSymbols 255).length = (t.entry 255).size ∧
      t.sortedSymbols 255 = ["é", "éa", "～", "😀"] := by
  have formed : WellFormed glyphTags := by
    apply WellFormed.of_ranked fun name => if name = "GLYPH" then 1 else 0
    · decide
    · decide
    · decide
  obtain ⟨m, copies, accepted⟩ := formed.ofDeclarations
  obtain ⟨t, built⟩ :=
    (exists_ofRules_iff_declared copies).mpr
      (show ∀ rule ∈ [Rule.points "GLYPH" [.code 255]], Declared glyphTags rule.tag ∧
      rule.InRange by decide)
  have reached : Reachable m t := .built built
  obtain ⟨_, _, whole, _, only⟩ := sortedSymbols_ascending accepted reached 255
  refine ⟨m, t, accepted, reached, whole, ?_⟩
  exact (only ["é", "éa", "～", "😀"] (by decide) (hasSymbol_glyph_iff copies built)).symm

end CharTable.Table
