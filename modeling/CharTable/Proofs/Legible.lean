import CharTable.Packed
import CharTable.Table.Initializer
import Mathlib.Data.List.Nodup
import Mathlib.Data.List.Perm.Subperm

/-!
Tables that can be read: every atom of an entry has a symbol and no two atoms have the same. On such
tables the sorted symbols of a byte depend only on which symbols it has, and so do its line and its
flag byte.
-/
namespace CharTable

namespace TagSet

/-- Equal size and inclusion one way make two sets equal, because no atom occurs twice. -/
theorem beq_iff {s t : TagSet} : (s == t) = true ↔ ∀ a, a ∈ s ↔ a ∈ t := by
  change (s.size == t.size && s.atoms.all t.contains) = true ↔ _
  rw [Bool.and_eq_true, beq_iff_eq, List.all_eq_true]
  constructor
  · intro equal a
    obtain ⟨sizes, inside⟩ := equal
    have included : s.atoms ⊆ t.atoms := fun b member => of_decide_eq_true (inside b member)
    have permuted := (s.distinct.subperm included).perm_of_length_le (Nat.le_of_eq sizes.symm)
    exact permuted.mem_iff
  · intro same
    have permuted : s.atoms.Perm t.atoms :=
      (List.perm_ext_iff_of_nodup s.distinct t.distinct).mpr same
    exact ⟨permuted.length_eq, fun a member => decide_eq_true ((same a).mp member)⟩

end TagSet

namespace Table

theorem hasSymbol_iff {t : Table} {b : UInt8} {s : String} :
    t.hasSymbol b s = true ↔ ∃ a ∈ t.entry b, t.symbol? a = some s := by
  rw [hasSymbol, List.any_eq_true]
  constructor
  · intro has
    obtain ⟨a, member, same⟩ := has
    exact ⟨a, member, beq_iff_eq.mp same⟩
  · intro held
    obtain ⟨a, member, same⟩ := held
    exact ⟨a, member, beq_iff_eq.mpr same⟩

theorem mem_symbolsOn {t : Table} {b : UInt8} {s : String} :
    s ∈ t.symbolsOn b ↔ t.hasSymbol b s = true := by
  rw [hasSymbol_iff, symbolsOn, List.mem_filterMap]
  rfl

theorem mem_sortedSymbols {t : Table} {b : UInt8} {s : String} :
    s ∈ t.sortedSymbols b ↔ t.hasSymbol b s = true := by
  rw [← mem_symbolsOn]
  exact (List.mergeSort_perm _ _).mem_iff

theorem beq_iff {t u : Table} :
    (t == u) = true ↔ t.symbols = u.symbols ∧ ∀ b a, a ∈ t.entry b ↔ a ∈ u.entry b := by
  change (t.entries == u.entries && t.symbols == u.symbols) = true ↔ _
  rw [Bool.and_eq_true, Vector.beq_eq_decide, decide_eq_true_iff, beq_iff_eq, and_comm]
  refine and_congr_right fun _ => ?_
  constructor
  · intro same b
    exact TagSet.beq_iff.mp (same b.toNat b.toNat_lt)
  · intro same i inside
    have reached : (UInt8.ofNat i).toNat = i := UInt8.toNat_ofNat_of_lt' inside
    have equal := TagSet.beq_iff.mpr (same (UInt8.ofNat i))
    simpa only [entry, reached] using equal

/-- Every atom of an entry has a symbol, and different atoms have different symbols. -/
structure Legible (t : Table) : Prop where
  distinct : t.symbols.toList.Nodup
  named : ∀ b, ∀ a ∈ t.entry b, ∃ s, t.symbol? a = some s

theorem symbol?_injective {t : Table} (distinct : t.symbols.toList.Nodup) {a b : AtomId}
    {s : String} (first : t.symbol? a = some s) (second : t.symbol? b = some s) : a = b := by
  have one : t.symbols.toList[a.toNat]? = some s := by simpa [symbol?] using first
  have two : t.symbols.toList[b.toNat]? = some s := by simpa [symbol?] using second
  have same : a.toNat = b.toNat :=
    (List.getElem?_inj (List.getElem?_eq_some_iff.mp one).1 distinct).mp (one.trans two.symm)
  rw [← AtomId.ofNat_toNat a, same, AtomId.ofNat_toNat]

theorem Legible.nodup_symbolsOn {t : Table} (legible : t.Legible)
    (b : UInt8) : (t.symbolsOn b).Nodup := by
  refine List.Nodup.filterMap ?_ (t.entry b).distinct
  intro a c s first second
  exact symbol?_injective legible.distinct first second

theorem Legible.isEmpty_iff {t : Table} (legible : t.Legible) (b : UInt8) :
    (t.entry b).isEmpty = true ↔ ∀ s, t.hasSymbol b s = false := by
  rw [TagSet.isEmpty, List.isEmpty_iff]
  constructor
  · intro vacant s
    simp [hasSymbol, vacant]
  · intro none
    cases atoms : (t.entry b).atoms with
    | nil => rfl
    | cons a rest =>
      have member : a ∈ t.entry b := by
        change a ∈ (t.entry b).atoms
        simp [atoms]
      obtain ⟨s, held⟩ := legible.named b a member
      have has := hasSymbol_iff.mpr ⟨a, member, held⟩
      rw [none s] at has
      cases has

theorem pairwise_sortedSymbols (t : Table) (b : UInt8) : (t.sortedSymbols b).Pairwise (· ≤ ·) := by
  have transitive (s u v : String) (first : decide (s ≤ u) = true)
      (second : decide (u ≤ v) = true) : decide (s ≤ v) = true := by
    rw [decide_eq_true_iff] at first second ⊢
    exact String.le_trans first second
  have total (s u : String) : (decide (s ≤ u) || decide (u ≤ s)) = true := by
    simpa using String.le_total s u
  have sorted := List.pairwise_mergeSort transitive total (t.symbolsOn b)
  simp only [decide_eq_true_iff] at sorted
  exact sorted

theorem Legible.nodup_sortedSymbols {t : Table} (legible : t.Legible)
    (b : UInt8) : (t.sortedSymbols b).Nodup :=
  (List.mergeSort_perm _ _).nodup_iff.mpr (legible.nodup_symbolsOn b)

theorem Legible.pairwise_lt_sortedSymbols {t : Table} (legible : t.Legible) (b : UInt8) :
    (t.sortedSymbols b).Pairwise (· < ·) := by
  refine ((pairwise_sortedSymbols t b).and (legible.nodup_sortedSymbols b)).imp ?_
  intro r s related
  obtain ⟨ordered, different⟩ := related
  exact String.not_le.mp fun above => different (String.le_antisymm ordered above)

/-- The sorted symbols in front of a symbol are the smaller ones. -/
theorem Legible.mem_before_iff {t : Table} (legible : t.Legible) {b : UInt8} {s : String}
    {before after : List String} (parted : t.sortedSymbols b = before ++ s :: after) (r : String) :
    r ∈ before ↔ t.hasSymbol b r = true ∧ r < s := by
  have sorted := legible.pairwise_lt_sortedSymbols b
  rw [parted, List.pairwise_append, List.pairwise_cons] at sorted
  obtain ⟨_, ⟨late, _⟩, across⟩ := sorted
  rw [← mem_sortedSymbols, parted, List.mem_append, List.mem_cons]
  constructor
  · intro listed
    exact ⟨Or.inl listed, across r listed s (by simp)⟩
  · rintro ⟨listed | rfl | behind, less⟩
    · exact listed
    · exact absurd less (String.lt_irrefl r)
    · exact absurd (String.lt_trans less (late r behind)) (String.lt_irrefl r)

/-- The sorted symbols of a byte are determined by the symbols it has, whatever the tables they
stand in. -/
theorem sortedSymbols_congr {t u : Table} (left : t.Legible) (right : u.Legible) {b : UInt8}
    (same : ∀ s, t.hasSymbol b s = u.hasSymbol b s) : t.sortedSymbols b = u.sortedSymbols b := by
  have permuted : (t.symbolsOn b).Perm (u.symbolsOn b) := by
    rw [List.perm_ext_iff_of_nodup (left.nodup_symbolsOn b) (right.nodup_symbolsOn b)]
    intro s
    rw [mem_symbolsOn, mem_symbolsOn, same s]
  -- Two sorted lists of the same symbols, each once, are one list.
  refine List.Perm.eq_of_pairwise (fun _ _ _ _ => String.le_antisymm) (pairwise_sortedSymbols t b)
    (pairwise_sortedSymbols u b) ?_
  calc
    (t.sortedSymbols b).Perm (t.symbolsOn b) := List.mergeSort_perm _ _
    _ |>.Perm (u.symbolsOn b) := permuted
    _ |>.Perm (u.sortedSymbols b) := (List.mergeSort_perm _ _).symm

theorem line_congr {t u : Table} {b : UInt8}
    (sorted : t.sortedSymbols b = u.sortedSymbols b) : t.line b = u.line b := by
  rw [line, line, sorted]

theorem render_congr {t u : Table}
    (sorted : ∀ b, t.sortedSymbols b = u.sortedSymbols b) : t.render = u.render := by
  have lines : (fun b => t.line b ++ "\n") = fun b => u.line b ++ "\n" := by
    funext b
    rw [line_congr (sorted b)]
  rw [render, render, lines]

end Table

theorem Packed.ofTable_congr {t u : Table} (sorted : ∀ b, t.sortedSymbols b = u.sortedSymbols b)
    (e : Encoding) : ofTable t e = ofTable u e := by
  have flags : flagByte t e = flagByte u e := by
    funext b
    rw [flagByte, flagByte, sorted b]
  rw [ofTable, ofTable, flags]

end CharTable
