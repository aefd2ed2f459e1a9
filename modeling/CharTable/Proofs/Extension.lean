import CharTable.Proofs.Meaning

/-!
Declarations among more declarations. Ids and atoms are numbered by position, so nothing at their
level survives a longer or reordered list; what a name stands for does, and with it all that can be
seen of a table.
-/
namespace CharTable
open Relation (ReflTransGen)

variable {ds es : List Declaration} {name part whole symbol : String}

theorem Declared.mono (included : ds ⊆ es) (declared : Declared ds name) : Declared es name :=
  List.map_subset Declaration.name included declared

theorem PartOf.mono (included : ds ⊆ es)
    (listing : PartOf ds part whole) : PartOf es part whole := by
  obtain ⟨parts, declared, listed⟩ := listing
  exact ⟨parts, included declared, listed⟩

theorem PartOf.declared (formed : WellFormed ds)
    (listing : PartOf ds part whole) : Declared ds part := by
  obtain ⟨parts, declared, listed⟩ := listing
  exact (Declaration.not_faulty_composite.mp (formed.fine _ declared)).2 part listed

/-- No other declaration has the name, so the smaller list declares it as the larger one does. -/
theorem mem_of_declared (larger : WellFormed es) (included : ds ⊆ es) {body : Declaration.Body}
    (declared : Declared ds name) (found : ⟨name, body⟩ ∈ es) : ⟨name, body⟩ ∈ ds := by
  obtain ⟨d, member, same⟩ := List.mem_map.mp declared
  have equal := larger.eq_of_name (included member) found same
  rwa [← equal]

theorem PartOf.restrict (larger : WellFormed es) (included : ds ⊆ es) (declared : Declared ds whole)
    (listing : PartOf es part whole) : PartOf ds part whole := by
  obtain ⟨parts, found, listed⟩ := listing
  exact ⟨parts, mem_of_declared larger included declared found, listed⟩

namespace Carries

theorem mono (included : ds ⊆ es) (carried : Carries ds name symbol) : Carries es name symbol := by
  obtain ⟨leaf, chain, declared⟩ := carried
  exact ⟨leaf, ReflTransGen.mono (fun _ _ => PartOf.mono included) _ _ chain, included declared⟩

/-- A symbol that a declared name carries among more declarations it carries among the fewer: its
parts were all declared there. -/
theorem restrict (smaller : WellFormed ds) (larger : WellFormed es) (included : ds ⊆ es)
    (declared : Declared ds name) (carried : Carries es name symbol) : Carries ds name symbol := by
  obtain ⟨leaf, chain, found⟩ := carried
  -- From the name down: each part of a tag of the smaller list is a tag of it again.
  induction chain with
  | refl => exact ⟨leaf, .refl, mem_of_declared larger included declared found⟩
  | tail _ listing ih =>
    have within := listing.restrict larger included declared
    exact (ih (within.declared smaller)).of_part within

theorem extension_iff (smaller : WellFormed ds) (larger : WellFormed es) (included : ds ⊆ es)
    (declared : Declared ds name) : Carries es name symbol ↔ Carries ds name symbol :=
  ⟨restrict smaller larger included declared, mono included⟩

end Carries

namespace Table

variable {m n : Model} {rules : List Rule} {t u : Table}

/-- A program shows the same symbols over either list of declarations. -/
theorem hasSymbol_extension (accepted : Model.ofDeclarations ds = .ok m)
    (extended : Model.ofDeclarations es = .ok n) (included : ds ⊆ es)
    (built : ofRules m rules = .ok t) (rebuilt : ofRules n rules = .ok u) (b : UInt8) (s : String) :
    t.hasSymbol b s = u.hasSymbol b s := by
  have copies := copies_of_ofDeclarations accepted
  have tags := (exists_ofRules_iff_declared copies).mp ⟨t, built⟩
  have same (rule : Rule) (listed : rule ∈ rules) : Carries es rule.tag s ↔ Carries ds rule.tag s :=
    Carries.extension_iff (wellFormed_of_ofDeclarations accepted)
      (wellFormed_of_ofDeclarations extended) included (tags rule listed).1
  apply Bool.eq_iff_iff.mpr
  rw [hasSymbol_iff_carries copies built,
    hasSymbol_iff_carries (copies_of_ofDeclarations extended) rebuilt]
  refine exists_congr fun rule => and_congr_right fun listed => and_congr_right fun _ => ?_
  exact (same rule listed).symm

/-- Rules that succeed over some declarations succeed over any accepted list that contains them, in
whatever order and among whatever others; the table shows the same symbols on every byte, prints
alike and packs alike, faults included. -/
theorem ofRules_extension (accepted : Model.ofDeclarations ds = .ok m)
    (extended : Model.ofDeclarations es = .ok n) (included : ds ⊆ es)
    (built : ofRules m rules = .ok t) :
    ∃ u, ofRules n rules = .ok u ∧ (∀ b, t.sortedSymbols b = u.sortedSymbols b) ∧
      t.render = u.render ∧ ∀ e : Encoding, Packed.ofTable t e = Packed.ofTable u e := by
  have copies := copies_of_ofDeclarations accepted
  have extendedCopies := copies_of_ofDeclarations extended
  have sound := (exists_ofRules_iff_declared copies).mp ⟨t, built⟩
  obtain ⟨u, rebuilt⟩ := (exists_ofRules_iff_declared extendedCopies).mpr fun rule listed =>
    ⟨(sound rule listed).1.mono included, (sound rule listed).2⟩
  have sorted : ∀ b, t.sortedSymbols b = u.sortedSymbols b := by
    intro b
    apply sortedSymbols_congr (legible_ofRules copies built)
      (legible_ofRules extendedCopies rebuilt)
    exact hasSymbol_extension accepted extended included built rebuilt b
  exact ⟨u, rebuilt, sorted, render_congr sorted, Packed.ofTable_congr sorted⟩

def tokenTags : List Declaration :=
  .composite "TOKEN" ["SPACE", "WORD"] :: .atomic "SPACE" "C_SPACE" :: wordTags.reverse

theorem exists_token : ∃ n, Model.ofDeclarations tokenTags = .ok n := by
  have formed : WellFormed tokenTags := by
    apply WellFormed.of_ranked fun name =>
      if name = "TOKEN" then 3 else if name = "WORD" then 2 else if name = "ALNUM" then 1 else 0
    · decide
    · decide
    · decide
  obtain ⟨n, _, accepted⟩ := formed.ofDeclarations
  exact ⟨n, accepted⟩

theorem ofRules_token :
    ∃ m n t u, Model.ofDeclarations wordTags = .ok m ∧ Model.ofDeclarations tokenTags = .ok n ∧
      wordTags ⊆ tokenTags ∧ ofRules m wordRules = .ok t ∧ ofRules n wordRules = .ok u ∧
      t.sortedSymbols 255 = u.sortedSymbols 255 ∧ t.render = u.render := by
  obtain ⟨m, t, accepted, built⟩ := exists_word
  obtain ⟨n, extended⟩ := exists_token
  have included : wordTags ⊆ tokenTags := by decide
  obtain ⟨u, rebuilt, sorted, printed, _⟩ := ofRules_extension accepted extended included built
  exact ⟨m, n, t, u, accepted, extended, included, built, rebuilt, sorted 255, printed⟩

end Table
end CharTable
