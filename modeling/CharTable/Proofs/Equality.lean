import CharTable.Proofs.Edits

/-!
Equality of tables. It compares entries as sets, whatever the order in which they grew: two orders
of the same rules store different lists, but the tables are equal. On tables that were filled over
accepted declarations equality means that the same symbols are numbered alike and show on the same
bytes. No reader of a table tells equal ones apart.
-/
namespace CharTable.Table

instance : EquivBEq Table where
  rfl := beq_iff.mpr ⟨rfl, fun _ _ => Iff.rfl⟩
  symm equal := by
    obtain ⟨symbols, entries⟩ := beq_iff.mp equal
    exact beq_iff.mpr ⟨symbols.symm, fun b a => (entries b a).symm⟩
  trans first second := by
    obtain ⟨symbols, entries⟩ := beq_iff.mp first
    obtain ⟨others, changed⟩ := beq_iff.mp second
    exact beq_iff.mpr ⟨symbols.trans others, fun b a => (entries b a).trans (changed b a)⟩

variable {ds es : List Declaration} {m n : Model} {rules others : List Rule} {t u : Table}

/-- The same rules, in whatever order and number, put the same atoms on every byte. -/
theorem mem_entry_congr (first : ofRules m rules = .ok t) (second : ofRules m others = .ok u)
    (same : ∀ rule, rule ∈ rules ↔ rule ∈ others) (b : UInt8) (a : AtomId) :
    a ∈ t.entry b ↔ a ∈ u.entry b := by
  rw [mem_entry_ofRules first, mem_entry_ofRules second]
  simp only [same]

theorem symbols_congr (first : ofRules m rules = .ok t) (second : ofRules m others = .ok u) :
    t.symbols = u.symbols := by
  rw [symbols_ofRules first, symbols_ofRules second]

/-- Equal tables show the same symbols. -/
theorem hasSymbol_congr (equal : (t == u) = true) (b : UInt8) (s : String) :
    t.hasSymbol b s = u.hasSymbol b s := by
  obtain ⟨symbols, entries⟩ := beq_iff.mp equal
  rw [Bool.eq_iff_iff, hasSymbol_iff, hasSymbol_iff]
  simp only [symbol?, symbols, entries]

theorem ofRules_beq (first : ofRules m rules = .ok t) (second : ofRules m others = .ok u)
    (same : ∀ rule, rule ∈ rules ↔ rule ∈ others) : (t == u) = true := by
  apply beq_iff.mpr
  exact ⟨symbols_congr first second, mem_entry_congr first second same⟩

/-- Rules may be reordered: the program still succeeds, with an equal table that prints alike and
packs alike under every encoding, faults included. -/
theorem ofRules_perm (accepted : Model.ofDeclarations ds = .ok m) (reordered : rules.Perm others)
    (built : ofRules m rules = .ok t) :
    ∃ u, ofRules m others = .ok u ∧ (t == u) = true ∧ t.render = u.render ∧
      ∀ mask entries e, Encoding.ofEntries mask entries = .ok e →
        Packed.ofTable t e = Packed.ofTable u e := by
  have same : ∀ rule, rule ∈ rules ↔ rule ∈ others := fun _ => reordered.mem_iff
  have each := exists_ofRules_iff.mp ⟨t, built⟩
  obtain ⟨u, rebuilt⟩ :=
    exists_ofRules_iff.mpr fun rule listed => each rule ((same rule).mpr listed)
  have copies := copies_of_ofDeclarations accepted
  have equal := ofRules_beq built rebuilt same
  have sorted : ∀ b, t.sortedSymbols b = u.sortedSymbols b := by
    intro b
    apply sortedSymbols_congr (legible_ofRules copies built) (legible_ofRules copies rebuilt)
    exact hasSymbol_congr equal b
  exact ⟨u, rebuilt, equal, render_congr sorted, fun _ _ e _ => Packed.ofTable_congr sorted e⟩

theorem ofRules_word_reverse :
    ∃ m t u, Model.ofDeclarations wordTags = .ok m ∧ ofRules m wordRules = .ok t ∧
      ofRules m wordRules.reverse = .ok u ∧ (t == u) = true ∧ t.render = u.render := by
  obtain ⟨m, t, accepted, built⟩ := exists_word
  obtain ⟨u, rebuilt, equal, printed, _⟩ :=
    ofRules_perm accepted (List.reverse_perm wordRules).symm built
  exact ⟨m, t, u, accepted, built, rebuilt, equal, printed⟩

/-- What a table over the model can be at some time: fresh, edited further, be it by an edit that
fails, or the result of a program of rules. -/
inductive Reachable (m : Model) : Table → Prop
  | fresh : Reachable m (empty m)
  | edited {t : Table} (reached : Reachable m t) (e : Edit) : Reachable m (edit m t e).2
  | built {rules : List Rule} {t : Table} (ok : ofRules m rules = .ok t) : Reachable m t

theorem ofRules_snoc {rule : Rule} {target : TagId × List UInt8} (built : ofRules m rules = .ok t)
    (taken : rule.target m = .ok target) :
    ofRules m (rules ++ [rule]) = .ok (insertOn m target.1 target.2 t) := by
  obtain ⟨targets, each, rfl⟩ := ofRules_eq_ok_iff.mp built
  apply ofRules_eq_ok_iff.mpr
  refine ⟨targets ++ [target], List.rel_append each (.cons taken .nil), ?_⟩
  rw [insertTargets, insertTargets, List.foldl_append]
  rfl

/-- A failing edit adds nothing and any other adds its rule, so a program alone builds the same
table. -/
theorem Reachable.exists_rules (reached : Reachable m t) : ∃ rules, ofRules m rules = .ok t := by
  induction reached with
  | fresh => exact ⟨[], rfl⟩
  | edited _ e ih =>
    obtain ⟨rules, built⟩ := ih
    rw [edit_eq]
    cases taken : e.toRule.target m with
    | error fault => exact ⟨rules, built⟩
    | ok target => exact ⟨rules ++ [e.toRule], ofRules_snoc built taken⟩
  | built ok => exact ⟨_, ok⟩

theorem Reachable.legible (reached : Reachable m t) (copies : m.Copies ds) : t.Legible := by
  obtain ⟨rules, built⟩ := reached.exists_rules
  exact legible_ofRules copies built

theorem mem_entry_of_hasSymbol (legible : t.Legible) (symbols : t.symbols = u.symbols) {b : UInt8}
    (shown : ∀ s, t.hasSymbol b s = true → u.hasSymbol b s = true) {a : AtomId}
    (member : a ∈ t.entry b) : a ∈ u.entry b := by
  obtain ⟨s, held⟩ := legible.named b a member
  have has := hasSymbol_iff.mpr ⟨a, member, held⟩
  obtain ⟨c, inside, found⟩ := hasSymbol_iff.mp (shown s has)
  -- Symbols are numbered alike, so the atom that shows the symbol in the other table is this one.
  have numbered : t.symbol? c = some s := by rwa [symbol?, symbols]
  rwa [symbol?_injective legible.distinct held numbered]

/-- On legible tables equality is a matter of the symbols: how they are numbered, and where they
show. -/
theorem beq_iff_hasSymbol (left : t.Legible) (right : u.Legible) :
    (t == u) = true ↔ t.symbols = u.symbols ∧ ∀ b s, t.hasSymbol b s = u.hasSymbol b s := by
  constructor
  · intro equal
    exact ⟨(beq_iff.mp equal).1, hasSymbol_congr equal⟩
  · intro observed
    obtain ⟨symbols, same⟩ := observed
    refine beq_iff.mpr ⟨symbols, fun b a => ⟨?_, ?_⟩⟩
    · apply mem_entry_of_hasSymbol left symbols
      intro s has
      rwa [← same b s]
    · apply mem_entry_of_hasSymbol right symbols.symm
      intro s has
      rwa [same b s]

theorem sortedSymbols_of_beq (left : t.Legible) (right : u.Legible)
    (equal : (t == u) = true) (b : UInt8) : t.sortedSymbols b = u.sortedSymbols b :=
  sortedSymbols_congr left right (hasSymbol_congr equal b)

/-- Among the tables that can be reached over accepted declarations, the same or others, equality is
an equivalence, holds exactly where the numbered symbols and the symbols on every byte agree, and is
kept by everything that reads a table. -/
theorem beq_observed (accepted : Model.ofDeclarations ds = .ok m)
    (other : Model.ofDeclarations es = .ok n) (left : Reachable m t) (right : Reachable n u) :
    (t == t) = true ∧ (t == u) = (u == t) ∧
      (∀ v : Table, (t == u) = true → (u == v) = true → (t == v) = true) ∧
      ((t == u) = true ↔ t.symbols = u.symbols ∧ ∀ b s, t.hasSymbol b s = u.hasSymbol b s) ∧
      ((t == u) = true →
        (∀ b, t.sortedSymbols b = u.sortedSymbols b) ∧ (∀ b, t.line b = u.line b) ∧
          t.render = u.render ∧ ∀ e : Encoding, Packed.ofTable t e = Packed.ofTable u e) := by
  have readable := left.legible (copies_of_ofDeclarations accepted)
  have alike := right.legible (copies_of_ofDeclarations other)
  refine ⟨BEq.rfl, BEq.comm, fun v first second => BEq.trans first second,
    beq_iff_hasSymbol readable alike, ?_⟩
  intro equal
  have sorted := sortedSymbols_of_beq readable alike equal
  exact ⟨sorted, fun b => line_congr (sorted b), render_congr sorted, Packed.ofTable_congr sorted⟩

/-- Two atomic tags put on one byte in either order: the entries list their atoms differently. -/
theorem beq_letter_digit :
    ∃ m t u, Model.ofDeclarations wordTags = .ok m ∧
      ofRules m [.points "LETTER" [.code 255], .points "DIGIT" [.code 255]] = .ok t ∧
      ofRules m [.points "DIGIT" [.code 255], .points "LETTER" [.code 255]] = .ok u ∧
      (t.entry 255).atoms ≠ (u.entry 255).atoms ∧ (t == u) = true ∧ (u == t) = true ∧
      t.render = u.render := by
  obtain ⟨m, _, accepted, _⟩ := exists_word
  have copies := copies_of_ofDeclarations accepted
  obtain ⟨i, letter⟩ := copies.numbers.lookup_of_mem (show Declared wordTags "LETTER" by decide)
  obtain ⟨j, digit⟩ := copies.numbers.lookup_of_mem (show Declared wordTags "DIGIT" by decide)
  obtain ⟨a, first, named⟩ :=
    copies.leaves_of_atomic letter (show ⟨"LETTER", .atomic "C_LETTER"⟩ ∈ wordTags by decide)
  obtain ⟨b, second, other⟩ :=
    copies.leaves_of_atomic digit (show ⟨"DIGIT", .atomic "C_DIGIT"⟩ ∈ wordTags by decide)
  have apart : a ≠ b := by
    intro same
    rw [same, other] at named
    simp at named
  have put (tag : String) (id : TagId) (known : m.index[tag]? = some id) :
      (Rule.points tag [.code 255]).target m = .ok (id, [255]) :=
    Rule.target_points_eq_ok_iff.mpr ⟨id, [255], Model.tagId_eq_ok_iff.mpr known, rfl, rfl⟩
  have built (c d : TagId) : (insertOn m d [255] (insertOn m c [255] (empty m))).entry 255 =
      (TagSet.empty.insertAll (m.leaves c)).insertAll (m.leaves d) := by
    simp [entry_insertOn]
  have fresh : ofRules m [] = .ok (empty m) := rfl
  have forward := ofRules_snoc (ofRules_snoc fresh (put "LETTER" i letter)) (put "DIGIT" j digit)
  have backward := ofRules_snoc (ofRules_snoc fresh (put "DIGIT" j digit)) (put "LETTER" i letter)
  have equal := ofRules_beq forward backward fun rule => (List.Perm.swap _ _ []).mem_iff
  obtain ⟨_, symmetric, _, _, kept⟩ :=
    beq_observed accepted accepted (.built forward) (.built backward)
  refine ⟨m, _, _, accepted, forward, backward, ?_, equal, symmetric ▸ equal, (kept equal).2.2.1⟩
  rw [built, built, first, second]
  simp [TagSet.insertAll, TagSet.atoms_insert, TagSet.empty, apart, apart.symm]

end CharTable.Table
