import CharTable.Proofs.Extension

/-!
The printed form of a table as its canonical form. Tables with the same symbols on every byte print
alike, whatever the symbols are. Where symbols are spelled like enumerators the text can be taken
apart again, into its lines, each line into what stands before the symbols and the symbols, so that
equal texts have equal symbols.
-/
namespace CharTable

structure Enumerator (s : String) : Prop where
  front : s.toList.head?.any (fun c => !c.isDigit) = true
  plain : ∀ c ∈ s.toList, c.isAlphanum = true ∨ c = '_' ∨ c = ':'

instance (s : String) : Decidable (Enumerator s) :=
  decidable_of_iff (s.toList.head?.any (fun c => !c.isDigit) = true ∧
      s.toList.all (fun c => c.isAlphanum || c == '_' || c == ':') = true)
    ⟨fun ⟨front, plain⟩ => ⟨front, by simpa [or_assoc] using plain⟩,
      fun spelled => ⟨spelled.front, by simpa [or_assoc] using spelled.plain⟩⟩

def Model.Spelled (m : Model) : Prop := ∀ s ∈ m.symbols, Enumerator s

def Declaration.Spelled : Declaration → Prop
  | ⟨_, .atomic symbol⟩ => Enumerator symbol
  | ⟨_, .composite _⟩ => True

instance : (d : Declaration) → Decidable d.Spelled
  | ⟨_, .atomic symbol⟩ => inferInstanceAs (Decidable (Enumerator symbol))
  | ⟨_, .composite _⟩ => inferInstanceAs (Decidable True)

theorem Model.spelled_of_declarations {ds : List Declaration} {m : Model}
    (accepted : ofDeclarations ds = .ok m) (each : ∀ d ∈ ds, d.Spelled) : m.Spelled := by
  intro s held
  obtain ⟨⟨name, body⟩, listed, rfl⟩ := declared_of_mem_symbols accepted held
  exact each _ listed

def lines (text : String) : List String := (text.toList.splitOn '\n').map String.ofList

theorem toList_terminated (pieces : List String) :
    (String.join (pieces.map (· ++ "\n"))).toList =
        ['\n'].intercalate (pieces.map String.toList ++ [[]]) := by
  induction pieces with
  | nil => rfl
  | cons piece pieces ih =>
    rw [List.map_cons, String.join_cons, String.toList_append, String.toList_append,
      ih, List.map_cons]
    cases pieces with
    | nil => simp
    | cons next pieces => simp

theorem lines_join {pieces : List String} (unbroken : ∀ piece ∈ pieces, '\n' ∉ piece.toList) :
    lines (String.join (pieces.map (· ++ "\n"))) = pieces ++ [""] := by
  have cut : ∀ piece ∈ pieces.map String.toList ++ [[]], '\n' ∉ piece := by
    intro piece listed
    rcases List.mem_append.mp listed with inner | last
    · obtain ⟨text, member, rfl⟩ := List.mem_map.mp inner
      exact unbroken text member
    · rw [List.mem_singleton.mp last]
      exact List.not_mem_nil
  rw [lines, toList_terminated, List.splitOn_intercalate '\n' cut (by simp)]
  simp

namespace Enumerator

variable {s : String}

theorem not_mem (spelled : Enumerator s) {c : Char}
    (other : ¬ (c.isAlphanum = true ∨ c = '_' ∨ c = ':')) : c ∉ s.toList :=
  fun member => other (spelled.plain c member)

theorem exists_front (spelled : Enumerator s) : ∃ c rest, s.toList = c :: rest ∧ c ≠ '0' := by
  have front := spelled.front
  cases found : s.toList with
  | nil =>
    rw [found] at front
    cases front
  | cons c rest =>
    refine ⟨c, rest, rfl, ?_⟩
    rintro rfl
    rw [found] at front
    cases front

end Enumerator

/-- Before a rest that is empty or starts with a blank, a word without blanks ends in one place. -/
theorem word_unique {first second left right : List Char} (clean : ' ' ∉ first)
    (other : ' ' ∉ second) (stops : ∀ c ∈ left.head?, c = ' ') (halts : ∀ c ∈ right.head?, c = ' ')
    (same : first ++ left = second ++ right) : first = second ∧ left = right := by
  rcases List.append_eq_append_iff.mp same with ⟨more, rfl, rfl⟩ | ⟨more, rfl, rfl⟩
  · cases more with
    | nil => simp
    | cons c more =>
      cases stops c rfl
      simp at other
  · cases more with
    | nil => simp
    | cons c more =>
      cases halts c rfl
      simp at clean

namespace Table

def label (b : UInt8) : String := "  /* " ++ paddedDecimal b ++ ", " ++ caption b ++ " */ "

theorem line_eq (t : Table) (b : UInt8) :
    t.line b = label b ++ expression (t.sortedSymbols b) ++ "," :=
  rfl

def alternatives (symbols : List String) : List Char :=
  symbols.flatMap fun s => " | ".toList ++ s.toList

theorem toList_expression_cons (s : String) (symbols : List String) :
    (expression (s :: symbols)).toList = s.toList ++ alternatives symbols := by
  rw [expression, List.isEmpty_cons, if_neg Bool.false_ne_true]
  induction symbols generalizing s with
  | nil => simp [alternatives]
  | cons next symbols ih =>
    rw [String.intercalate_cons_cons, String.toList_append, String.toList_append, ih]
    simp [alternatives]

theorem head?_alternatives (symbols : List String) :
    ∀ c ∈ (alternatives symbols).head?, c = ' ' := by
  cases symbols with
  | nil => simp [alternatives]
  | cons s symbols => simp [alternatives]

/-- The blank before a bar ends a symbol that has none. -/
theorem symbol_unique {s u : String} {symbols others : List String} (spelled : Enumerator s)
    (clean : Enumerator u)
    (same : s.toList ++ alternatives symbols = u.toList ++ alternatives others) :
    s = u ∧ alternatives symbols = alternatives others := by
  obtain ⟨first, tails⟩ := word_unique (spelled.not_mem (by decide)) (clean.not_mem (by decide))
    (head?_alternatives symbols) (head?_alternatives others) same
  exact ⟨String.toList_inj.mp first, tails⟩

theorem alternatives_injective {symbols others : List String}
    (spelled : ∀ s ∈ symbols, Enumerator s) (clean : ∀ s ∈ others, Enumerator s)
    (same : alternatives symbols = alternatives others) : symbols = others := by
  induction symbols generalizing others with
  | nil =>
    cases others with
    | nil => rfl
    | cons s others => cases same
  | cons s symbols ih =>
    cases others with
    | nil => cases same
    | cons u others =>
      obtain ⟨here, later⟩ := List.forall_mem_cons.mp spelled
      obtain ⟨there, further⟩ := List.forall_mem_cons.mp clean
      have rest : s.toList ++ alternatives symbols = u.toList ++ alternatives others := by
        simpa [alternatives] using same
      obtain ⟨rfl, tails⟩ := symbol_unique here there rest
      rw [ih later further tails]

theorem expression_ne_zero {s : String} (spelled : Enumerator s) (symbols : List String) :
    expression (s :: symbols) ≠ expression [] := by
  intro same
  obtain ⟨c, rest, found, apart⟩ := spelled.exists_front
  have zero := congrArg String.toList same
  rw [toList_expression_cons, found] at zero
  exact apart (List.cons.inj zero).1

/-- A zero stands for no symbols only, and the bars tell where a symbol ends. -/
theorem expression_injective {symbols others : List String} (spelled : ∀ s ∈ symbols, Enumerator s)
    (clean : ∀ s ∈ others, Enumerator s)
    (same : expression symbols = expression others) : symbols = others := by
  cases symbols with
  | nil =>
    cases others with
    | nil => rfl
    | cons u others =>
      exact absurd same.symm (expression_ne_zero (clean u List.mem_cons_self) others)
  | cons s symbols =>
    cases others with
    | nil => exact absurd same (expression_ne_zero (spelled s List.mem_cons_self) symbols)
    | cons u others =>
      obtain ⟨here, later⟩ := List.forall_mem_cons.mp spelled
      obtain ⟨there, further⟩ := List.forall_mem_cons.mp clean
      have texts := congrArg String.toList same
      rw [toList_expression_cons, toList_expression_cons] at texts
      obtain ⟨rfl, tails⟩ := symbol_unique here there texts
      rw [alternatives_injective later further tails]

theorem newline_not_mem_paddedDecimal (b : UInt8) : '\n' ∉ (paddedDecimal b).toList := by
  rw [paddedDecimal, String.toList_ofList, List.leftpad, List.mem_append, not_or]
  constructor
  · simp
  · intro member
    have digit := Nat.isDigit_of_mem_toDigits (by decide) (by decide) member
    cases digit

theorem newline_not_mem_byte (b : UInt8) : '\n' ∉ (Hex.byte b).toList := by
  have visible : ∀ n < 16, Hex.digit n ≠ '\n' := by decide
  have small : b.toNat < 256 := b.toNat_lt
  have high := visible (b.toNat / 16) (by omega)
  have low := visible (b.toNat % 16) (by omega)
  simp [Hex.byte, high.symm, low.symm]

theorem newline_not_mem_caption (b : UInt8) : '\n' ∉ (caption b).toList := by
  unfold caption
  split
  · rename_i printable
    have above : 32 ≤ b.toNat := UInt8.le_iff_toNat_le.mp printable.1
    have below : b.toNat ≤ 126 := UInt8.le_iff_toNat_le.mp printable.2
    have apart : Char.ofNat b.toNat ≠ '\n' := by
      intro same
      have code := congrArg Char.toNat same
      rw [Char.ofNat, dif_pos (Or.inl (by omega))] at code
      change b.toNat = 10 at code
      omega
    simp [apart.symm]
  · simpa using newline_not_mem_byte b

theorem newline_not_mem_label (b : UInt8) : '\n' ∉ (label b).toList := by
  simp [label, newline_not_mem_paddedDecimal, newline_not_mem_caption]

theorem newline_not_mem_expression {symbols : List String} (spelled : ∀ s ∈ symbols, Enumerator s) :
    '\n' ∉ (expression symbols).toList := by
  cases symbols with
  | nil => decide
  | cons s symbols =>
    obtain ⟨here, later⟩ := List.forall_mem_cons.mp spelled
    rw [toList_expression_cons, List.mem_append, not_or]
    refine ⟨here.not_mem (by decide), ?_⟩
    intro member
    obtain ⟨u, listed, inside⟩ := List.mem_flatMap.mp member
    rcases List.mem_append.mp inside with bar | held
    · revert bar
      decide
    · exact (later u listed).not_mem (by decide) held

theorem newline_not_mem_line {t : Table} {b : UInt8}
    (spelled : ∀ s ∈ t.sortedSymbols b, Enumerator s) : '\n' ∉ (t.line b).toList := by
  simp [line_eq, newline_not_mem_label, newline_not_mem_expression spelled]

/-- One line for each byte value, in ascending order, and nothing after the last newline. -/
theorem lines_render {t : Table} (spelled : ∀ b, ∀ s ∈ t.sortedSymbols b, Enumerator s) :
    lines t.render = (List.range 256).map (fun i => t.line (UInt8.ofNat i)) ++ [""] := by
  have unbroken : ∀ piece ∈ allBytes.map t.line, '\n' ∉ piece.toList := by
    intro piece listed
    obtain ⟨b, _, rfl⟩ := List.mem_map.mp listed
    exact newline_not_mem_line (spelled b)
  have whole := lines_join unbroken
  rw [List.map_map] at whole
  rw [render]
  exact whole.trans (by rw [allBytes, List.map_map]; rfl)

/-- A line of enumerators gives the symbols back. -/
theorem line_injective {t u : Table} {b : UInt8} (spelled : ∀ s ∈ t.sortedSymbols b, Enumerator s)
    (clean : ∀ s ∈ u.sortedSymbols b, Enumerator s) (same : t.line b = u.line b) :
    t.sortedSymbols b = u.sortedSymbols b := by
  apply expression_injective spelled clean
  have texts := congrArg String.toList same
  simp only [line_eq, String.toList_append] at texts
  exact String.toList_inj.mp (List.append_cancel_left (List.append_cancel_right texts))

/-- The printed form gives the symbols of every byte back. -/
theorem sortedSymbols_of_render {t u : Table} (spelled : ∀ b, ∀ s ∈ t.sortedSymbols b, Enumerator s)
    (clean : ∀ b, ∀ s ∈ u.sortedSymbols b, Enumerator s) (same : t.render = u.render) (b : UInt8) :
    t.sortedSymbols b = u.sortedSymbols b := by
  have cut := congrArg lines same
  rw [lines_render spelled, lines_render clean] at cut
  have each :=
    List.map_inj_left.mp (List.append_cancel_right cut) b.toNat (List.mem_range.mpr b.toNat_lt)
  apply line_injective (spelled b) (clean b)
  simpa using each

section Program

variable {ds es : List Declaration} {m n : Model} {rules others : List Rule} {t u : Table}

theorem enumerator_of_mem (spelled : m.Spelled) (built : ofRules m rules = .ok t) (b : UInt8) :
    ∀ s ∈ t.sortedSymbols b, Enumerator s := by
  intro s listed
  obtain ⟨a, _, held⟩ := hasSymbol_iff.mp (mem_sortedSymbols.mp listed)
  apply spelled
  rw [← symbols_ofRules built]
  exact Array.mem_of_getElem? held

/-- Tables of any two programs print alike when every byte has the same symbols in both; where all
symbols are spelled like enumerators they print alike only then, and the text is one line for each
byte value, each ended by a newline. -/
theorem render_faithful (accepted : Model.ofDeclarations ds = .ok m)
    (other : Model.ofDeclarations es = .ok n) (built : ofRules m rules = .ok t)
    (rebuilt : ofRules n others = .ok u) :
    ((∀ b s, t.hasSymbol b s = u.hasSymbol b s) → t.render = u.render) ∧
      (m.Spelled → n.Spelled → t.render = u.render → ∀ b s, t.hasSymbol b s = u.hasSymbol b s) ∧
      (m.Spelled →
        lines t.render = (List.range 256).map (fun i => t.line (UInt8.ofNat i)) ++ [""]) := by
  refine ⟨?_, ?_, fun spelled => lines_render (enumerator_of_mem spelled built)⟩
  · intro same
    have legible := legible_ofRules (copies_of_ofDeclarations accepted) built
    have readable := legible_ofRules (copies_of_ofDeclarations other) rebuilt
    exact render_congr fun b => sortedSymbols_congr legible readable (same b)
  · intro spelled clean same b s
    have sorted :=
      sortedSymbols_of_render (enumerator_of_mem spelled built)
        (enumerator_of_mem clean rebuilt) same b
    rw [Bool.eq_iff_iff, ← mem_sortedSymbols, ← mem_sortedSymbols, sorted]

/-- The word table prints as the one over more declarations does, and not as the table of no
rules. -/
theorem render_word :
    ∃ m n t u v, Model.ofDeclarations wordTags = .ok m ∧ Model.ofDeclarations tokenTags = .ok n ∧
      ofRules m wordRules = .ok t ∧ ofRules n wordRules = .ok u ∧ ofRules n [] = .ok v ∧
      t.render = u.render ∧ t.render ≠ v.render ∧
      lines t.render = (List.range 256).map (fun i => t.line (UInt8.ofNat i)) ++ [""] := by
  obtain ⟨m, t, accepted, built⟩ := exists_word
  obtain ⟨n, extended⟩ := exists_token
  have copies := copies_of_ofDeclarations extended
  obtain ⟨u, rebuilt⟩ :=
    (exists_ofRules_iff_declared copies).mpr (show ∀ rule ∈ wordRules, _ by decide)
  have word : m.Spelled := Model.spelled_of_declarations accepted (by decide)
  have token : n.Spelled := Model.spelled_of_declarations extended (by decide)
  obtain ⟨alike, _, cut⟩ := render_faithful accepted extended built rebuilt
  have vacant : ofRules n [] = .ok (empty n) := rfl
  obtain ⟨_, faithful, _⟩ := render_faithful accepted extended built vacant
  refine ⟨m, n, t, u, empty n, accepted, extended, built, rebuilt, vacant, ?_, ?_, cut word⟩
  · exact alike fun b s => hasSymbol_extension accepted extended (by decide) built rebuilt b s
  · intro same
    have joiner : t.hasSymbol 255 "C_JOINER" = true := by
      have listed : Rule.points "JOINER" [.char '_', .code 255] ∈ wordRules := by decide
      exact hasSymbol_of_names (copies_of_ofDeclarations accepted) built listed
        ⟨.code 255, by decide⟩ ⟨"JOINER", .refl, by decide⟩
    rw [faithful word token same 255 "C_JOINER"] at joiner
    simp [hasSymbol, TagSet.empty] at joiner

end Program

end Table
end CharTable
