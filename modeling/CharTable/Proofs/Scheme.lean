import CharTable.Proofs.Refusal
import CharTable.Scheme

/-!
The Scheme grammar under any rules. Its tags, its flags and the questions asked of a packed byte fit
together: packing fails only where a byte is given two classes, and each question is answered by the
tags that the rules put on the byte. The rules of the grammar itself give no byte two classes.
-/
namespace CharTable

/-- The symbols of a name that come to light when it is unfolded to a depth. -/
def symbolsWithin (ds : List Declaration) : (depth : Nat) → String → List String
  | 0, _ => []
  | depth + 1, name => ds.flatMap fun d =>
    if d.name = name then
      match d.body with
      | .atomic symbol => [symbol]
      | .composite parts => parts.flatMap (symbolsWithin ds depth)
    else []

theorem mem_symbolsWithin_succ {ds : List Declaration} {depth : Nat} {name s : String} :
    s ∈ symbolsWithin ds (depth + 1) name ↔ ⟨name, .atomic s⟩ ∈ ds ∨
      ∃ part, PartOf ds part name ∧ s ∈ symbolsWithin ds depth part := by
  rw [symbolsWithin, List.mem_flatMap]
  constructor
  · rintro ⟨⟨other, body⟩, declared, met⟩
    dsimp only at met
    split at met
    · rename_i same
      subst same
      cases body with
      | atomic symbol =>
        rw [List.mem_singleton.mp met]
        exact Or.inl declared
      | composite parts =>
        obtain ⟨part, listed, below⟩ := List.mem_flatMap.mp met
        exact Or.inr ⟨part, ⟨parts, declared, listed⟩, below⟩
    · cases met
  · rintro (declared | ⟨part, ⟨parts, declared, listed⟩, below⟩)
    · exact ⟨_, declared, by simp⟩
    · exact ⟨_, declared, by simpa using ⟨part, listed, below⟩⟩

/-- Where one level more shows nothing new, a depth shows all the symbols that a name carries. -/
theorem mem_symbolsWithin_iff {ds : List Declaration} {depth : Nat} {name s : String}
    (settled : ∀ d ∈ ds, ∀ u ∈ symbolsWithin ds (depth + 1) d.name,
    u ∈ symbolsWithin ds depth d.name) : s ∈ symbolsWithin ds depth name ↔ Carries ds name s := by
  constructor
  · clear settled
    induction depth generalizing name with
    | zero => exact fun met => absurd met List.not_mem_nil
    | succ depth ih =>
      intro met
      rcases mem_symbolsWithin_succ.mp met with declared | ⟨part, listing, below⟩
      · exact ⟨name, .refl, declared⟩
      · exact (ih below).of_part listing
  · rintro ⟨leaf, chain, declared⟩
    -- The chain is climbed from its atomic end. Each part adds a level, and one level more shows
    -- nothing new.
    induction chain with
    | refl => exact settled _ declared s (mem_symbolsWithin_succ.mpr (Or.inl declared))
    | @tail part whole _ listing ih =>
      obtain ⟨parts, composed, _⟩ := id listing
      exact settled _ composed s (mem_symbolsWithin_succ.mpr (Or.inr ⟨part, listing, ih⟩))

namespace Scheme
open Packed (Classed Unpackable FirstUnpackable Refusal)

inductive Group where
  | whitespace
  | initial
  | peculiar
  | digit
  | utf8
deriving DecidableEq, Repr

namespace Group

def tags : Group → List String
  | whitespace => ["WHITESPACE", "WHITESPACE_CLASS"]
  | initial => ["INITIAL", "INITIAL_CLASS"]
  | peculiar => ["PECULIAR_IDENT"]
  | digit => ["DIGIT"]
  | utf8 => ["UTF8"]

def symbol : Group → String
  | whitespace => "CC::WhitespaceClass"
  | initial => "CC::InitialClass"
  | peculiar => "CC::PeculiarIdentClass"
  | digit => "CC::DigitClass"
  | utf8 => "CC::UTF8Class"

def value : Group → UInt8
  | whitespace => Flags.whitespace
  | initial => Flags.initial
  | peculiar => Flags.peculiar
  | digit => Flags.digit
  | utf8 => Flags.utf8

def all : List Group := [whitespace, initial, peculiar, digit, utf8]

theorem mem_all (g : Group) : g ∈ all := by
  cases g <;> decide

theorem symbol_injective : Function.Injective symbol := by
  intro g h same
  cases g <;> cases h <;> first | rfl | exact absurd same (by decide)

theorem symbol_lt_or_lt {g h : Group} (apart : g ≠ h) :
    g.symbol < h.symbol ∨ h.symbol < g.symbol := by
  by_contra neither
  obtain ⟨above, below⟩ := not_or.mp neither
  exact apart
    (symbol_injective (String.le_antisymm (String.not_lt.mp below) (String.not_lt.mp above)))

/-- A tag gives at most one class. -/
theorem eq_of_mem_tags {g h : Group} {tag : String} (first : tag ∈ g.tags)
    (second : tag ∈ h.tags) : g = h := by
  have apart : ∀ k l : Group, k ≠ l → ∀ name ∈ k.tags, name ∉ l.tags := by rintro ⟨⟩ ⟨⟩ <;> decide
  by_contra different
  exact apart g h different tag first second

def Names (g : Group) (rules : List Rule) (b : UInt8) : Prop :=
  ∃ rule ∈ rules, rule.Names b ∧ rule.tag ∈ g.tags

end Group

def Contested (rules : List Rule) (b : UInt8) : Prop :=
  ∃ g h : Group, g ≠ h ∧ g.Names rules b ∧ h.Names rules b

/-- The smallest byte that is given two classes, and the two whose symbols come first. -/
structure FirstConflict (rules : List Rule) (b : UInt8) (g h : Group) : Prop where
  first : g.Names rules b
  second : h.Names rules b
  order : g.symbol < h.symbol
  only : ∀ k : Group, k.Names rules b → k.symbol < h.symbol → k = g
  least : ∀ c, Contested rules c → b ≤ c

def Puts (rules : List Rule) (b : UInt8) (s : String) : Prop :=
  ∃ rule ∈ rules, rule.Names b ∧ Carries declarations rule.tag s

theorem carries_iff {tag s : String} :
    Carries declarations tag s ↔ s ∈ symbolsWithin declarations 3 tag := by
  rw [mem_symbolsWithin_iff]
  decide

theorem carries_symbol_iff {tag : String} (declared : Declared declarations tag) (g : Group) :
    Carries declarations tag g.symbol ↔ tag ∈ g.tags := by
  have each : ∀ tag ∈ declarations.map Declaration.name,
      g.symbol ∈ symbolsWithin declarations 3 tag ↔ tag ∈ g.tags := by
    cases g <;> decide
  rw [carries_iff]
  exact each tag declared

theorem flagged_of_carries {tag s : String} (declared : Declared declarations tag)
    (carried : Carries declarations tag s) : s ∈ flagEntries.map Prod.fst := by
  have each : ∀ tag ∈ declarations.map Declaration.name, ∀ s ∈ symbolsWithin declarations 3 tag,
      s ∈ flagEntries.map Prod.fst := by
    decide
  exact each tag declared s (carries_iff.mp carried)

theorem exists_encoding : ∃ e, encoding = .ok e ∧ e.Maps flagEntries :=
  Encoding.ofEntries_of_encodable (by decide)

section Encoding

variable {e : Encoding} (flags : e.Maps flagEntries)
include flags

theorem get?_symbol (g : Group) : e.get? g.symbol = some (.ofClass g.value) := by
  rw [flags]
  cases g <;> decide

theorem classed_iff {s : String} : Classed e s ↔ ∃ g : Group, s = g.symbol := by
  constructor
  · rintro ⟨v, mapped⟩
    have each : ∀ entry ∈ flagEntries, entry.2.class? = none ∨
        ∃ g ∈ Group.all, entry.1 = g.symbol := by
      decide
    rcases each _ ((flags _ _).mp mapped) with bit | ⟨g, _, same⟩
    · cases bit
    · exact ⟨g, same⟩
  · rintro ⟨g, rfl⟩
    exact ⟨g.value, get?_symbol flags g⟩

end Encoding

theorem pack_eq {t : Table} {e : Encoding} (encoded : encoding = .ok e) :
    pack t = (Packed.ofTable t e).mapError (⟨.packing, ·⟩) := by
  rw [pack, encoded]
  rfl

theorem pack_eq_ok_iff {t : Table} {e : Encoding} {p : Packed} (encoded : encoding = .ok e) :
    pack t = .ok p ↔ Packed.ofTable t e = .ok p := by
  rw [pack_eq encoded]
  cases Packed.ofTable t e <;> simp [Except.mapError]

section Program

variable {m : Model} {rules : List Rule} {t : Table} {e : Encoding} (accepted : model = .ok m)
  (built : Table.ofRules m rules = .ok t)
include accepted built

theorem declared_of_mem {rule : Rule} (listed : rule ∈ rules) : Declared declarations rule.tag :=
  ((Table.exists_ofRules_iff_declared (copies_of_ofDeclarations accepted)).mp
    ⟨t, built⟩ rule listed).1

theorem hasSymbol_iff_puts {b : UInt8} {s : String} : t.hasSymbol b s = true ↔ Puts rules b s :=
  Table.hasSymbol_iff_carries (copies_of_ofDeclarations accepted) built

theorem hasSymbol_symbol_iff {b : UInt8} (g : Group) :
    t.hasSymbol b g.symbol = true ↔ g.Names rules b := by
  rw [hasSymbol_iff_puts accepted built]
  refine exists_congr fun rule => and_congr_right fun listed => and_congr_right fun _ => ?_
  exact carries_symbol_iff (declared_of_mem accepted built listed) g

theorem exists_flag (flags : e.Maps flagEntries) {b : UInt8} {s : String}
    (has : t.hasSymbol b s = true) : ∃ flag, e.get? s = some flag := by
  obtain ⟨rule, listed, _, carried⟩ := (hasSymbol_iff_puts accepted built).mp has
  obtain ⟨⟨_, flag⟩, entry, rfl⟩ :=
    List.mem_map.mp (flagged_of_carries (declared_of_mem accepted built listed) carried)
  exact ⟨flag, (flags _ _).mpr entry⟩

theorem unpackable_iff (flags : e.Maps flagEntries) {b : UInt8} {s : String} :
    Unpackable t e b s ↔
      ∃ g h : Group, s = h.symbol ∧ g.Names rules b ∧ h.Names rules b ∧ g.symbol < h.symbol := by
  constructor
  · rintro ⟨has, free | ⟨late, r, also, early, less⟩⟩
    · obtain ⟨flag, mapped⟩ := exists_flag accepted built flags has
      cases free.symm.trans mapped
    · obtain ⟨h, rfl⟩ := (classed_iff flags).mp late
      obtain ⟨g, rfl⟩ := (classed_iff flags).mp early
      exact ⟨g, h, rfl, (hasSymbol_symbol_iff accepted built g).mp also,
        (hasSymbol_symbol_iff accepted built h).mp has, Utf8.encode_lt_iff.mp less⟩
  · rintro ⟨g, h, rfl, first, second, less⟩
    exact ⟨(hasSymbol_symbol_iff accepted built h).mpr second,
      Or.inr ⟨(classed_iff flags).mpr ⟨h, rfl⟩, g.symbol,
      (hasSymbol_symbol_iff accepted built g).mpr first, (classed_iff flags).mpr ⟨g, rfl⟩,
      Utf8.encode_lt_iff.mpr less⟩⟩

theorem exists_unpackable_iff (flags : e.Maps flagEntries) {b : UInt8} :
    (∃ s, Unpackable t e b s) ↔ Contested rules b := by
  constructor
  · rintro ⟨s, refused⟩
    obtain ⟨g, h, _, first, second, less⟩ := (unpackable_iff accepted built flags).mp refused
    refine ⟨g, h, ?_, first, second⟩
    rintro rfl
    exact String.lt_irrefl _ less
  · rintro ⟨g, h, apart, first, second⟩
    rcases Group.symbol_lt_or_lt apart with less | less
    · exact ⟨h.symbol, (unpackable_iff accepted built flags).mpr ⟨g, h, rfl, first, second, less⟩⟩
    · exact ⟨g.symbol, (unpackable_iff accepted built flags).mpr ⟨h, g, rfl, second, first, less⟩⟩

/-- The first conflict is where packing stops. -/
theorem firstUnpackable_of_conflict (flags : e.Maps flagEntries) {b : UInt8} {g h : Group}
    (conflict : FirstConflict rules b g h) : FirstUnpackable t e b h.symbol := by
  refine ⟨?_, fun c u refused => ?_, fun u refused less => ?_⟩
  · exact (unpackable_iff accepted built flags).mpr ⟨g, h, rfl, conflict.first,
      conflict.second, conflict.order⟩
  · exact conflict.least c ((exists_unpackable_iff accepted built flags).mp ⟨u, refused⟩)
  · obtain ⟨k, l, rfl, first, second, order⟩ := (unpackable_iff accepted built flags).mp refused
    have below := Utf8.encode_lt_iff.mp less
    have last := conflict.only l second below
    have same := conflict.only k first (String.lt_trans order below)
    rw [last, same] at order
    exact String.lt_irrefl _ order

theorem ofTable_of_conflict (flags : e.Maps flagEntries) {b : UInt8} {g h : Group}
    (conflict : FirstConflict rules b g h) :
    Packed.ofTable t e = .error (.classConflict b g.symbol h.symbol) := by
  have legible := Table.legible_ofRules (copies_of_ofDeclarations accepted) built
  have first := firstUnpackable_of_conflict accepted built flags conflict
  obtain ⟨fault, refusal, failed⟩ := Packed.ofTable_refusal legible first
  cases refusal with
  | unmapped free => cases free.symm.trans (get?_symbol flags h)
  | conflict _ _ _ _ only =>
    have early := (only g.symbol).mp ⟨(hasSymbol_symbol_iff accepted built g).mpr conflict.first,
      (classed_iff flags).mpr ⟨g, rfl⟩, Utf8.encode_lt_iff.mpr conflict.order⟩
    rw [failed, early]

/-- Some byte with two classes is the smallest, and two of its classes come first. -/
theorem exists_firstConflict (flags : e.Maps flagEntries) {b : UInt8}
    (contested : Contested rules b) : ∃ c g h, FirstConflict rules c g h := by
  have legible := Table.legible_ofRules (copies_of_ofDeclarations accepted) built
  obtain ⟨c, s, first⟩ := Packed.exists_firstUnpackable legible
    ⟨b, (exists_unpackable_iff (e := e) accepted built flags).mpr contested⟩
  obtain ⟨g, h, rfl, early, late, order⟩ := (unpackable_iff accepted built flags).mp first.here
  refine ⟨c, g, h, early, late, order, fun k named less => ?_, fun d also => ?_⟩
  · -- A third class before the second would itself stand behind a class, or let one stand
    -- behind it.
    by_contra apart
    have earlier (l : Group) (below : l.symbol < h.symbol) : ¬ Unpackable t e c l.symbol :=
      fun refused => first.symbol _ refused (Utf8.encode_lt_iff.mpr below)
    rcases Group.symbol_lt_or_lt apart with below | above
    · exact earlier g order
        ((unpackable_iff accepted built flags).mpr ⟨k, g, rfl, named, early, below⟩)
    · exact earlier k less
        ((unpackable_iff accepted built flags).mpr ⟨g, k, rfl, early, named, above⟩)
  · obtain ⟨u, refused⟩ := (exists_unpackable_iff accepted built flags).mpr also
    exact first.byte d u refused

theorem pack_of_conflict {b : UInt8} {g h : Group} (conflict : FirstConflict rules b g h) :
    pack t = .error ⟨.packing, .classConflict b g.symbol h.symbol⟩ := by
  obtain ⟨e, encoded, flags⟩ := exists_encoding
  rw [pack_eq encoded, ofTable_of_conflict accepted built flags conflict]
  rfl

theorem exists_pack (free : ∀ b, ¬ Contested rules b) : ∃ p, pack t = .ok p := by
  obtain ⟨e, encoded, flags⟩ := exists_encoding
  have legible := Table.legible_ofRules (copies_of_ofDeclarations accepted) built
  obtain ⟨p, packed⟩ := Packed.exists_ofTable (e := e) legible fun b s refused =>
    free b ((exists_unpackable_iff accepted built flags).mp ⟨s, refused⟩)
  exact ⟨p, (pack_eq_ok_iff encoded).mpr packed⟩

theorem pack_ok_or_conflict :
    ((∃ p, pack t = .ok p) ∧ ∀ b, ¬ Contested rules b) ∨ ∃ b g h, FirstConflict rules b g h := by
  obtain ⟨e, _, flags⟩ := exists_encoding
  by_cases contested : ∃ b, Contested rules b
  · obtain ⟨b, contested⟩ := contested
    exact Or.inr (exists_firstConflict accepted built flags contested)
  · have free := not_exists.mp contested
    exact Or.inl ⟨exists_pack accepted built free, free⟩

theorem test_bit_iff {p : Packed} (packed : pack t = .ok p) {s : String} {v : UInt8}
    (listed : (s, .bit v) ∈ flagEntries) (b : UInt8) : p.test b v = true ↔ Puts rules b s := by
  obtain ⟨e, encoded, flags⟩ := exists_encoding
  have mapped : e.get? s = some (.bit v) := (flags _ _).mpr listed
  rw [Packed.test_iff ((pack_eq_ok_iff encoded).mp packed) mapped,
    hasSymbol_iff_puts accepted built]

/-- A packed byte is reported under the class that the rules give it, and under a dash where they
give it none. -/
theorem className_classOf {p : Packed} (packed : pack t = .ok p) (b : UInt8) :
    (∀ g : Group, g.Names rules b → className (p.classOf b) = className g.value) ∧
      ((∀ g : Group, ¬ g.Names rules b) → className (p.classOf b) = "-") := by
  obtain ⟨e, encoded, flags⟩ := exists_encoding
  have packs := (pack_eq_ok_iff encoded).mp packed
  constructor
  · intro g named
    have classed : p.classOf b = g.value := (Packed.classOf_iff packs (get?_symbol flags g)).mpr
      ((hasSymbol_symbol_iff accepted built g).mpr named)
    rw [classed]
  · intro unnamed
    have unclassed : p.classOf b = 0 := by
      apply (Packed.classOf_eq_zero_iff packs).mpr
      intro s v mapped
      obtain ⟨g, rfl⟩ := (classed_iff flags).mp ⟨v, mapped⟩
      exact Bool.eq_false_iff.mpr fun has =>
        unnamed g ((hasSymbol_symbol_iff accepted built g).mp has)
    rw [unclassed]
    rfl

/-- A table of the grammar packs unless the rules give some byte two classes; then the fault names
the smallest such byte and its first two classes, and no other fault arises. The questions asked of
a packed byte are answered by the tags of the rules that name the byte. -/
theorem pack_outcome : ((∃ p, pack t = .ok p) ↔ ∀ b, ¬ Contested rules b) ∧
    (∀ fault, pack t = .error fault ↔
      ∃ b g h, FirstConflict rules b g h ∧ fault = ⟨.packing, .classConflict b g.symbol h.symbol⟩) ∧
    ∀ p, pack t = .ok p → ∀ b, (p.isDelimiter b = true ↔ Puts rules b "CC::Delimiter") ∧
      (p.isSubsequent b = true ↔ Puts rules b "CC::Subsequent") ∧
      (p.isSignSubsequent b = true ↔ Puts rules b "CC::SignSubsequent") ∧
      (p.isDotSubsequent b = true ↔ Puts rules b "CC::DotSubsequent") := by
  refine ⟨⟨fun packs => ?_, exists_pack accepted built⟩, fun fault => ⟨fun failed => ?_, ?_⟩,
    fun p packed b => ?_⟩
  · rcases pack_ok_or_conflict accepted built with ⟨_, free⟩ | ⟨b, g, h, conflict⟩
    · exact free
    · obtain ⟨p, packed⟩ := packs
      cases packed.symm.trans (pack_of_conflict accepted built conflict)
  · rcases pack_ok_or_conflict accepted built with ⟨⟨p, packed⟩, _⟩ | ⟨b, g, h, conflict⟩
    · cases packed.symm.trans failed
    · exact ⟨b, g, h, conflict,
        Except.error.inj (failed.symm.trans (pack_of_conflict accepted built conflict))⟩
  · rintro ⟨b, g, h, conflict, rfl⟩
    exact pack_of_conflict accepted built conflict
  · have asked {s : String} {v : UInt8} (listed : (s, .bit v) ∈ flagEntries) :=
      test_bit_iff accepted built packed listed b
    exact ⟨asked (by decide), asked (by decide), asked (by decide), asked (by decide)⟩

end Program

section Grammar

theorem exists_model : ∃ m : Model, m.Copies declarations ∧ model = .ok m := by
  have formed : WellFormed declarations := by
    apply WellFormed.of_ranked fun name =>
      if name = "INITIAL" then 2 else if name = "SIGN_SUBSEQUENT" then 1
        else if name = "WHITESPACE" then 1 else 0
    · decide
    · decide
    · decide
  exact formed.ofDeclarations

def Group.ofByte (b : UInt8) : Group :=
  if 128 ≤ b then utf8
  else if 48 ≤ b ∧ b ≤ 57 then digit
  else if b = 43 ∨ b = 45 ∨ b = 46 then peculiar
  else if b ≤ 32 then whitespace
  else initial

/-- Which class the rules of the grammar can give a byte is decided by the byte. -/
theorem ofByte_of_names {g : Group} {b : UInt8} (named : g.Names rules b) : g = .ofByte b := by
  have each : ∀ rule ∈ rules, ∀ g ∈ Group.all, rule.tag ∈ g.tags →
      ∀ b ∈ rule.named, g = .ofByte b := by
    decide +kernel
  obtain ⟨rule, listed, names, tagged⟩ := named
  exact each rule listed g g.mem_all tagged b (Rule.mem_named.mpr names)

theorem not_contested_rules (b : UInt8) : ¬ Contested rules b := by
  rintro ⟨g, h, apart, first, second⟩
  exact apart ((ofByte_of_names first).trans (ofByte_of_names second).symm)

/-- The table of the grammar can be built and packed. -/
theorem exists_packed : ∃ t p, table = .ok t ∧ pack t = .ok p := by
  obtain ⟨m, copies, accepted⟩ := exists_model
  obtain ⟨t, built⟩ :=
    (Table.exists_ofRules_iff_declared copies).mpr (show ∀ rule ∈ rules, _ by decide +kernel)
  obtain ⟨p, packed⟩ := exists_pack accepted built not_contested_rules
  refine ⟨t, p, ?_, packed⟩
  rw [table, accepted]
  exact congrArg (atStage .rules) built

/-- The sample is reported, by the packed table of the grammar. -/
theorem sampleReport_eq :
    ∃ t p, table = .ok t ∧ pack t = .ok p ∧ sampleReport = .ok (report p sample) := by
  obtain ⟨t, p, built, packed⟩ := exists_packed
  refine ⟨t, p, built, packed, ?_⟩
  rw [sampleReport, built]
  change (pack t).map (report · sample) = _
  rw [packed]
  rfl

end Grammar

section Contest

def contestedRules : List Rule := [
  .range "DIGIT" (.char '0') (.char '9'),
  .points "INITIAL" [.char '@', .char '7', .char '5']]

def initialRules : List Rule := [.points "INITIAL" [.char '@']]

theorem names_contested {g : Group} {b : UInt8} (named : g.Names contestedRules b) :
    g = .digit ∧ b ≤ 57 ∨ g = .initial ∧ (b = 64 ∨ b = 55 ∨ b = 53) := by
  obtain ⟨rule, listed, names, tagged⟩ := named
  simp only [contestedRules, List.mem_cons, List.not_mem_nil, or_false] at listed
  rcases listed with rfl | rfl
  · obtain ⟨_, hi, _, upper, _, below⟩ := names
    cases upper
    exact Or.inl ⟨Group.eq_of_mem_tags tagged (by decide), below⟩
  · obtain ⟨spec, point, resolved⟩ := names
    refine Or.inr ⟨Group.eq_of_mem_tags tagged (by decide), ?_⟩
    simp only [List.mem_cons, List.not_mem_nil, or_false] at point
    rcases point with rfl | rfl | rfl <;> cases resolved <;> decide

theorem firstConflict_contested : FirstConflict contestedRules 53 .digit .initial where
  first := ⟨.range "DIGIT" (.char '0') (.char '9'), by decide, ⟨48, 57, by decide⟩, by decide⟩
  second := ⟨.points "INITIAL" [.char '@', .char '7', .char '5'], by decide,
    ⟨.char '5', by decide⟩, by decide⟩
  order := by decide
  only k named less := by
    rcases names_contested named with ⟨rfl, _⟩ | ⟨rfl, _⟩
    · rfl
    · exact absurd less (by decide)
  least c contested := by
    obtain ⟨g, h, apart, first, second⟩ := contested
    obtain ⟨low, point⟩ : c ≤ 57 ∧ (c = 64 ∨ c = 55 ∨ c = 53) := by
      rcases names_contested first with ⟨rfl, low⟩ | ⟨rfl, point⟩
      · rcases names_contested second with ⟨rfl, _⟩ | ⟨_, point⟩
        · exact absurd rfl apart
        · exact ⟨low, point⟩
      · rcases names_contested second with ⟨_, low⟩ | ⟨rfl, _⟩
        · exact ⟨low, point⟩
        · exact absurd rfl apart
    rcases point with rfl | rfl | rfl
    · exact absurd low (by decide)
    · decide
    · decide

theorem not_contested_initial (b : UInt8) : ¬ Contested initialRules b := by
  rintro ⟨g, h, apart, ⟨rule, listed, _, early⟩, ⟨other, also, _, late⟩⟩
  rw [List.mem_singleton.mp listed] at early
  rw [List.mem_singleton.mp also] at late
  exact apart (Group.eq_of_mem_tags early late)

theorem pack_contested : ∃ m t u p, model = .ok m ∧ Table.ofRules m contestedRules = .ok t ∧
    Table.ofRules m initialRules = .ok u ∧
    pack t = .error ⟨.packing, .classConflict 53 "CC::DigitClass" "CC::InitialClass"⟩ ∧
    pack u = .ok p ∧ p.isDotSubsequent 64 = true ∧ p.isSubsequent 64 ≠ true := by
  obtain ⟨m, copies, accepted⟩ := exists_model
  obtain ⟨t, built⟩ :=
    (Table.exists_ofRules_iff_declared copies).mpr (show ∀ rule ∈ contestedRules, _ by decide)
  obtain ⟨u, alone⟩ :=
    (Table.exists_ofRules_iff_declared copies).mpr (show ∀ rule ∈ initialRules, _ by decide)
  obtain ⟨_, fails, _⟩ := pack_outcome accepted built
  obtain ⟨packs, _, asked⟩ := pack_outcome accepted alone
  obtain ⟨p, packed⟩ := packs.mpr not_contested_initial
  obtain ⟨_, subsequent, _, dot⟩ := asked p packed 64
  refine ⟨m, t, u, p, accepted, built, alone,
    (fails _).mpr ⟨_, _, _, firstConflict_contested, rfl⟩, packed, ?_, ?_⟩
  · exact dot.mpr ⟨_, List.mem_singleton_self _, ⟨.char '@', by decide⟩,
      carries_iff.mpr (by decide)⟩
  · intro holds
    obtain ⟨rule, listed, _, carried⟩ := subsequent.mp holds
    rw [List.mem_singleton.mp listed] at carried
    exact absurd (carries_iff.mp carried) (by decide)

end Contest

end Scheme
end CharTable
