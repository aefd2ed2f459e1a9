import CharTable.Proofs.Acceptance
import CharTable.Proofs.Legible
import CharTable.Proofs.Program

/-!
What the table of a program means. A tag carries the symbols of the atomic declarations that it
reaches through parts; a byte has exactly the symbols that the tags of the rules naming it carry.
-/
namespace CharTable
open Relation (ReflTransGen)

/-- A chain of parts, of any length, leads from the name to an atomic declaration of the symbol. -/
def Carries (ds : List Declaration) (name symbol : String) : Prop :=
  ∃ leaf, ReflTransGen (PartOf ds) leaf name ∧ ⟨leaf, .atomic symbol⟩ ∈ ds

theorem Carries.of_part {ds : List Declaration} {part whole symbol : String}
    (listed : PartOf ds part whole)
    (carried : Carries ds part symbol) : Carries ds whole symbol := by
  obtain ⟨leaf, chain, declared⟩ := carried
  exact ⟨leaf, chain.tail listed, declared⟩

namespace Model

theorem tagId_eq_ok_iff {m : Model} {name : String} {t : TagId} :
    m.tagId name = .ok t ↔ m.index[name]? = some t := by
  unfold tagId
  cases m.index[name]? with
  | none => simp
  | some found => simp

theorem leaves_of_isPart {m : Model} {p t : TagId} {a : AtomId} (part : IsPart m.tags p t)
    (leaf : a ∈ m.leaves p) : a ∈ m.leaves t := by
  obtain ⟨parts, found, member⟩ := isPart_iff.mp part
  rw [leaves_composite found]
  exact List.mem_flatMap.mpr ⟨p, member, leaf⟩

namespace Copies

variable {m : Model} {ds : List Declaration}

theorem exists_tagId_iff (copies : m.Copies ds) {name : String} :
    (∃ t, m.tagId name = .ok t) ↔ Declared ds name := by
  simp only [tagId_eq_ok_iff]
  constructor
  · intro known
    obtain ⟨t, found⟩ := known
    exact copies.numbers.mem_of_lookup found
  · exact copies.numbers.lookup_of_mem

theorem tag_of_lookup (copies : m.Copies ds) {name : String} {t : TagId}
    (found : m.index[name]? = some t) : ∃ tag, m.tag? t = some tag := by
  obtain ⟨d, here, _⟩ := copies.numbers.getElem?_of_lookup found
  obtain ⟨tag, there, _⟩ := copies.tag_of_getElem? here
  exact ⟨tag, there⟩

/-- The ids that a composite lists are ids of tags. -/
theorem tag_of_isPart (copies : m.Copies ds) {p t : TagId} (part : IsPart m.tags p t) :
    ∃ tag, m.tag? p = some tag := by
  obtain ⟨ids, here, listed⟩ := isPart_iff.mp part
  obtain ⟨d, _, resolves⟩ := copies.getElem?_of_tag here
  cases resolves with
  | composite _ each =>
    obtain ⟨name, _, found⟩ := Traverse.mem_right each listed
    exact copies.tag_of_lookup found

/-- Every leaf of a tag has a symbol, and the name of the tag carries it. -/
theorem carries_of_mem_leaves (copies : m.Copies ds) {name : String} {t : TagId} {a : AtomId}
    (known : m.index[name]? = some t) (leaf : a ∈ m.leaves t) :
    ∃ s, m.symbol? a = some s ∧ Carries ds name s := by
  -- Along the descent to parts, which ends because the model has no cycle.
  induction t using m.descends.induction generalizing name with
  | _ t ih =>
    obtain ⟨d, here, rfl⟩ := copies.numbers.getElem?_of_lookup known
    have declared : d ∈ ds := List.mem_of_getElem? here
    obtain ⟨tag, found, resolves⟩ := copies.tag_of_getElem? here
    cases resolves with
    | @atomic name symbol c held =>
      rw [leaves_atomic found, List.mem_singleton] at leaf
      subst leaf
      exact ⟨symbol, by simpa [symbol?] using held, name, .refl, declared⟩
    | @composite name parts ids some each =>
      rw [leaves_composite found, List.mem_flatMap] at leaf
      obtain ⟨p, listed, leaf⟩ := leaf
      obtain ⟨part, member, numbered⟩ := Traverse.mem_right each listed
      obtain ⟨s, held, carried⟩ := ih p (isPart_of_tag? found listed) numbered leaf
      exact ⟨s, held, carried.of_part ⟨parts, declared, member⟩⟩

theorem leaves_of_atomic (copies : m.Copies ds) {name s : String} {t : TagId}
    (known : m.index[name]? = some t) (declared : ⟨name, .atomic s⟩ ∈ ds) :
    ∃ a, m.leaves t = [a] ∧ m.symbol? a = some s := by
  obtain ⟨tag, found, resolves⟩ :=
    copies.tag_of_getElem? (copies.numbers.getElem?_of_mem declared known)
  cases resolves with
  | @atomic _ _ a held => exact ⟨a, leaves_atomic found, by simpa [symbol?] using held⟩

/-- Every symbol that a name carries belongs to a leaf of its tag. -/
theorem mem_leaves_of_carries (copies : m.Copies ds) {name s : String} {t : TagId}
    (known : m.index[name]? = some t) (carried : Carries ds name s) :
    ∃ a ∈ m.leaves t, m.symbol? a = some s := by
  obtain ⟨leaf, chain, declared⟩ := carried
  induction chain generalizing t with
  | refl =>
    obtain ⟨a, only, held⟩ := copies.leaves_of_atomic known declared
    exact ⟨a, by simp [only], held⟩
  | tail _ listed ih =>
    obtain ⟨p, numbered, isPart⟩ := copies.isPart_of_partOf listed known
    obtain ⟨a, leaf, held⟩ := ih numbered
    exact ⟨a, leaves_of_isPart isPart leaf, held⟩

end Copies
end Model

namespace Table

variable {ds : List Declaration} {m : Model} {rules : List Rule} {t : Table}

theorem symbol_of_mem_entry (copies : m.Copies ds) (built : ofRules m rules = .ok t) {b : UInt8}
    {a : AtomId} (member : a ∈ t.entry b) :
    ∃ s, t.symbol? a = some s ∧ ∃ rule ∈ rules, rule.Names b ∧ Carries ds rule.tag s := by
  obtain ⟨rule, listed, target, taken, named, leaf⟩ := (mem_entry_ofRules built).mp member
  obtain ⟨known, bytes⟩ := Rule.mem_target taken
  obtain ⟨s, held, carried⟩ := copies.carries_of_mem_leaves (Model.tagId_eq_ok_iff.mp known) leaf
  refine ⟨s, ?_, rule, listed, (bytes b).mp named, carried⟩
  rwa [symbol?, symbols_ofRules built]

theorem names_of_hasSymbol (copies : m.Copies ds) (built : ofRules m rules = .ok t) {b : UInt8}
    {s : String} (has : t.hasSymbol b s = true) :
    ∃ rule ∈ rules, rule.Names b ∧ Carries ds rule.tag s := by
  obtain ⟨a, member, held⟩ := hasSymbol_iff.mp has
  obtain ⟨other, same, found⟩ := symbol_of_mem_entry copies built member
  cases held.symm.trans same
  exact found

theorem declared_of_hasSymbol (copies : m.Copies ds) (built : ofRules m rules = .ok t) {b : UInt8}
    {s : String} (has : t.hasSymbol b s = true) : ∃ leaf, ⟨leaf, .atomic s⟩ ∈ ds := by
  obtain ⟨_, _, _, leaf, _, declared⟩ := names_of_hasSymbol copies built has
  exact ⟨leaf, declared⟩

/-- The table of a program is legible. -/
theorem legible_ofRules (copies : m.Copies ds) (built : ofRules m rules = .ok t) : t.Legible := by
  refine ⟨by rw [symbols_ofRules built]; exact copies.distinct, fun b a member => ?_⟩
  obtain ⟨s, held, _⟩ := symbol_of_mem_entry copies built member
  exact ⟨s, held⟩

/-- A program succeeds exactly if its tags are declared and its bytes in range. -/
theorem exists_ofRules_iff_declared (copies : m.Copies ds) :
    (∃ t, ofRules m rules = .ok t) ↔ ∀ rule ∈ rules, Declared ds rule.tag ∧ rule.InRange := by
  rw [exists_ofRules_iff]
  simp only [Rule.exists_target_iff, copies.exists_tagId_iff]

theorem hasSymbol_of_names (copies : m.Copies ds) (built : ofRules m rules = .ok t) {b : UInt8}
    {s : String} {rule : Rule} (listed : rule ∈ rules) (named : rule.Names b)
    (carried : Carries ds rule.tag s) : t.hasSymbol b s = true := by
  obtain ⟨targets, each, _⟩ := ofRules_eq_ok_iff.mp built
  obtain ⟨target, _, taken⟩ := Traverse.mem_left each listed
  obtain ⟨known, bytes⟩ := Rule.mem_target taken
  obtain ⟨a, leaf, held⟩ := copies.mem_leaves_of_carries (Model.tagId_eq_ok_iff.mp known) carried
  rw [hasSymbol_iff]
  refine ⟨a, (mem_entry_ofRules built).mpr ⟨rule, listed, target, taken,
    (bytes b).mpr named, leaf⟩, ?_⟩
  rwa [symbol?, symbols_ofRules built]

theorem hasSymbol_iff_carries (copies : m.Copies ds) (built : ofRules m rules = .ok t)
    {b : UInt8} {s : String} :
    t.hasSymbol b s = true ↔ ∃ rule ∈ rules, rule.Names b ∧ Carries ds rule.tag s := by
  constructor
  · exact names_of_hasSymbol copies built
  · intro found
    obtain ⟨rule, listed, named, carried⟩ := found
    exact hasSymbol_of_names copies built listed named carried

/-- A byte has a symbol exactly when some rule of the program names the byte and its tag carries the
symbol; nothing else stands in an entry, and no symbol stands in it twice. -/
theorem hasSymbol_ofRules (accepted : Model.ofDeclarations ds = .ok m)
    (built : ofRules m rules = .ok t) :
    (∀ b s, t.hasSymbol b s = true ↔ ∃ rule ∈ rules, rule.Names b ∧ Carries ds rule.tag s) ∧
      ∀ b, (∀ a ∈ t.entry b, ∃ s, t.symbol? a = some s) ∧ (t.symbolsOn b).Nodup := by
  have copies := copies_of_ofDeclarations accepted
  have legible := legible_ofRules copies built
  refine ⟨fun b s => ⟨?_, ?_⟩, fun b => ⟨legible.named b, legible.nodup_symbolsOn b⟩⟩
  · intro has
    obtain ⟨a, member, held⟩ := hasSymbol_iff.mp has
    obtain ⟨other, same, found⟩ := symbol_of_mem_entry copies built member
    cases held.symm.trans same
    exact found
  · intro found
    obtain ⟨rule, listed, named, carried⟩ := found
    exact hasSymbol_of_names copies built listed named carried

def wordTags : List Declaration :=
  [.composite "WORD" ["ALNUM", "LOW_LINE"], .composite "ALNUM" ["LETTER", "DIGIT"],
    .atomic "LETTER" "C_LETTER", .atomic "DIGIT" "C_DIGIT", .atomic "LOW_LINE" "C_JOINER",
    .atomic "JOINER" "C_JOINER"]

theorem symbol_of_wordTags {leaf s : String} (declared : ⟨leaf, .atomic s⟩ ∈ wordTags) :
    s = "C_LETTER" ∨ s = "C_DIGIT" ∨ s = "C_JOINER" := by
  simp only [wordTags, Declaration.atomic, Declaration.composite, List.mem_cons,
    Declaration.mk.injEq, Declaration.Body.atomic.injEq, List.not_mem_nil, reduceCtorEq, and_false,
    or_false, false_or] at declared
  tauto

def wordRules : List Rule :=
  [.range "WORD" (.code 250) (.code 255), .range "DIGIT" (.char '0') (.char '9'),
    .points "JOINER" [.char '_', .code 255]]

theorem exists_word :
    ∃ m t, Model.ofDeclarations wordTags = .ok m ∧ ofRules m wordRules = .ok t := by
  have formed : WellFormed wordTags := by
    apply WellFormed.of_ranked fun name => if name = "WORD" then 2
      else if name = "ALNUM" then 1 else 0
    · decide
    · decide
    · decide
  obtain ⟨m, copies, accepted⟩ := formed.ofDeclarations
  obtain ⟨t, built⟩ :=
    (exists_ofRules_iff_declared copies).mpr (show ∀ rule ∈ wordRules, _ by decide)
  exact ⟨m, t, accepted, built⟩

theorem hasSymbol_word :
    ∃ m t, Model.ofDeclarations wordTags = .ok m ∧ ofRules m wordRules = .ok t ∧
      t.hasSymbol 255 "C_DIGIT" = true := by
  obtain ⟨m, t, accepted, built⟩ := exists_word
  have digit : Carries wordTags "DIGIT" "C_DIGIT" := ⟨"DIGIT", .refl, by decide⟩
  have alnum : Carries wordTags "ALNUM" "C_DIGIT" :=
    digit.of_part ⟨["LETTER", "DIGIT"], by decide, by decide⟩
  have word : Carries wordTags "WORD" "C_DIGIT" :=
    alnum.of_part ⟨["ALNUM", "LOW_LINE"], by decide, by decide⟩
  refine ⟨m, t, accepted, built, ((hasSymbol_ofRules accepted built).1 255 "C_DIGIT").mpr ?_⟩
  exact ⟨.range "WORD" (.code 250) (.code 255), by decide, ⟨250, 255, by decide⟩, word⟩

end Table
end CharTable
