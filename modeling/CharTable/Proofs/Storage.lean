import CharTable.Proofs.Edits
import CharTable.Proofs.Initializer

/-!
A table as it is stored: a list of entries and a list of symbols, of which no length, no
distinctness and no id is known. Steps and readings on it go by position, and where a position is
out of bounds they have no result. On what edits leave behind they always have one: the stored form
stays regular, and it shows what the table shows.
-/
namespace CharTable

structure Stored where
  entries : List (List AtomId)
  symbols : List String

namespace Stored

def fresh (m : Model) : Stored := ⟨List.replicate 256 [], m.symbols.toList⟩

def atomsAt? (s : Stored) (b : UInt8) : Option (List AtomId) := s.entries[b.toNat]?

def symbol? (s : Stored) (a : AtomId) : Option String := s.symbols[a.toNat]?

def insert? (b : UInt8) (a : AtomId) (s : Stored) : Option Stored := do
  let atoms ← s.atomsAt? b
  return if a ∈ atoms then s else { s with entries := s.entries.set b.toNat (atoms ++ [a]) }

def insertTag? (m : Model) (b : UInt8) (id : TagId) (s : Stored) : Option Stored :=
  match _tag : m.tag? id with
  | some (.atomic a) => s.insert? b a
  | some (.composite parts) => parts.attach.foldlM (fun s p => insertTag? m b p.1 s) s
  | none => none
termination_by (⟨id⟩ : m.Node)
decreasing_by exact Model.isPart_of_tag? _tag p.2

def insertOn? (m : Model) (id : TagId) (bytes : List UInt8) (s : Stored) : Option Stored :=
  bytes.foldlM (fun s b => insertTag? m b id s) s

def edit? (m : Model) (s : Stored) (e : Table.Edit) : Option Stored :=
  match e.toRule.target m with
  | .ok target => insertOn? m target.1 target.2 s
  | .error _ => some s

def run? (m : Model) (s : Stored) (edits : List Table.Edit) : Option Stored :=
  edits.foldlM (edit? m) s

def sortedSymbols? (s : Stored) (b : UInt8) : Option (List String) := do
  let symbols ← (← s.atomsAt? b).mapM s.symbol?
  return symbols.mergeSort fun first second => decide (first ≤ second)

def hasSymbol? (s : Stored) (b : UInt8) (symbol : String) : Option Bool := do
  (← s.atomsAt? b).anyM fun a => (s.symbol? a).map (· == symbol)

def line? (s : Stored) (b : UInt8) : Option String := do
  return Table.label b ++ Table.expression (← s.sortedSymbols? b) ++ ","

def render? (s : Stored) : Option String := do
  let lines ← (List.range s.entries.length).mapM fun i => s.line? (UInt8.ofNat i)
  return String.join (lines.map (· ++ "\n"))

def flagByte? (s : Stored) (e : Encoding) (b : UInt8) : ExceptT Fault Option UInt8 := do
  let symbols ← s.sortedSymbols? b
  Packed.scan e b none 0 symbols

def pack? (s : Stored) (e : Encoding) : ExceptT Fault Option (UInt8 × List UInt8) := do
  let flags ← (List.range s.entries.length).mapM fun i => s.flagByte? e (UInt8.ofNat i)
  return (e.mask, flags)

/-- An entry for each byte value, holding different atoms with different symbols of the model. -/
structure Regular (m : Model) (s : Stored) : Prop where
  size : s.entries.length = 256
  symbols : s.symbols = m.symbols.toList
  distinct : ∀ atoms ∈ s.entries, atoms.Nodup
  inside : ∀ atoms ∈ s.entries, ∀ a ∈ atoms, a.toNat < s.symbols.length
  apart : ∀ atoms ∈ s.entries, (atoms.map s.symbol?).Nodup
  few : ∀ atoms ∈ s.entries, atoms.length ≤ m.symbols.size

/-- Every reading of the stored form has a result, the one that the table gives. -/
structure Shows (s : Stored) (t : Table) : Prop where
  entry : ∀ b, s.atomsAt? b = some (t.entry b).atoms
  symbol : ∀ b, ∀ a ∈ t.entry b, ∃ symbol, s.symbol? a = some symbol ∧ t.symbol? a = some symbol
  sortedSymbols : ∀ b, s.sortedSymbols? b = some (t.sortedSymbols b)
  hasSymbol : ∀ b symbol, s.hasSymbol? b symbol = some (t.hasSymbol b symbol)
  line : ∀ b, s.line? b = some (t.line b)
  render : s.render? = some t.render
  pack : ∀ e, (s.pack? e).run = some ((Packed.ofTable t e).map fun p => (p.mask, p.flags.toList))

theorem insertTag?_eq (m : Model) (b : UInt8) (id : TagId) (s : Stored) :
    insertTag? m b id s = match m.tag? id with
      | some (.atomic a) => s.insert? b a
      | some (.composite parts) => parts.foldlM (fun s p => insertTag? m b p s) s
      | none => none := by
  rw [insertTag?]
  split <;> simp_all

end Stored

namespace Table

def stored (t : Table) : Stored := ⟨t.entries.toList.map TagSet.atoms, t.symbols.toList⟩

end Table

namespace Stored
open Table (stored)

variable {m : Model} {ds : List Declaration} {t : Table}

theorem fresh_eq (m : Model) : fresh m = (Table.empty m).stored := by
  have vacant : (Vector.replicate 256 TagSet.empty).toList.map TagSet.atoms =
      List.replicate 256 [] := by
    rw [Vector.toList_replicate, List.map_replicate]
    rfl
  rw [fresh, stored, Table.empty, vacant]

theorem atomsAt?_stored (t : Table) (b : UInt8) : t.stored.atomsAt? b = some (t.entry b).atoms := by
  have inside : b.toNat < 256 := b.toNat_lt
  simp [atomsAt?, stored, Table.entry, inside]

theorem symbol?_stored (t : Table) (a : AtomId) : t.stored.symbol? a = t.symbol? a := by
  simp [symbol?, stored, Table.symbol?]

theorem entry_of_mem {atoms : List AtomId} (listed : atoms ∈ t.stored.entries) :
    ∃ b, atoms = (t.entry b).atoms := by
  obtain ⟨set, member, rfl⟩ := List.mem_map.mp listed
  obtain ⟨i, inside, rfl⟩ := Vector.getElem_of_mem (Vector.mem_toList_iff.mp member)
  have reached : (UInt8.ofNat i).toNat = i := UInt8.toNat_ofNat_of_lt' inside
  exact ⟨UInt8.ofNat i, by simp only [Table.entry, reached]⟩

theorem stored_setEntry (t : Table) (b : UInt8) (set : TagSet) :
    (t.setEntry b set).stored =
        { t.stored with entries := t.stored.entries.set b.toNat set.atoms } := by
  rw [stored, Table.setEntry, Vector.toList_set, List.map_set]
  rfl

theorem insert?_stored (t : Table) (b : UInt8) (a : AtomId) :
    t.stored.insert? b a = some (t.setEntry b ((t.entry b).insert a)).stored := by
  rw [insert?, atomsAt?_stored, stored_setEntry, TagSet.atoms_insert]
  by_cases present : a ∈ (t.entry b).atoms
  · rw [if_pos present, ← stored_setEntry, Table.setEntry_entry]
    exact congrArg some (if_pos present)
  · rw [if_neg present]
    exact congrArg some (if_neg present)

/-- Where each step has a result on the stored form of every table, so have all steps in turn. -/
theorem foldlM_stored {α : Type} {step? : Stored → α → Option Stored} {step : Table → α → Table}
    {items : List α}
    (each : ∀ item ∈ items, ∀ t : Table, step? t.stored item = some (step t item).stored)
    (t : Table) : items.foldlM step? t.stored = some (items.foldl step t).stored := by
  induction items generalizing t with
  | nil => rfl
  | cons item items ih =>
    obtain ⟨here, later⟩ := List.forall_mem_cons.mp each
    rw [List.foldlM_cons, here t]
    exact ih later (step t item)

theorem insertTag?_stored (copies : m.Copies ds) {id : TagId} (known : ∃ tag, m.tag? id = some tag)
    (b : UInt8) (t : Table) :
    insertTag? m b id t.stored = some (Table.insertTag m b id t).stored := by
  induction id using m.descends.induction generalizing t with
  | _ id ih =>
    obtain ⟨tag, found⟩ := known
    rw [insertTag?_eq, Table.insertTag_eq, found]
    cases tag with
    | atomic a => exact insert?_stored t b a
    | composite parts =>
      apply foldlM_stored
      intro p listed u
      have part := Model.isPart_of_tag? found listed
      exact ih p part (copies.tag_of_isPart part) u

theorem insertOn?_stored (copies : m.Copies ds) {id : TagId} (known : ∃ tag, m.tag? id = some tag)
    (bytes : List UInt8) (t : Table) :
    insertOn? m id bytes t.stored = some (Table.insertOn m id bytes t).stored :=
  foldlM_stored (fun b _ u => insertTag?_stored copies known b u) t

/-- A step on the stored form of a table has a result, the stored form of what the edit leaves. -/
theorem edit?_stored (copies : m.Copies ds) (t : Table) (e : Table.Edit) :
    edit? m t.stored e = some (Table.edit m t e).2.stored := by
  rw [edit?, Table.edit_eq]
  cases taken : e.toRule.target m with
  | error fault => rfl
  | ok target =>
    have known := (Rule.mem_target taken).1
    exact insertOn?_stored copies (copies.tag_of_lookup (Model.tagId_eq_ok_iff.mp known)) target.2 t

/-- Any edits on what is stored stay within bounds and store the edited table. -/
theorem run?_stored (copies : m.Copies ds) (t : Table) (edits : List Table.Edit) :
    run? m t.stored edits = some (Table.run m t edits).stored :=
  foldlM_stored (fun e _ u => edit?_stored copies u e) t

theorem length_entries (t : Table) : t.stored.entries.length = 256 := by
  simp [stored]

/-- What a legible table stores is regular. -/
theorem regular_stored (legible : t.Legible)
    (same : t.symbols = m.symbols) : t.stored.Regular m := by
  have held (b : UInt8) (a : AtomId) (member : a ∈ (t.entry b).atoms) :
      ∃ symbol, t.stored.symbol? a = some symbol := by
    rw [symbol?_stored]
    exact legible.named b a member
  have apart (b : UInt8) : ((t.entry b).atoms.map t.stored.symbol?).Nodup := by
    apply (t.entry b).distinct.map_on
    intro a first c second equal
    obtain ⟨symbol, found⟩ := legible.named b a first
    rw [symbol?_stored, symbol?_stored] at equal
    exact Table.symbol?_injective legible.distinct found (equal.symm.trans found)
  refine ⟨length_entries t, congrArg Array.toList same, ?_, ?_, ?_, ?_⟩
  · intro atoms listed
    obtain ⟨b, rfl⟩ := entry_of_mem listed
    exact (t.entry b).distinct
  · intro atoms listed a member
    obtain ⟨b, rfl⟩ := entry_of_mem listed
    obtain ⟨symbol, found⟩ := held b a member
    exact (List.getElem?_eq_some_iff.mp found).1
  · intro atoms listed
    obtain ⟨b, rfl⟩ := entry_of_mem listed
    exact apart b
  · intro atoms listed
    obtain ⟨b, rfl⟩ := entry_of_mem listed
    have within : (t.entry b).atoms.map t.stored.symbol? ⊆ m.symbols.toList.map some := by
      intro found image
      obtain ⟨a, member, rfl⟩ := List.mem_map.mp image
      obtain ⟨symbol, found⟩ := held b a member
      rw [found, ← same]
      exact List.mem_map_of_mem (List.mem_of_getElem? found)
    simpa using ((apart b).subperm within).length_le

theorem sortedSymbols?_stored (legible : t.Legible) (b : UInt8) :
    t.stored.sortedSymbols? b = some (t.sortedSymbols b) := by
  have same : t.stored.symbol? = t.symbol? := funext (symbol?_stored t)
  rw [sortedSymbols?, atomsAt?_stored, same]
  change ((t.entry b).atoms.mapM t.symbol? >>= _) = _
  rw [Traverse.mapM_eq_some (legible.named b)]
  rfl

theorem anyM_symbol? {atoms : List AtomId}
    (named : ∀ a ∈ atoms, ∃ symbol, t.symbol? a = some symbol) (symbol : String) :
    (atoms.anyM fun a => (t.stored.symbol? a).map (· == symbol)) =
        some (atoms.any fun a => t.symbol? a == some symbol) := by
  induction atoms with
  | nil => rfl
  | cons a atoms ih =>
    obtain ⟨⟨other, found⟩, later⟩ := List.forall_mem_cons.mp named
    rw [List.anyM_cons, symbol?_stored, found, List.any_cons, found, ih later]
    cases same : other == symbol
    · simp [same]
    · simp [same]

theorem hasSymbol?_stored (legible : t.Legible) (b : UInt8) (symbol : String) :
    t.stored.hasSymbol? b symbol = some (t.hasSymbol b symbol) := by
  rw [hasSymbol?, atomsAt?_stored]
  exact anyM_symbol? (legible.named b) symbol

theorem line?_stored (legible : t.Legible) (b : UInt8) : t.stored.line? b = some (t.line b) := by
  rw [line?, sortedSymbols?_stored legible]
  rfl

theorem render?_stored (legible : t.Legible) : t.stored.render? = some t.render := by
  have each : (fun i => t.stored.line? (UInt8.ofNat i)) = fun i => some (t.line (UInt8.ofNat i)) :=
    funext fun i => line?_stored legible (UInt8.ofNat i)
  rw [render?, length_entries, each, Traverse.mapM_eq_some fun i _ => ⟨_, rfl⟩,
    Table.render, allBytes]
  simp [Function.comp_def]

theorem flagByte?_stored (legible : t.Legible) (e : Encoding) (b : UInt8) :
    t.stored.flagByte? e b = ExceptT.mk (some (Packed.flagByte t e b)) := by
  rw [flagByte?, sortedSymbols?_stored legible]
  rfl

theorem toList_bytes : (Vector.ofFn fun i : Fin 256 => UInt8.ofNat i.val).toList = allBytes := by
  apply List.ext_getElem
  · simp [allBytes]
  · intro i _ _
    rw [Vector.getElem_toList, Vector.getElem_ofFn]
    simp only [allBytes, List.getElem_map, List.getElem_range]

theorem pack?_stored (legible : t.Legible) (e : Encoding) :
    (t.stored.pack? e).run = some ((Packed.ofTable t e).map fun p => (p.mask, p.flags.toList)) := by
  have each : (fun i => t.stored.flagByte? e (UInt8.ofNat i)) =
      fun i => ExceptT.mk (some (Packed.flagByte t e (UInt8.ofNat i))) :=
    funext fun i => flagByte?_stored legible e (UInt8.ofNat i)
  have listed :=
    Traverse.toList_mapM (Packed.flagByte t e) (Vector.ofFn fun i : Fin 256 => UInt8.ofNat i.val)
  rw [toList_bytes, allBytes, List.mapM_map] at listed
  change _ = (List.range 256).mapM fun i => Packed.flagByte t e (UInt8.ofNat i) at listed
  rw [pack?, length_entries, each, ExceptT.run_bind, Traverse.run_mapM_some,
    Packed.ofTable, ← listed]
  cases (Vector.ofFn fun i : Fin 256 => UInt8.ofNat i.val).mapM (Packed.flagByte t e) <;> rfl

theorem shows_stored (legible : t.Legible) : t.stored.Shows t where
  entry := atomsAt?_stored t
  symbol b a member := by
    obtain ⟨symbol, found⟩ := legible.named b a member
    exact ⟨symbol, (symbol?_stored t a).trans found, found⟩
  sortedSymbols := sortedSymbols?_stored legible
  hasSymbol := hasSymbol?_stored legible
  line := line?_stored legible
  render := render?_stored legible
  pack := pack?_stored legible

end Stored

namespace Table

variable {m : Model} {ds : List Declaration}

/-- Whatever edits are made, failing ones among them, no position on the way is out of bounds; what
is stored stays regular, and every reading of it has a result, the one that the table gives. -/
theorem run_regular (accepted : Model.ofDeclarations ds = .ok m) (edits : List Edit) :
    ∃ s, Stored.run? m (.fresh m) edits = some s ∧ s.Regular m ∧
      s.Shows (run m (empty m) edits) := by
  have copies := copies_of_ofDeclarations accepted
  obtain ⟨rules, builds⟩ := exists_rules_run m (empty m) edits
  have built : ofRules m rules = .ok (run m (empty m) edits) := builds 0
  have legible := legible_ofRules copies built
  refine ⟨(run m (empty m) edits).stored, ?_, ?_, Stored.shows_stored legible⟩
  · rw [Stored.fresh_eq, Stored.run?_stored copies]
  · exact Stored.regular_stored legible (symbols_ofRules built)

theorem regular_mixedEdits :
    ∃ m s, Model.ofDeclarations wordTags = .ok m ∧ Stored.run? m (.fresh m) mixedEdits = some s ∧
      s.Regular m ∧ s.Shows (run m (empty m) mixedEdits) := by
  obtain ⟨m, _, accepted, _⟩ := exists_word
  obtain ⟨s, ran, regular, shows⟩ := run_regular accepted mixedEdits
  exact ⟨m, s, accepted, ran, regular, shows⟩

end Table
end CharTable
