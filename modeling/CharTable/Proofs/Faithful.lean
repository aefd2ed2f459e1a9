import CharTable.Proofs.Expansion
import CharTable.Proofs.Faults
import Std.Data.String.ToNat

/-!
A model as a copy of its declarations. Each tag stands at the position of its declaration and says
by ids what that written by names, the symbols are the declared ones, and no position is too large
for the word that holds it.
-/
namespace CharTable
open Model (maxTags ofDeclarations resolveTags)

/-- The tag at a position has the name of the declaration and says by ids what the declaration says
by names. -/
structure Model.Mirrors (m : Model) (i : Nat) (d : Declaration) : Prop where
  numbered : m.tagId d.name = .ok (.ofNat i)
  whole : (TagId.ofNat i).toNat = i
  named : m.name? (.ofNat i) = some d.name
  atomic : ∀ symbol, d.body = .atomic symbol → ∃ a, m.tag? (.ofNat i) = some (.atomic a) ∧
    m.symbol? a = some symbol
  composite : ∀ parts, d.body = .composite parts →
    ∃ ids, m.tag? (.ofNat i) = some (.composite ids) ∧ ids.map m.name? = parts.map some

theorem resolveTags_split {index : Std.TreeMap String TagId} {before rest : List Declaration}
    {tags : Array Tag} {symbols : Model.Symbols} {result : Array Tag × Model.Symbols}
    (ok : resolveTags index (before ++ rest) tags symbols = .ok result) :
    ∃ middle, resolveTags index before tags symbols = .ok middle := by
  induction before generalizing tags symbols with
  | nil => exact ⟨_, rfl⟩
  | cons d before ih =>
    rw [List.cons_append, resolveTags] at ok
    rw [resolveTags]
    cases resolved : Model.resolveTag index symbols d with
    | error fault =>
      rw [resolved] at ok
      cases ok
    | ok next =>
      rw [resolved] at ok
      exact ih ok

namespace Model.Copies

variable {m : Model} {ds : List Declaration}

theorem toNat_ofNat (copies : m.Copies ds) {i : Nat}
    (inside : i < ds.length) : (TagId.ofNat i).toNat = i :=
  TagId.toNat_ofNat (Nat.lt_of_lt_of_le inside copies.small)

theorem names_of_parts (copies : m.Copies ds) {parts : List String} {ids : List TagId}
    (each : List.Forall₂ (fun part id => m.index[part]? = some id) parts ids) :
    ids.map m.name? = parts.map some := by
  induction each with
  | nil => rfl
  | cons known _ ih => rw [List.map_cons, List.map_cons, ih, copies.name?_of_lookup known]

/-- Each position of a model says what the declaration there says. -/
theorem mirrors (copies : m.Copies ds) {i : Nat} {d : Declaration}
    (here : ds[i]? = some d) : m.Mirrors i d := by
  have whole : (TagId.ofNat i).toNat = i := copies.toNat_ofNat (List.getElem?_eq_some_iff.mp here).1
  have known : m.index[d.name]? = some (.ofNat i) :=
    copies.numbers.lookup_of_getElem? (by rwa [whole])
  obtain ⟨tag, there, resolves⟩ := copies.tag_of_getElem? here
  have found : m.tag? (.ofNat i) = some tag := by rwa [tag?, whole]
  refine ⟨tagId_eq_ok_iff.mpr known, whole, copies.name?_of_lookup known, ?_, ?_⟩
  · intro symbol written
    cases resolves with
    | @atomic _ _ a held =>
      cases written
      exact ⟨a, found, by simpa [symbol?] using held⟩
    | composite => cases written
  · intro parts written
    cases resolves with
    | atomic => cases written
    | @composite _ _ ids _ each =>
      cases written
      exact ⟨ids, found, copies.names_of_parts each⟩

theorem atom_inside (copies : m.Copies ds) {t : TagId} {a : AtomId}
    (found : m.tag? t = some (.atomic a)) : a.toNat < m.symbols.size := by
  obtain ⟨d, _, resolves⟩ := copies.getElem?_of_tag found
  cases resolves with
  | atomic held => simpa using (List.getElem?_eq_some_iff.mp held).1

theorem part_inside (copies : m.Copies ds) {t p : TagId} {ids : List TagId}
    (found : m.tag? t = some (.composite ids)) (listed : p ∈ ids) : p.toNat < ds.length := by
  obtain ⟨tag, here⟩ := copies.tag_of_isPart (isPart_of_tag? found listed)
  obtain ⟨d, there, _⟩ := copies.getElem?_of_tag here
  exact (List.getElem?_eq_some_iff.mp there).1

end Model.Copies

theorem Model.Mirrors.symbol_of_tag {m : Model} {i : Nat} {name symbol : String} {a : AtomId}
    (mirrors : m.Mirrors i (.atomic name symbol)) (found : m.tag? (.ofNat i) = some (.atomic a)) :
    m.symbol? a = some symbol := by
  obtain ⟨b, other, shown⟩ := mirrors.atomic symbol rfl
  cases found.symm.trans other
  exact shown

/-- A built model is its declarations over again: position by position the same names, symbols and
parts, with one atom for each symbol, the symbols in the order of their first declaration, and no
name that was not declared. Whatever declaration the build comes to, the number of those before it
and of their symbols is not cut off by the words of ids. -/
theorem ofDeclarations_faithful {ds : List Declaration} {m : Model}
    (accepted : ofDeclarations ds = .ok m) :
    (m.names.size = ds.length ∧ m.tags.size = ds.length ∧ ds.length ≤ 65536) ∧
      (∀ (i : Nat) (d : Declaration), ds[i]? = some d → m.Mirrors i d) ∧
      (∀ (i j : Nat) first second s t a b, ds[i]? = some (.atomic first s) →
        ds[j]? = some (.atomic second t) → m.tag? (.ofNat i) = some (.atomic a) →
        m.tag? (.ofNat j) = some (.atomic b) → (a = b ↔ s = t)) ∧
      m.symbols.toList = (declaredSymbols ds).eraseDups ∧
      (∀ t a, m.tag? t = some (.atomic a) → a.toNat < m.symbols.size) ∧
      (∀ t ids, m.tag? t = some (.composite ids) → ∀ p ∈ ids, p.toNat < ds.length) ∧
      (∀ before d after, ds = before ++ d :: after →
        ∃ tags symbols, resolveTags m.index before #[] .empty = .ok (tags, symbols) ∧
          symbols.list.toList = (declaredSymbols before).eraseDups ∧
          (TagId.ofNat before.length).toNat = before.length ∧
          (AtomId.ofNat symbols.list.size).toNat = symbols.list.size) ∧
      ∀ name, ¬ Declared ds name → m.tagId name = .error (.unknownTag name) := by
  have copies := copies_of_ofDeclarations accepted
  refine ⟨⟨?_, ?_, copies.small⟩, fun i d => copies.mirrors, ?_, symbols_ofDeclarations accepted,
    fun t a => copies.atom_inside, fun t ids found p => copies.part_inside found, ?_,
    fun name => copies.tagId_of_not_declared⟩
  · simp [copies.names]
  · simpa using copies.resolves.length_eq.symm
  · intro i j first second s t a b here there left right
    have shown := (copies.mirrors here).symbol_of_tag left
    have other := (copies.mirrors there).symbol_of_tag right
    constructor
    · intro same
      rw [same] at shown
      exact Option.some.inj (shown.symm.trans other)
    · intro same
      rw [← same] at other
      exact copies.symbol?_injective shown other
  · intro before d after split
    obtain ⟨_, resolved, _⟩ := resolved_of_ofDeclarations accepted
    rw [split] at resolved
    obtain ⟨⟨tags, symbols⟩, early⟩ := resolveTags_split resolved
    have room : before.length < maxTags := by
      have small := copies.small
      rw [split, List.length_append, List.length_cons] at small
      omega
    have listed : Listed before symbols := listed_nil.resolveTags (Nat.le_of_lt room) early
    exact ⟨tags, symbols, early, listed.order, TagId.toNat_ofNat room,
      AtomId.toNat_ofNat (Nat.lt_of_le_of_lt listed.size_le room)⟩

def crowd (n : Nat) : List Declaration :=
  .composite n.repr ((List.range n).map Nat.repr) :: (List.range n).map fun i =>
    .atomic i.repr i.repr

theorem names_crowd (n : Nat) :
    (crowd n).map Declaration.name = (n :: List.range n).map Nat.repr := by
  simp [crowd, Function.comp_def]

theorem length_crowd (n : Nat) : (crowd n).length = n + 1 := by
  simp [crowd]

theorem getElem?_crowd {n i : Nat} (less : i < n) :
    (crowd n)[i + 1]? = some (.atomic i.repr i.repr) := by
  simp [crowd, less]

theorem declared_crowd_iff {n i : Nat} : Declared (crowd n) i.repr ↔ i ≤ n := by
  rw [Declared, names_crowd, List.mem_map_of_injective fun _ _ => Nat.repr_inj.mp,
    List.mem_cons, List.mem_range]
  omega

theorem wellFormed_crowd {n : Nat} (some : 0 < n) (room : n < maxTags) : WellFormed (crowd n) := by
  apply WellFormed.of_ranked fun name => if name = n.repr then 1 else 0
  · rw [names_crowd]
    exact (List.nodup_cons.mpr ⟨by simp, List.nodup_range⟩).map fun _ _ => Nat.repr_inj.mp
  · rw [length_crowd]
    exact room
  · intro d member
    rcases List.mem_cons.mp member with rfl | listed
    · rw [Declaration.ranked_composite]
      refine ⟨by simp [Nat.ne_of_gt some], fun part inside => ?_⟩
      obtain ⟨i, below, rfl⟩ := List.mem_map.mp inside
      have less : i < n := List.mem_range.mp below
      have apart : i.repr ≠ n.repr := fun same => Nat.ne_of_lt less (Nat.repr_inj.mp same)
      exact ⟨declared_crowd_iff.mpr (Nat.le_of_lt less), by simp [apart]⟩
    · obtain ⟨i, _, rfl⟩ := List.mem_map.mp listed
      exact Declaration.ranked_atomic

/-- As many declarations as there are ids: the last one has the last id. -/
theorem faithful_crowd :
    ∃ m, ofDeclarations (crowd 65535) = .ok m ∧ (crowd 65535).length = 65536 ∧
      m.tagId "65534" = .ok ⟨65535⟩ ∧ m.name? ⟨65535⟩ = some "65534" ∧
      m.tagId "65536" = .error (.unknownTag "65536") := by
  obtain ⟨m, _, accepted⟩ := (wellFormed_crowd (n := 65535) (by decide) (by decide)).ofDeclarations
  obtain ⟨_, mirrors, _, _, _, _, _, unknown⟩ := ofDeclarations_faithful accepted
  have mirrored := mirrors 65535 _ (getElem?_crowd (n := 65535) (i := 65534) (by decide))
  have texts : Nat.repr 65534 = "65534" ∧ Nat.repr 65536 = "65536" := by decide
  have absent : ¬ Declared (crowd 65535) (Nat.repr 65536) := by simp [declared_crowd_iff]
  rw [texts.2] at absent
  refine ⟨m, accepted, length_crowd 65535, ?_, ?_, unknown _ absent⟩
  · exact texts.1 ▸ mirrored.numbered
  · exact texts.1 ▸ mirrored.named

end CharTable
