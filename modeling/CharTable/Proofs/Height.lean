import CharTable.Proofs.Meaning
import CharTable.Proofs.Visits
import Mathlib.Data.List.MinMax
import Mathlib.Order.Nat

/-!
How far down the parts of a tag go. Expanding a tag and putting it on a byte both call themselves
for the parts of a composite and mark nothing on the way, so only the declarations can keep them
from going on for ever. Told again over bare tags, with a limit on the calls that are open at once,
they come back exactly if the limit is above the height of the tag; over accepted declarations no
tag is higher than there are composites.
-/
namespace CharTable
open Model (ofDeclarations)
open Relation (TransGen)

/-- Takes a step at each atom under a tag, part by part. A call beyond the limit, and one for an id
that is no tag, has no result. -/
def walkWithin {σ : Type} (tags : Array Tag) (step : AtomId → σ → σ) :
    (limit : Nat) → TagId → σ → Option σ
  | 0, _, _ => none
  | limit + 1, t, s =>
    match tags[t.toNat]? with
    | some (.atomic a) => some (step a s)
    | some (.composite parts) => parts.foldlM (fun s p => walkWithin tags step limit p s) s
    | none => none

def collect (a : AtomId) (found : List AtomId) : List AtomId :=
  if a ∈ found then found else found ++ [a]

def putOn (b : UInt8) (a : AtomId) (table : Table) : Table :=
  table.setEntry b ((table.entry b).insert a)

def expandWithin (tags : Array Tag) (limit : Nat) (t : TagId)
    (found : List AtomId) : Option (List AtomId) :=
  walkWithin tags collect limit t found

def insertWithin (tags : Array Tag) (limit : Nat) (b : UInt8) (t : TagId)
    (table : Table) : Option Table :=
  walkWithin tags (putOn b) limit t table

/-- Where a step has a result if its item fits, all steps in turn have one if every item does. -/
theorem foldlM_within {α σ : Type} {step? : σ → α → Option σ} {step : σ → α → σ} {fits : α → Prop}
    [DecidablePred fits] {items : List α}
    (each : ∀ item ∈ items, ∀ s, step? s item = if fits item then some (step s item) else none)
    (s : σ) :
    items.foldlM step? s = if ∀ item ∈ items, fits item then some (items.foldl step s)
        else none := by
  induction items generalizing s with
  | nil => simp
  | cons item items ih =>
    obtain ⟨here, later⟩ := List.forall_mem_cons.mp each
    rw [List.foldlM_cons, here s]
    by_cases fit : fits item
    · rw [if_pos fit]
      simpa [fit] using ih later (step s item)
    · simp [fit]

namespace Model

variable {m : Model} {ds : List Declaration} {t : TagId}

/-- The number of composites on the longest way down from a tag. -/
def height (m : Model) (t : TagId) : Nat :=
  ((partsOf m.tags t).attach.map fun p => m.height p.1 + 1).foldr max 0
termination_by (⟨t⟩ : m.Node)
decreasing_by exact p.2

theorem height_le_iff {n : Nat} : m.height t ≤ n ↔ ∀ p ∈ partsOf m.tags t, m.height p < n := by
  rw [height]
  constructor
  · intro bound p part
    have listed : m.height p + 1 ∈ (partsOf m.tags t).attach.map fun p => m.height p.1 + 1 :=
      List.mem_map.mpr ⟨⟨p, part⟩, List.mem_attach _ _, rfl⟩
    exact Nat.lt_of_succ_le ((List.le_max_of_le listed (Nat.le_refl _)).trans bound)
  · intro lower
    apply List.max_le_of_forall_le
    intro h listed
    obtain ⟨p, _, rfl⟩ := List.mem_map.mp listed
    exact Nat.succ_le_of_lt (lower p.1 p.2)

/-- A part is lower than what it is a part of. -/
theorem height_lt_of_isPart {p : TagId} (part : IsPart m.tags p t) : m.height p < m.height t :=
  height_le_iff.mp (Nat.le_refl _) p part

structure Recursion (m : Model) {σ : Type} (step : AtomId → σ → σ) (go : TagId → σ → σ) : Prop where
  atomic : ∀ t a s, m.tag? t = some (.atomic a) → go t s = step a s
  composite : ∀ t parts s, m.tag? t = some (.composite parts) →
    go t s = parts.foldl (fun s p => go p s) s

theorem recursion_expandInto (m : Model) : m.Recursion collect m.expandInto where
  atomic t a found here := by rw [expandInto_eq, here, collect]
  composite t parts found here := by rw [expandInto_eq, here]

theorem recursion_insertTag (m : Model) (b : UInt8) :
    m.Recursion (putOn b) (Table.insertTag m b) where
  atomic t a table here := by rw [Table.insertTag_eq, here, putOn]
  composite t parts table here := by rw [Table.insertTag_eq, here]

/-- A limited walk does what the recursion does if the limit is above the height of the tag, and
else has no result. -/
theorem Recursion.walkWithin_eq {σ : Type} {step : AtomId → σ → σ} {go : TagId → σ → σ}
    (recursion : m.Recursion step go) (complete : ∀ p t, IsPart m.tags p t → p.toNat < m.tags.size)
    (inside : t.toNat < m.tags.size) (limit : Nat) (s : σ) :
    walkWithin m.tags step limit t s = if m.height t < limit then some (go t s) else none := by
  induction limit generalizing t s with
  | zero => simp [walkWithin]
  | succ limit ih =>
    have fits : m.height t < limit + 1 ↔ ∀ p ∈ partsOf m.tags t, m.height p < limit :=
      Nat.lt_succ_iff.trans height_le_iff
    obtain ⟨tag, found⟩ : ∃ tag, m.tags[t.toNat]? = some tag :=
      ⟨_, Array.getElem?_eq_getElem inside⟩
    have own : partsOf m.tags t = tag.parts := by simp [partsOf, found]
    rw [walkWithin, found]
    simp only [fits, own]
    cases tag with
    | atomic a => simp [Tag.parts, recursion.atomic t a s found]
    | composite parts =>
      rw [recursion.composite t parts s found]
      apply foldlM_within
      intro p listed s
      exact ih (complete p t (isPart_of_tag? found listed)) s

/-- What descends from one tag to the next meets no tag twice. -/
theorem nodup_of_isChain {path : List TagId}
    (linked : path.IsChain (IsPart m.tags)) : path.Nodup := by
  have descents : path.Pairwise (TransGen (IsPart m.tags)) :=
    List.isChain_iff_pairwise.mp (linked.imp fun _ _ part => .single part)
  refine descents.imp fun {p t} below same => ?_
  subst same
  exact m.descends.transGen.irrefl.irrefl p below

/-- Under a path of composites a tag is no higher than there are other composites. -/
theorem Copies.height_lt (copies : m.Copies ds) {path : List TagId}
    (linked : (t :: path).IsChain (IsPart m.tags)) {n : Nat}
    (room : Cycle.compositeCount ds < n + path.length) : m.height t < n := by
  induction n generalizing t path with
  | zero =>
    have few := Cycle.length_path_le copies.toCopy (nodup_of_isChain linked).of_cons linked
    omega
  | succ n ih =>
    apply Nat.lt_succ_of_le
    rw [height_le_iff]
    intro p part
    apply ih (List.IsChain.cons_cons part linked)
    rw [List.length_cons]
    omega

end Model

/-- Over accepted declarations the tags have ranks: the parts of a composite are tags of a lower
rank, and no rank is above the number of composites. Without any mark on the way, expanding a tag
from whatever atoms were found and putting it on any byte of any table end, with no more calls open
at once than its rank and one, and follow no id but of tags. -/
theorem expansion_ends {ds : List Declaration} {m : Model} (accepted : ofDeclarations ds = .ok m) :
    ∃ rank : TagId → Nat,
      (∀ t parts, m.tag? t = some (.composite parts) →
        ∀ p ∈ parts, p.toNat < m.tags.size ∧ rank p < rank t) ∧
      ∀ t, t.toNat < m.tags.size →
        rank t < Cycle.compositeCount ds + 1 ∧
          (∀ limit found, expandWithin m.tags limit t found =
            if rank t < limit then some (m.expandInto t found) else none) ∧
          ∀ limit b table, insertWithin m.tags limit b t table =
            if rank t < limit then some (Table.insertTag m b t table) else none := by
  have copies := copies_of_ofDeclarations accepted
  refine ⟨m.height, fun t parts found p listed => ?_, fun t inside => ⟨?_, ?_, ?_⟩⟩
  · have part : IsPart m.tags p t := Model.isPart_of_tag? found listed
    exact ⟨copies.complete p t part, Model.height_lt_of_isPart part⟩
  · exact copies.height_lt (.singleton t) (Nat.lt_succ_self _)
  · exact m.recursion_expandInto.walkWithin_eq copies.complete inside
  · intro limit b
    exact (m.recursion_insertTag b).walkWithin_eq copies.complete inside limit

/-- A composite over another, over atoms: a call for each of the two composites and one for an atom
are open at once. -/
theorem expansion_ends_word :
    ∃ m t, ofDeclarations Table.wordTags = .ok m ∧ m.tagId "WORD" = .ok t ∧
      (∀ found, expandWithin m.tags 2 t found = none) ∧
      (∀ found, expandWithin m.tags 3 t found = some (m.expandInto t found)) ∧
      ∀ b table, insertWithin m.tags 3 b t table = some (Table.insertTag m b t table) := by
  obtain ⟨m, _, accepted, _⟩ := Table.exists_word
  have copies := copies_of_ofDeclarations accepted
  obtain ⟨rank, lower, ends⟩ := expansion_ends accepted
  have descends {p t : TagId} (part : IsPart m.tags p t) : rank p < rank t := by
    obtain ⟨parts, found, listed⟩ := isPart_iff.mp part
    exact (lower t parts found p listed).2
  have outer : PartOf Table.wordTags "ALNUM" "WORD" := ⟨["ALNUM", "LOW_LINE"], by decide, by decide⟩
  have nested : PartOf Table.wordTags "LETTER" "ALNUM" :=
    ⟨["LETTER", "DIGIT"], by decide, by decide⟩
  obtain ⟨word, known⟩ :=
    copies.numbers.lookup_of_mem (show Declared Table.wordTags "WORD" by decide)
  obtain ⟨alnum, inner, part⟩ := copies.isPart_of_partOf outer known
  obtain ⟨letter, _, leaf⟩ := copies.isPart_of_partOf nested inner
  have high : 2 ≤ rank word := by
    have first := descends part
    have second := descends leaf
    omega
  obtain ⟨tag, found⟩ := copies.tag_of_lookup known
  obtain ⟨bound, expands, inserts⟩ := ends word (Array.getElem?_eq_some_iff.mp found).1
  have low : rank word < 3 := bound
  refine ⟨m, word, accepted, Model.tagId_eq_ok_iff.mpr known, fun found => ?_, fun found => ?_,
    fun b table => ?_⟩
  · rw [expands, if_neg (Nat.not_lt.mpr high)]
  · rw [expands, if_pos low]
  · rw [inserts, if_pos low]

end CharTable
