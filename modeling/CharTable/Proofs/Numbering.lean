import CharTable.Model
import Mathlib.Data.List.Induction
import Mathlib.Data.List.Nodup

/-!
Keys are numbered by position: names by the declarations that have them, symbols by first
appearance. The numbering of a list of names exists when they are distinct and fit the ids;
otherwise the first repeated name, or else the length, is the fault.
-/
namespace CharTable
open Model (maxTags indexNames)

/-- The index sends each key to its position, which some id can express, and knows no other key. -/
structure Positions {Id : Type} (toNat : Id → Nat) (keys : List String)
    (index : Std.TreeMap String Id) : Prop where
  reached : ∀ i < keys.length, ∃ id, toNat id = i
  position : ∀ key id, index[key]? = some id ↔ keys[toNat id]? = some key

namespace Positions

variable {Id : Type} {toNat : Id → Nat} {keys : List String}
    {index : Std.TreeMap String Id} {key : String}

theorem empty : Positions toNat [] ∅ := ⟨by simp, by simp⟩

theorem lookup_of_getElem? (positions : Positions toNat keys index) {i : Nat}
    (here : keys[i]? = some key) : ∃ id, toNat id = i ∧ index[key]? = some id := by
  obtain ⟨id, rfl⟩ := positions.reached i (List.getElem?_eq_some_iff.mp here).1
  exact ⟨id, rfl, (positions.position key id).mpr here⟩

theorem lookup_of_mem (positions : Positions toNat keys index) (member : key ∈ keys) :
    ∃ id, index[key]? = some id := by
  obtain ⟨i, here⟩ := List.getElem?_of_mem member
  obtain ⟨id, _, found⟩ := positions.lookup_of_getElem? here
  exact ⟨id, found⟩

theorem mem_of_lookup (positions : Positions toNat keys index) {id : Id}
    (found : index[key]? = some id) : key ∈ keys :=
  List.mem_of_getElem? ((positions.position key id).mp found)

theorem lookup_eq_none_iff (positions : Positions toNat keys index) :
    index[key]? = none ↔ key ∉ keys := by
  constructor
  · intro missing member
    obtain ⟨id, found⟩ := positions.lookup_of_mem member
    rw [missing] at found
    cases found
  · intro absent
    cases found : index[key]? with
    | none => rfl
    | some id => exact absurd (positions.mem_of_lookup found) absent

theorem contains_iff (positions : Positions toNat keys index) :
    index.contains key = true ↔ key ∈ keys := by
  rw [Std.TreeMap.contains_eq_isSome_getElem?, Option.isSome_iff_exists]
  constructor
  · intro known
    obtain ⟨id, found⟩ := known
    exact positions.mem_of_lookup found
  · exact positions.lookup_of_mem

theorem eq_of_getElem? (positions : Positions toNat keys index) {i j : Nat}
    (first : keys[i]? = some key) (second : keys[j]? = some key) : i = j := by
  obtain ⟨a, rfl, left⟩ := positions.lookup_of_getElem? first
  obtain ⟨b, rfl, right⟩ := positions.lookup_of_getElem? second
  rw [Option.some.inj (left.symm.trans right)]

theorem nodup (positions : Positions toNat keys index) : keys.Nodup := by
  rw [List.nodup_iff_getElem?_ne_getElem?]
  intro i j less inside same
  have here : keys[j]? = some keys[j] := List.getElem?_eq_getElem inside
  exact Nat.ne_of_lt less (positions.eq_of_getElem? (same.trans here) here)

theorem snoc (positions : Positions toNat keys index) (injective : Function.Injective toNat)
    {last : Id} (next : toNat last = keys.length) (fresh : key ∉ keys) :
    Positions toNat (keys ++ [key]) (index.insert key last) := by
  constructor
  · intro i inside
    rw [List.length_append, List.length_singleton] at inside
    rcases Nat.lt_succ_iff_lt_or_eq.mp inside with before | rfl
    · exact positions.reached i before
    · exact ⟨last, next⟩
  intro other id
  rw [Std.TreeMap.getElem?_insert]
  by_cases same : key = other
  · subst same
    simp only [Std.ReflCmp.compare_self, if_true, Option.some.injEq]
    constructor
    · intro reached
      subst reached
      simp [next]
    · intro here
      rcases Nat.lt_trichotomy (toNat id) keys.length with inside | equal | outside
      · rw [List.getElem?_append_left inside] at here
        exact absurd (List.mem_of_getElem? here) fresh
      · exact injective (next.trans equal.symm)
      · simp [show ¬ toNat id < keys.length + 1 by omega] at here
  · have apart : compare key other ≠ .eq := fun equal => same (Std.LawfulEqCmp.eq_of_compare equal)
    rw [if_neg apart, positions.position]
    rcases Nat.lt_trichotomy (toNat id) keys.length with inside | equal | outside
    · rw [List.getElem?_append_left inside]
    · simp [equal, same]
    · simp [show ¬ toNat id < keys.length by omega, show ¬ toNat id < keys.length + 1 by omega]

end Positions

def Declared (ds : List Declaration) (name : String) : Prop := name ∈ ds.map Declaration.name

instance (ds : List Declaration) (name : String) : Decidable (Declared ds name) :=
  inferInstanceAs (Decidable (name ∈ ds.map Declaration.name))

abbrev Numbers (ds : List Declaration) (index : Std.TreeMap String TagId) : Prop :=
  Positions TagId.toNat (ds.map Declaration.name) index

def FirstRepeat (ds : List Declaration) (name : String) : Prop :=
  ∃ earlier d later, ds = earlier ++ d :: later ∧ earlier.length < maxTags ∧
    (earlier.map Declaration.name).Nodup ∧ Declared earlier d.name ∧ name = d.name

def Repeats (ds : List Declaration) : Prop :=
  ∃ earlier d later, ds = earlier ++ d :: later ∧ earlier.length < maxTags ∧ Declared earlier d.name

/-- Names that are not all distinct have a first one that stood before. -/
theorem nodup_or_firstRepeat (ds : List Declaration) (small : ds.length ≤ maxTags) :
    (ds.map Declaration.name).Nodup ∨ ∃ name, FirstRepeat ds name := by
  induction ds using List.reverseRecOn with
  | nil => exact Or.inl List.nodup_nil
  | append_singleton earlier d ih =>
    rw [List.length_append, List.length_singleton] at small
    rcases ih (by omega) with distinct | ⟨name, before, e, after, rfl, rest⟩
    · by_cases met : Declared earlier d.name
      · exact Or.inr ⟨d.name, earlier, d, [], rfl, by omega, distinct, met, rfl⟩
      · refine Or.inl ?_
        rw [List.map_append, List.nodup_append']
        exact ⟨distinct, by simp, by simpa [Declared] using met⟩
    · exact Or.inr ⟨name, before, e, after ++ [d], by simp, rest⟩

theorem FirstRepeat.of_take {ds : List Declaration} {name : String} {n : Nat}
    (first : FirstRepeat (ds.take n) name) : FirstRepeat ds name := by
  obtain ⟨earlier, d, later, split, rest⟩ := first
  refine ⟨earlier, d, later ++ ds.drop n, ?_, rest⟩
  calc
    ds = ds.take n ++ ds.drop n := (List.take_append_drop n ds).symm
    _ = earlier ++ d :: (later ++ ds.drop n) := by rw [split]; simp

theorem FirstRepeat.repeats {ds : List Declaration} {name : String}
    (first : FirstRepeat ds name) : Repeats ds := by
  obtain ⟨earlier, d, later, split, inside, _, met, _⟩ := first
  exact ⟨earlier, d, later, split, inside, met⟩

theorem distinct_of_not_repeats {ds : List Declaration} (none : ¬ Repeats ds) :
    ((ds.take maxTags).map Declaration.name).Nodup := by
  rcases nodup_or_firstRepeat (ds.take maxTags) (List.length_take_le _ _)
    with distinct | ⟨name, first⟩
  · exact distinct
  · exact absurd first.of_take.repeats none

theorem Repeats.first {ds : List Declaration} (repeated : Repeats ds) :
    ∃ name, FirstRepeat ds name := by
  rcases nodup_or_firstRepeat (ds.take maxTags) (List.length_take_le _ _)
    with distinct | ⟨name, first⟩
  · obtain ⟨earlier, d, later, rfl, inside, met⟩ := repeated
    have reached : earlier ++ [d] <+: (earlier ++ d :: later).take maxTags := by
      rw [List.prefix_take_iff]
      exact ⟨⟨later, by simp⟩, by simpa using Nat.succ_le_of_lt inside⟩
    have once := (reached.sublist.map Declaration.name).nodup distinct
    rw [List.map_append, List.nodup_append'] at once
    exact absurd met (once.2.2 · (by simp))
  · exact ⟨name, first.of_take⟩

theorem not_repeats_iff {ds : List Declaration} (small : ds.length ≤ maxTags) :
    ¬ Repeats ds ↔ (ds.map Declaration.name).Nodup := by
  constructor
  · intro none
    simpa [List.take_of_length_le small] using distinct_of_not_repeats none
  · intro distinct repeated
    obtain ⟨earlier, d, later, rfl, _, met⟩ := repeated
    rw [List.map_append, List.nodup_append'] at distinct
    exact distinct.2.2 met (by simp)

namespace Numbers

variable {ds : List Declaration} {index : Std.TreeMap String TagId}

theorem getElem?_of_lookup (numbers : Numbers ds index) {name : String} {t : TagId}
    (found : index[name]? = some t) : ∃ d, ds[t.toNat]? = some d ∧ d.name = name := by
  have here := (numbers.position name t).mp found
  rw [List.getElem?_map] at here
  exact Option.map_eq_some_iff.mp here

theorem lookup_of_getElem? (numbers : Numbers ds index) {d : Declaration} {t : TagId}
    (here : ds[t.toNat]? = some d) : index[d.name]? = some t := by
  rw [numbers.position, List.getElem?_map, here]
  rfl

theorem getElem?_of_mem (numbers : Numbers ds index) {d : Declaration} {t : TagId} (member : d ∈ ds)
    (found : index[d.name]? = some t) : ds[t.toNat]? = some d := by
  obtain ⟨i, here⟩ := List.getElem?_of_mem member
  have named : (ds.map Declaration.name)[i]? = some d.name := by
    rw [List.getElem?_map, here]
    rfl
  rw [numbers.eq_of_getElem? ((numbers.position d.name t).mp found) named, here]

theorem snoc {d : Declaration} (numbers : Numbers ds index) (room : ds.length < maxTags)
    (fresh : ¬ Declared ds d.name) :
    Numbers (ds ++ [d]) (index.insert d.name (.ofNat ds.length)) := by
  rw [Numbers, List.map_append]
  refine Positions.snoc numbers (fun _ _ => TagId.toNat_inj) ?_ fresh
  rw [List.length_map]
  exact TagId.toNat_ofNat room

end Numbers

/-- Fresh names that fit are numbered one after the other, whatever follows them. -/
theorem indexNames_append (total : Nat) (seen fresh rest : List Declaration)
    (index : Std.TreeMap String TagId) (numbers : Numbers seen index)
    (distinct : ((seen ++ fresh).map Declaration.name).Nodup)
    (small : (seen ++ fresh).length ≤ maxTags) :
    ∃ after, Numbers (seen ++ fresh) after ∧
      indexNames total (fresh ++ rest) seen.length index =
          indexNames total rest (seen ++ fresh).length after := by
  induction fresh generalizing seen index with
  | nil =>
    rw [List.append_nil]
    exact ⟨index, numbers, rfl⟩
  | cons d fresh ih =>
    have regroup : seen ++ d :: fresh = seen ++ [d] ++ fresh := by simp
    have room : seen.length < maxTags := by
      rw [List.length_append, List.length_cons] at small
      omega
    have absent : ¬ Declared seen d.name := by
      rw [List.map_append, List.nodup_append'] at distinct
      exact fun met => distinct.2.2 met (by simp)
    rw [regroup] at distinct small ⊢
    obtain ⟨after, numbered, runs⟩ := ih (seen ++ [d]) _ (numbers.snoc room absent) distinct small
    refine ⟨after, numbered, ?_⟩
    have unknown : ¬ index.contains d.name = true := mt numbers.contains_iff.mp absent
    rw [List.cons_append, indexNames, if_neg (Nat.not_le_of_lt room), if_neg unknown, ← runs]
    simp

theorem indexNames_of_nodup (total : Nat) {ds : List Declaration}
    (distinct : (ds.map Declaration.name).Nodup) (small : ds.length ≤ maxTags) :
    ∃ index, Numbers ds index ∧ indexNames total ds 0 ∅ = .ok index := by
  obtain ⟨index, numbers, runs⟩ := indexNames_append total [] ds [] ∅ .empty distinct small
  refine ⟨index, numbers, ?_⟩
  simpa [indexNames] using runs

theorem indexNames_of_firstRepeat (total : Nat) {ds : List Declaration} {name : String}
    (first : FirstRepeat ds name) : indexNames total ds 0 ∅ = .error (.duplicateTag name) := by
  obtain ⟨earlier, d, later, rfl, inside, distinct, met, rfl⟩ := first
  obtain ⟨index, numbers, runs⟩ :=
    indexNames_append total [] earlier (d :: later) ∅ .empty distinct (Nat.le_of_lt inside)
  have known : index.contains d.name = true := numbers.contains_iff.mpr met
  rw [List.nil_append] at runs
  rw [show (0 : Nat) = ([] : List Declaration).length from rfl, runs, indexNames,
    if_neg (Nat.not_le_of_lt inside), if_pos known]

/-- Names beyond the ids are refused only if no name is repeated among those that have ids. -/
theorem indexNames_of_overfull (total : Nat) {ds : List Declaration}
    (distinct : ((ds.take maxTags).map Declaration.name).Nodup) (large : maxTags < ds.length) :
    indexNames total ds 0 ∅ = .error (.tooManyTags total) := by
  obtain ⟨d, later, left⟩ := List.exists_cons_of_ne_nil (List.ne_nil_of_length_pos
    (show 0 < (ds.drop maxTags).length by rw [List.length_drop]; omega))
  obtain ⟨index, _, runs⟩ :=
    indexNames_append total [] (ds.take maxTags) (d :: later) ∅ .empty distinct
      (List.length_take_le _ _)
  have full : ([] ++ ds.take maxTags).length = maxTags := by
    rw [List.nil_append, List.length_take]
    omega
  rw [← left, List.take_append_drop, full, left, indexNames, if_pos (Nat.le_refl _)] at runs
  exact runs

end CharTable
