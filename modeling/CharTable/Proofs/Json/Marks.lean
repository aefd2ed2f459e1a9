import CharTable.Json.Item
import CharTable.Proofs.Json.Grammar
import Mathlib.Data.List.Forall2
import Mathlib.Data.List.TakeWhile

/-!
Blanks and the marks between the parts of a text. A mark is found behind any number of blanks, so
each reader of a mark is described by the blanks and the mark that it takes off the front.
-/
namespace CharTable.Json
open Ascii

namespace Grammar

theorem forall_blanks {property : UInt8 → Prop} : (∀ b ∈ blanks, property b) ↔
    property (code ' ') ∧ property (code '\n') ∧ property (code '\t') ∧ property (code '\r') := by
  simp [blanks]

theorem blanks_nil : Blanks [] := by simp [Blanks]

theorem blanks_append {first second : List UInt8} :
    Blanks (first ++ second) ↔ Blanks first ∧ Blanks second := by
  simp [Blanks, or_imp, forall_and]

theorem Blanks.append {first second : List UInt8} (before : Blanks first) (after : Blanks second) :
    Blanks (first ++ second) := blanks_append.mpr ⟨before, after⟩

def comma (first : Bool) : List UInt8 := if first then [] else [code ',']

@[simp] theorem comma_true : comma true = [] := rfl

@[simp] theorem comma_false : comma false = [code ','] := rfl

/-- Items of which the first has no comma before it only if it is the first of all. -/
def joined (first : Bool) : List (List UInt8) → List UInt8
  | [] => []
  | item :: items => comma first ++ (item ++ joined false items)

@[simp] theorem joined_nil (first : Bool) : joined first [] = [] := rfl

@[simp] theorem joined_cons (first : Bool) (item : List UInt8) (items : List (List UInt8)) :
    joined first (item :: items) = comma first ++ (item ++ joined false items) := rfl

theorem separated_eq_joined (items : List (List UInt8)) : separated items = joined true items := by
  induction items with
  | nil => rfl
  | cons item items ih =>
    cases items with
    | nil => simp [separated]
    | cons next items =>
      rw [separated, List.intercalate_cons_cons, ← separated, ih]
      simp

theorem Padded.indent {kind : List UInt8 → Prop} {gap text : List UInt8} (blank : Blanks gap)
    (padded : Padded kind text) : Padded kind (gap ++ text) := by
  obtain ⟨before, inner, after, blankBefore, form, blankAfter, rfl⟩ := padded
  exact ⟨gap ++ before, inner, after, blank.append blankBefore, form, blankAfter, by simp⟩

theorem Padded.trailed {kind : List UInt8 → Prop} {text gap : List UInt8} (blank : Blanks gap)
    (padded : Padded kind text) : Padded kind (text ++ gap) := by
  obtain ⟨before, inner, after, blankBefore, form, blankAfter, rfl⟩ := padded
  exact ⟨before, inner, after ++ gap, blankBefore, form, blankAfter.append blank, by simp⟩

/-- Blanks before the first item may be counted to it. -/
theorem exists_separated {α : Type} {form : List UInt8 → α → Prop}
    (indent : ∀ gap text a, Blanks gap → form text a → form (gap ++ text) a)
    {texts : List (List UInt8)} {items : List α} (each : List.Forall₂ form texts items)
    (nonempty : items ≠ []) {gap : List UInt8} (blank : Blanks gap) :
    ∃ others, List.Forall₂ form others items ∧ gap ++ joined true texts = separated others := by
  cases each with
  | nil => exact absurd rfl nonempty
  | @cons text a texts items here each =>
    exact ⟨(gap ++ text) :: texts,
      .cons (indent gap text a blank here) each, by simp [separated_eq_joined]⟩

/-- Blanks behind the last item may be counted to it. -/
theorem exists_trailed {α : Type} {form : List UInt8 → α → Prop}
    (trail : ∀ text gap a, Blanks gap → form text a → form (text ++ gap) a)
    {texts : List (List UInt8)} {items : List α} (each : List.Forall₂ form texts items)
    (nonempty : items ≠ []) {gap : List UInt8} (blank : Blanks gap) (first : Bool) :
    ∃ others, List.Forall₂ form others items ∧ joined first texts ++ gap = joined first others := by
  induction each generalizing first with
  | nil => exact absurd rfl nonempty
  | @cons text a texts items here each ih =>
    cases each with
    | nil => exact ⟨[text ++ gap], .cons (trail text gap a blank here) .nil, by simp⟩
    | cons next each =>
      obtain ⟨others, formed, same⟩ := ih (List.cons_ne_nil _ _) false
      exact ⟨text :: others, .cons here formed, by rw [joined_cons first text others, ← same]; simp⟩

end Grammar

open Grammar

theorem isBlank_iff {b : UInt8} : isBlank b = true ↔ b ∈ blanks := by
  simp [isBlank, blanks, or_assoc]

theorem dropBlanks_append {gap : List UInt8} (blank : Blanks gap) (rest : List UInt8) :
    (gap ++ rest).dropWhile isBlank = rest.dropWhile isBlank :=
  List.dropWhile_append_of_pos fun b member => isBlank_iff.mpr (blank b member)

theorem dropBlanks_mark {gap : List UInt8} (blank : Blanks gap) {b : UInt8}
    (mark : isBlank b = false) (rest : List UInt8) :
    (gap ++ b :: rest).dropWhile isBlank = b :: rest := by
  rw [dropBlanks_append blank, List.dropWhile_cons_of_neg (by simp [mark])]

theorem dropBlanks_split (bytes : List UInt8) :
    ∃ gap, Blanks gap ∧ bytes = gap ++ bytes.dropWhile isBlank :=
  ⟨bytes.takeWhile isBlank, fun _ member => isBlank_iff.mp (List.mem_takeWhile_imp member), by simp⟩

theorem dropBlanks_eq_cons {bytes rest : List UInt8} {b : UInt8}
    (found : bytes.dropWhile isBlank = b :: rest) :
    isBlank b = false ∧ ∃ gap, Blanks gap ∧ bytes = gap ++ b :: rest := by
  obtain ⟨gap, blank, split⟩ := dropBlanks_split bytes
  refine ⟨?_, gap, blank, found ▸ split⟩
  have := List.head?_dropWhile_not isBlank bytes
  simpa [found] using this

theorem dropBlanks_eq_nil_iff {bytes : List UInt8} :
    bytes.dropWhile isBlank = [] ↔ Blanks bytes := by
  simp [List.dropWhile_eq_nil_iff, Blanks, isBlank_iff]

theorem readColon_eq_ok_iff {bytes rest : List UInt8} :
    readColon bytes = .ok rest ↔ ∃ gap, Blanks gap ∧ bytes = gap ++ code ':' :: rest := by
  constructor
  · intro ok
    unfold readColon at ok
    split at ok
    · cases ok
    rename_i found
    obtain ⟨_, gap, blank, rfl⟩ := dropBlanks_eq_cons found
    split at ok
    · rename_i mark
      cases ok
      exact ⟨gap, blank, by rw [mark]⟩
    · cases ok
  · intro taken
    obtain ⟨gap, blank, rfl⟩ := taken
    rw [readColon, dropBlanks_mark blank (by decide)]
    exact if_pos rfl

theorem readListEnd_eq_ok_iff {bytes rest : List UInt8} :
    readListEnd bytes = .ok rest ↔ ∃ gap, Blanks gap ∧ bytes = gap ++ code ']' :: rest := by
  constructor
  · intro ok
    unfold readListEnd at ok
    split at ok
    · cases ok
    rename_i found
    obtain ⟨_, gap, blank, rfl⟩ := dropBlanks_eq_cons found
    split at ok
    · rename_i mark
      cases ok
      exact ⟨gap, blank, by rw [mark]⟩
    · repeat' split at ok
      all_goals cases ok
  · intro taken
    obtain ⟨gap, blank, rfl⟩ := taken
    rw [readListEnd, dropBlanks_mark blank (by decide)]
    exact if_pos rfl

theorem nextElement_found {first : Bool} {bytes rest : List UInt8}
    (ok : nextElement first bytes = .ok (.found rest)) :
    ∃ gap lead, Blanks gap ∧ Blanks lead ∧ bytes = gap ++ (comma first ++ (lead ++ rest)) := by
  unfold nextElement at ok
  split at ok
  · cases ok
  rename_i found
  obtain ⟨_, gap, blank, rfl⟩ := dropBlanks_eq_cons found
  split at ok
  · cases ok
  cases first with
  | true =>
    cases ok
    exact ⟨gap, [], blank, blanks_nil, by simp⟩
  | false =>
    rw [if_neg Bool.false_ne_true] at ok
    split at ok
    · rename_i mark
      split at ok
      · cases ok
      rename_i next
      obtain ⟨_, lead, blankLead, rfl⟩ := dropBlanks_eq_cons next
      split at ok
      · cases ok
      · cases ok
        exact ⟨gap, lead, blank, blankLead, by simp [mark]⟩
    · cases ok

theorem nextElement_of_front {b : UInt8} (unblank : isBlank b = false) (unclosed : b ≠ code ']')
    {gap lead : List UInt8} (blank : Blanks gap) (blankLead : Blanks lead) (first : Bool)
    (rest : List UInt8) :
    nextElement first (gap ++ (comma first ++ (lead ++ b :: rest))) = .ok (.found (b :: rest)) := by
  cases first with
  | true =>
    rw [comma_true, List.nil_append, ← List.append_assoc, nextElement,
      dropBlanks_mark (blank.append blankLead) unblank]
    exact if_neg unclosed
  | false =>
    rw [comma_false, List.singleton_append, nextElement, dropBlanks_mark blank (by decide)]
    dsimp only
    rw [if_neg (by decide), if_neg Bool.false_ne_true, if_pos rfl,
      dropBlanks_mark blankLead unblank]
    exact if_neg unclosed

theorem nextKey_closed_iff {first : Bool} {bytes rest : List UInt8} :
    nextKey first bytes = .ok (.closed rest) ↔
      ∃ gap, Blanks gap ∧ bytes = gap ++ code '\x7d' :: rest := by
  constructor
  · intro ok
    unfold nextKey at ok
    split at ok
    · cases ok
    rename_i found
    obtain ⟨_, gap, blank, rfl⟩ := dropBlanks_eq_cons found
    split at ok
    · rename_i mark
      cases ok
      exact ⟨gap, blank, by rw [mark]⟩
    · repeat' split at ok
      all_goals cases ok
  · intro taken
    obtain ⟨gap, blank, rfl⟩ := taken
    rw [nextKey, dropBlanks_mark blank (by decide)]
    exact if_pos rfl

theorem nextKey_found_iff {first : Bool} {bytes rest : List UInt8} :
    nextKey first bytes = .ok (.found rest) ↔
      ∃ gap lead, Blanks gap ∧ Blanks lead ∧
        bytes = gap ++ (comma first ++ (lead ++ Text.quote :: rest)) := by
  constructor
  · intro ok
    unfold nextKey at ok
    split at ok
    · cases ok
    rename_i found
    obtain ⟨_, gap, blank, rfl⟩ := dropBlanks_eq_cons found
    split at ok
    · cases ok
    cases first with
    | true =>
      rw [if_pos rfl] at ok
      split at ok
      · rename_i quoted
        cases ok
        exact ⟨gap, [], blank, blanks_nil, by simp [quoted]⟩
      · cases ok
    | false =>
      rw [if_neg Bool.false_ne_true] at ok
      split at ok
      · rename_i mark
        split at ok
        · cases ok
        rename_i next
        obtain ⟨_, lead, blankLead, rfl⟩ := dropBlanks_eq_cons next
        split at ok
        · rename_i quoted
          cases ok
          exact ⟨gap, lead, blank, blankLead, by simp [mark, quoted]⟩
        · cases ok
      · cases ok
  · intro taken
    obtain ⟨gap, lead, blank, blankLead, rfl⟩ := taken
    cases first with
    | true =>
      rw [comma_true, List.nil_append, ← List.append_assoc, nextKey,
        dropBlanks_mark (blank.append blankLead) (by decide)]
      rfl
    | false =>
      rw [comma_false, List.singleton_append, nextKey, dropBlanks_mark blank (by decide)]
      dsimp only
      rw [if_neg (by decide), if_neg Bool.false_ne_true, if_pos rfl,
        dropBlanks_mark blankLead (by decide)]
      rfl

end CharTable.Json
