import Mathlib.Data.List.Basic
import Mathlib.Data.List.Induction

/-!
First occurrences: a list without its repetitions grows by what it does not hold yet, and keeps the
order in which its items were first met.
-/
namespace CharTable

variable {α : Type} [DecidableEq α]

theorem eraseDups_concat (items : List α) (a : α) :
    (items ++ [a]).eraseDups = if a ∈ items then items.eraseDups else items.eraseDups ++ [a] := by
  rw [List.eraseDups_append]
  by_cases early : a ∈ items <;> simp [List.removeAll, List.eraseDups_cons, early]

theorem length_eraseDups_le (items : List α) : items.eraseDups.length ≤ items.length := by
  induction items using List.reverseRecOn with
  | nil => simp
  | append_singleton items last ih =>
    rw [eraseDups_concat, List.length_append]
    split
    · exact Nat.le_add_right_of_le ih
    · simpa using ih

/-- Without repetitions, items stand in the order in which they were first met. -/
theorem pairwise_eraseDups (items : List α) :
    items.eraseDups.Pairwise fun a b => items.idxOf a < items.idxOf b := by
  induction items using List.reverseRecOn with
  | nil => exact .nil
  | append_singleton items last ih =>
    have kept : items.eraseDups.Pairwise fun a b =>
        (items ++ [last]).idxOf a < (items ++ [last]).idxOf b := by
      apply ih.imp_of_mem
      intro a b first second less
      rw [List.mem_eraseDups] at first second
      rwa [List.idxOf_append_of_mem first, List.idxOf_append_of_mem second]
    rw [eraseDups_concat]
    split
    · exact kept
    · next fresh =>
      rw [List.pairwise_append]
      refine ⟨kept, List.pairwise_singleton _ _, fun a early b late => ?_⟩
      rw [List.mem_eraseDups] at early
      rw [List.mem_singleton.mp late, List.idxOf_append_of_mem early,
        List.idxOf_append_of_notMem fresh]
      exact Nat.lt_add_right _ (List.idxOf_lt_length_of_mem early)

end CharTable
