import CharTable.Fault
import Mathlib.Data.List.Forall2

/-!
A fallible step taken on each element of a list: the results on success, the first fault otherwise.
Lists related element by element are read at a position or at a member.
-/
namespace CharTable.Traverse

variable {α β ε : Type}

theorem forall₂_of_mapM {step : α → Except ε β} {items : List α} {results : List β}
    (ok : items.mapM step = .ok results) :
    List.Forall₂ (fun item result => step item = .ok result) items results := by
  induction items generalizing results with
  | nil =>
    cases ok
    exact .nil
  | cons item items ih =>
    rw [List.mapM_cons] at ok
    obtain ⟨first, taken, ok⟩ := bind_eq_ok.mp ok
    obtain ⟨rest, others, ok⟩ := bind_eq_ok.mp ok
    cases ok
    exact .cons taken (ih others)

theorem mapM_of_forall₂ {step : α → Except ε β} {items : List α} {results : List β}
    (each : List.Forall₂ (fun item result => step item = .ok result) items results) :
    items.mapM step = .ok results := by
  induction each with
  | nil => rfl
  | cons taken _ ih =>
    rw [List.mapM_cons, taken, ih]
    rfl

theorem mapM_success {step : α → Except ε β} {items : List α}
    (each : ∀ item ∈ items, ∃ result, step item = .ok result) :
    ∃ results, items.mapM step = .ok results := by
  induction items with
  | nil => exact ⟨[], rfl⟩
  | cons item items ih =>
    obtain ⟨first, taken⟩ := each item (by simp)
    obtain ⟨rest, others⟩ := ih fun other member => each other (by simp [member])
    refine ⟨first :: rest, ?_⟩
    rw [List.mapM_cons, taken, others]
    rfl

/-- The first element at which the step fails decides the fault. -/
theorem mapM_fault {step : α → Except ε β} {before after : List α} {item : α} {fault : ε}
    (each : ∀ earlier ∈ before, ∃ result, step earlier = .ok result)
    (failed : step item = .error fault) : (before ++ item :: after).mapM step = .error fault := by
  obtain ⟨results, taken⟩ := mapM_success each
  rw [List.mapM_append, taken, List.mapM_cons, failed]
  rfl

theorem toList_mapM {n : Nat} (step : α → Except ε β) (items : Vector α n) :
    (items.mapM step).map Vector.toList = items.toList.mapM step := by
  calc
    (items.mapM step).map Vector.toList = Array.toList <$> Vector.toArray <$> items.mapM step := by
      cases items.mapM step <;> rfl
    _ = Array.toList <$> items.toArray.mapM step := by rw [Vector.toArray_mapM]
    _ = items.toList.mapM step := Array.toList_mapM

theorem vector_mapM_eq_ok_iff {n : Nat} {step : α → Except ε β} {items : Vector α n}
    {results : Vector β n} :
    items.mapM step = .ok results ↔ ∀ i (inside : i < n), step items[i] = .ok results[i] := by
  have listed := toList_mapM step items
  constructor
  · intro ok i inside
    rw [ok] at listed
    have each := (List.forall₂_iff_get.mp (forall₂_of_mapM listed.symm)).2 i
    simpa using each (by simpa using inside) (by simpa using inside)
  · intro each
    have related : List.Forall₂ (fun item result => step item = .ok result) items.toList
        results.toList := by
      apply List.forall₂_iff_get.mpr
      refine ⟨by simp, fun i inside _ => ?_⟩
      simpa using each i (by simpa using inside)
    rw [mapM_of_forall₂ related] at listed
    cases taken : items.mapM step with
    | error fault =>
      rw [taken] at listed
      cases listed
    | ok found =>
      rw [taken] at listed
      rw [Vector.toList_inj.mp (Except.ok.inj listed)]

theorem vector_mapM_fault {n : Nat} {step : α → Except ε β} {items : Vector α n} {fault : ε}
    {i : Nat} (inside : i < n) (each : ∀ j (_ : j < i), ∃ result, step items[j] = .ok result)
    (failed : step items[i] = .error fault) : items.mapM step = .error fault := by
  have listed := toList_mapM step items
  have rest : items.toList.drop i = items[i] :: items.toList.drop (i + 1) := by
    rw [List.drop_eq_getElem_cons (by simpa using inside), Vector.getElem_toList]
  have stopped : items.toList.mapM step = .error fault := by
    rw [← List.take_append_drop i items.toList, rest]
    apply mapM_fault ?_ failed
    intro earlier member
    obtain ⟨j, before, rfl⟩ := List.mem_take_iff_getElem.mp member
    simpa using each j (by omega)
  rw [stopped] at listed
  cases taken : items.mapM step with
  | error other =>
    rw [taken] at listed
    cases listed
    rfl
  | ok results =>
    rw [taken] at listed
    cases listed

/-- Where every step has a result, so has the traversal, and nothing is left out. -/
theorem mapM_eq_some {step : α → Option β} {items : List α}
    (each : ∀ item ∈ items, ∃ result, step item = some result) :
    items.mapM step = some (items.filterMap step) := by
  induction items with
  | nil => rfl
  | cons item items ih =>
    obtain ⟨here, later⟩ := List.forall_mem_cons.mp each
    obtain ⟨result, taken⟩ := here
    rw [List.mapM_cons, ih later, List.filterMap_cons_some taken, taken]
    rfl

theorem run_mapM_some (step : α → Except ε β) (items : List α) :
    (items.mapM fun item => (ExceptT.mk (some (step item)) : ExceptT ε Option β)).run =
        some (items.mapM step) := by
  induction items with
  | nil => rfl
  | cons item items ih =>
    rw [List.mapM_cons, List.mapM_cons]
    cases step item with
    | error fault => rfl
    | ok result =>
      change ((items.mapM _ >>= fun results => pure (result :: results)) :
        ExceptT ε Option (List β)).run = _
      rw [ExceptT.run_bind, ih]
      cases items.mapM step <;> rfl

section Related

variable {relation : α → β → Prop} {items : List α} {results : List β}

theorem getElem?_left (each : List.Forall₂ relation items results) {i : Nat} {item : α}
    (here : items[i]? = some item) :
    ∃ result, results[i]? = some result ∧ relation item result := by
  induction each generalizing i with
  | nil => cases here
  | cons related _ ih =>
    cases i with
    | zero =>
      cases here
      exact ⟨_, rfl, related⟩
    | succ i => exact ih here

theorem getElem?_right (each : List.Forall₂ relation items results) {i : Nat} {result : β}
    (here : results[i]? = some result) : ∃ item, items[i]? = some item ∧ relation item result := by
  have flipped : List.Forall₂ (flip relation) results items := each.flip
  exact getElem?_left flipped here

theorem mem_left (each : List.Forall₂ relation items results) {item : α} (member : item ∈ items) :
    ∃ result ∈ results, relation item result := by
  obtain ⟨i, here⟩ := List.getElem?_of_mem member
  obtain ⟨result, there, related⟩ := getElem?_left each here
  exact ⟨result, List.mem_of_getElem? there, related⟩

theorem mem_right (each : List.Forall₂ relation items results) {result : β}
    (member : result ∈ results) : ∃ item ∈ items, relation item result := by
  have flipped : List.Forall₂ (flip relation) results items := each.flip
  exact mem_left flipped member

end Related

theorem first_of_exists {property : α → Prop} {items : List α}
    (some : ∃ item ∈ items, property item) :
    ∃ before item after, items = before ++ item :: after ∧
      (∀ earlier ∈ before, ¬ property earlier) ∧ property item := by
  induction items with
  | nil =>
    obtain ⟨item, member, _⟩ := some
    cases member
  | cons head items ih =>
    by_cases here : property head
    · exact ⟨[], head, items, rfl, by simp, here⟩
    · obtain ⟨item, member, holds⟩ := some
      rcases List.mem_cons.mp member with rfl | later
      · exact absurd holds here
      · obtain ⟨before, first, after, rfl, none, holds⟩ := ih ⟨item, later, holds⟩
        exact ⟨head :: before, first, after, rfl, by simpa [here] using none, holds⟩

end CharTable.Traverse
