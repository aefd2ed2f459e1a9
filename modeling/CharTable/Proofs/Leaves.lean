import CharTable.Table

/-!
The leaves of a tag: the atoms that its unfolding meets, depth first and in declared order,
repetitions included. Putting a tag on a byte adds its leaves to one entry, each at most once, and
touches no other.
-/
namespace CharTable

namespace Model

def leaves (m : Model) (t : TagId) : List AtomId :=
  match _tag : m.tag? t with
  | some (.atomic a) => [a]
  | some (.composite parts) => parts.attach.flatMap fun p => m.leaves p.1
  | none => []
termination_by (⟨t⟩ : m.Node)
decreasing_by exact isPart_of_tag? _tag p.2

theorem leaves_eq (m : Model) (t : TagId) :
    m.leaves t = match m.tag? t with
      | some (.atomic a) => [a]
      | some (.composite parts) => parts.flatMap m.leaves
      | none => [] := by
  rw [leaves]
  split <;> simp_all [List.flatMap_subtype]

theorem leaves_atomic {m : Model} {t : TagId} {a : AtomId} (found : m.tag? t = some (.atomic a)) :
    m.leaves t = [a] := by
  rw [leaves_eq, found]

theorem leaves_composite {m : Model} {t : TagId} {parts : List TagId}
    (found : m.tag? t = some (.composite parts)) : m.leaves t = parts.flatMap m.leaves := by
  rw [leaves_eq, found]

end Model

namespace TagSet

def insertAll (s : TagSet) (atoms : List AtomId) : TagSet := atoms.foldl insert s

@[simp] theorem insertAll_nil (s : TagSet) : s.insertAll [] = s := rfl

theorem insertAll_append (s : TagSet) (first second : List AtomId) :
    s.insertAll (first ++ second) = (s.insertAll first).insertAll second := List.foldl_append

theorem mem_insertAll {s : TagSet} {atoms : List AtomId} {a : AtomId} :
    a ∈ s.insertAll atoms ↔ a ∈ s ∨ a ∈ atoms := by
  induction atoms generalizing s with
  | nil => simp
  | cons b atoms ih =>
    change a ∈ (s.insert b).insertAll atoms ↔ _
    rw [ih, mem_insert, List.mem_cons, or_assoc]

theorem insert_of_mem {s : TagSet} {a : AtomId} (present : a ∈ s) : s.insert a = s := by
  apply ext
  rw [atoms_insert]
  exact if_pos present

theorem insertAll_of_subset {s : TagSet} {atoms : List AtomId} (present : ∀ a ∈ atoms, a ∈ s) :
    s.insertAll atoms = s := by
  induction atoms with
  | nil => rfl
  | cons a atoms ih =>
    change (s.insert a).insertAll atoms = s
    rw [insert_of_mem (present a (by simp))]
    exact ih fun b member => present b (by simp [member])

theorem insertAll_insertAll_self (s : TagSet) (atoms : List AtomId) :
    (s.insertAll atoms).insertAll atoms = s.insertAll atoms :=
  insertAll_of_subset fun _ member => mem_insertAll.mpr (Or.inr member)

end TagSet

namespace Table

theorem foldl_insertTag (m : Model) (b : UInt8) (parts : List TagId) (t : Table)
    (each : ∀ p ∈ parts, ∀ t,
      insertTag m b p t = t.setEntry b ((t.entry b).insertAll (m.leaves p))) :
    parts.foldl (fun t p => insertTag m b p t) t =
        t.setEntry b ((t.entry b).insertAll (parts.flatMap m.leaves)) := by
  induction parts generalizing t with
  | nil => simp
  | cons p parts ih =>
    rw [List.foldl_cons, each p (by simp), ih _ fun q member => each q (by simp [member])]
    simp [TagSet.insertAll_append]

/-- Putting a tag on a byte adds its leaves to the entry, in their order. -/
theorem insertTag_eq_setEntry (m : Model) (b : UInt8) (id : TagId) (t : Table) :
    insertTag m b id t = t.setEntry b ((t.entry b).insertAll (m.leaves id)) := by
  induction id using m.descends.induction generalizing t with
  | _ id ih =>
    rw [insertTag_eq]
    cases found : m.tag? id with
    | none => simp [Model.leaves_eq, found]
    | some tag =>
      cases tag with
      | atomic a =>
        rw [Model.leaves_atomic found]
        rfl
      | composite parts =>
        rw [Model.leaves_composite found]
        exact foldl_insertTag m b parts t fun p part u => ih p (Model.isPart_of_tag? found part) u

@[simp] theorem symbols_insertTag (m : Model) (b : UInt8) (id : TagId) (t : Table) :
    (insertTag m b id t).symbols = t.symbols := by
  rw [insertTag_eq_setEntry, symbols_setEntry]

@[simp] theorem symbols_insertOn (m : Model) (id : TagId) (bytes : List UInt8) (t : Table) :
    (insertOn m id bytes t).symbols = t.symbols := by
  induction bytes generalizing t with
  | nil => rfl
  | cons b bytes ih => exact (ih _).trans (symbols_insertTag m b id t)

/-- A byte that is listed, however often, gets the leaves once; any other keeps its entry. -/
theorem entry_insertOn (m : Model) (id : TagId) (bytes : List UInt8) (t : Table) (c : UInt8) :
    (insertOn m id bytes t).entry c = if c ∈ bytes then (t.entry c).insertAll (m.leaves id)
        else t.entry c := by
  induction bytes generalizing t with
  | nil => simp [insertOn]
  | cons b bytes ih =>
    change (insertOn m id bytes (insertTag m b id t)).entry c = _
    rw [ih, insertTag_eq_setEntry, entry_setEntry]
    by_cases same : c = b
    · subst same
      simp [TagSet.insertAll_insertAll_self]
    · simp [same]

end Table
end CharTable
