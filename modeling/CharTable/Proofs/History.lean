import CharTable.Proofs.Leaves
import CharTable.Proofs.Legible
import CharTable.Proofs.Occurrence
import CharTable.TagSet
import Mathlib.Data.Finset.Card

/-!
Two sets worked on side by side, and what was put into them. After any steps a set holds the first
occurrences of its history, every answer is an answer about that history, and equality ignores in
what order the histories ran.
-/
namespace CharTable.TagSet.Pair

/-- The atoms put into each side, repetitions included. A copy takes over all that was put into its
source. -/
def record (past : Side → List AtomId) : Step → Side → List AtomId
  | .insert target atom, side => if side = target then past side ++ [atom] else past side
  | .contains _ _, side => past side
  | .copy source, _ => past source

def history (steps : List Step) : Side → List AtomId := steps.foldl record fun _ => []

def Keeps (p : Pair) (past : Side → List AtomId) : Prop :=
  ∀ side, (p.get side).atoms = (past side).eraseDups

theorem get_set (p : Pair) (target side : Side) (s : TagSet) :
    (p.set target s).get side = if side = target then s else p.get side := by
  cases target <;> cases side <;> rfl

theorem set_get (p : Pair) (side : Side) : p.set side (p.get side) = p := by
  cases side <;> rfl

namespace Keeps

variable {p : Pair} {past : Side → List AtomId}

theorem mem_iff (keeps : Keeps p past) {side : Side} {a : AtomId} :
    a ∈ p.get side ↔ a ∈ past side := by
  change a ∈ (p.get side).atoms ↔ _
  rw [keeps side, List.mem_eraseDups]

theorem add_fst (keeps : Keeps p past) (side : Side) (a : AtomId) :
    ((p.get side).add a).1 = decide (a ∉ past side) := by
  unfold add
  split
  · next present => simp [keeps.mem_iff.mp present]
  · next absent => simp [mt keeps.mem_iff.mpr absent]

theorem add_of_mem (keeps : Keeps p past) {side : Side} {a : AtomId} (held : a ∈ past side) :
    ((p.get side).add a).2 = p.get side :=
  insert_of_mem (keeps.mem_iff.mpr held)

/-- One step keeps both sets in line with what is recorded of them. -/
theorem step (keeps : Keeps p past) (s : Step) : Keeps (p.step s).2 (record past s) := by
  intro side
  cases s with
  | insert target a =>
    change ((p.set target ((p.get target).insert a)).get side).atoms =
      (record past (.insert target a) side).eraseDups
    rw [get_set, record]
    by_cases same : side = target
    · subst same
      have present : a ∈ (p.get side).atoms ↔ a ∈ past side := keeps.mem_iff
      rw [if_pos rfl, if_pos rfl, atoms_insert, eraseDups_concat, keeps side]
      simp
    · rw [if_neg same, if_neg same, keeps side]
  | contains target a => exact keeps side
  | copy source =>
    change ((p.set source.other (p.get source)).get side).atoms = (past source).eraseDups
    rw [get_set]
    split
    · exact keeps source
    · next kept =>
      have same : side = source := by cases side <;> cases source <;> simp_all [Side.other]
      rw [same, keeps source]

theorem run (keeps : Keeps p past) (steps : List Step) :
    Keeps (p.run steps) (steps.foldl record past) := by
  induction steps generalizing p past with
  | nil => exact keeps
  | cons s steps ih => exact ih (keeps.step s)

end Keeps

/-- After any steps both sets are in line with their records. -/
theorem keeps_history (steps : List Step) : Keeps (empty.run steps) (history steps) := by
  have fresh : Keeps empty fun _ => [] := fun side => by cases side <;> rfl
  exact fresh.run steps

/-- After any steps on two empty sets, each holds the distinct atoms of its history in the order of
their first insertion. An insertion reports whether the atom is new to that history and otherwise
changes nothing, membership and size are those of the history as a set, and either set equals the
other exactly if the histories have the same atoms. -/
theorem run_history (steps : List Step) :
    (∀ side, ((empty.run steps).get side).atoms = (history steps side).eraseDups) ∧
      (∀ side a,
        ((empty.run steps).step (.insert side a)).1 = some (decide (a ∉ history steps side)) ∧
        (a ∈ history steps side → ((empty.run steps).step (.insert side a)).2 = empty.run steps)) ∧
      (∀ side a, (empty.run steps).step (.contains side a) =
        (some (decide (a ∈ history steps side)), empty.run steps)) ∧
      (∀ side, ((empty.run steps).get side).size = (history steps side).toFinset.card) ∧
      ∀ side, ((empty.run steps).get side == (empty.run steps).get side.other) = true ↔
        ∀ a, a ∈ history steps side ↔ a ∈ history steps side.other := by
  have keeps := keeps_history steps
  refine ⟨keeps, fun side a => ⟨?_, fun held => ?_⟩, fun side a => ?_,
    fun side => ?_, fun side => ?_⟩
  · exact congrArg some (keeps.add_fst side a)
  · change (empty.run steps).set side (((empty.run steps).get side).add a).2 = _
    rw [keeps.add_of_mem held, set_get]
  · have same : ((empty.run steps).get side).contains a = decide (a ∈ history steps side) :=
      decide_eq_decide.mpr keeps.mem_iff
    exact congrArg (fun answer => (some answer, empty.run steps)) same
  · have shared : ((empty.run steps).get side).atoms.toFinset = (history steps side).toFinset := by
      ext a
      rw [List.mem_toFinset, List.mem_toFinset]
      exact keeps.mem_iff
    rw [← shared, List.toFinset_card_of_nodup (TagSet.distinct _)]
    rfl
  · rw [TagSet.beq_iff]
    exact forall_congr' fun a => iff_congr keeps.mem_iff keeps.mem_iff

/-- Equal sets that grew in different orders, one of them through a copy. -/
example :
    let p := empty.run
      [.insert .left ⟨1⟩, .copy .left, .insert .left ⟨2⟩, .copy .left, .insert .right ⟨1⟩]
    (p.left == p.right) = true ∧ p.right.atoms = [⟨1⟩, ⟨2⟩] := by
  decide

end CharTable.TagSet.Pair
