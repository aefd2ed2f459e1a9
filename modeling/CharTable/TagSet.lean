import CharTable.Tag

/-!
Sets of atoms that remember the order of insertion. Equality ignores the order; because no atom
occurs twice, equal length and inclusion one way decide it. Two sets worked on side by side are a
machine whose steps add to one set, ask one set, or copy one set over the other.
-/
namespace CharTable

structure TagSet where
  atoms : List AtomId
  distinct : atoms.Nodup

namespace TagSet

def empty : TagSet := ⟨[], List.nodup_nil⟩

instance : Inhabited TagSet := ⟨empty⟩
instance : Membership AtomId TagSet := ⟨fun s a => a ∈ s.atoms⟩
instance (s : TagSet) (a : AtomId) : Decidable (a ∈ s) := inferInstanceAs (Decidable (a ∈ s.atoms))

def contains (s : TagSet) (a : AtomId) : Bool := decide (a ∈ s)
def size (s : TagSet) : Nat := s.atoms.length
def isEmpty (s : TagSet) : Bool := s.atoms.isEmpty

def add (s : TagSet) (a : AtomId) : Bool × TagSet :=
  if present : a ∈ s.atoms then (false, s)
  else (true, ⟨s.atoms ++ [a], List.nodup_append.mpr ⟨s.distinct, by simp, by
    intro b member c same equal
    simp only [List.mem_singleton] at same
    subst same; subst equal
    exact present member⟩⟩)

def insert (s : TagSet) (a : AtomId) : TagSet := (s.add a).2

instance : BEq TagSet := ⟨fun s t => s.size == t.size && s.atoms.all t.contains⟩

@[ext] theorem ext {s t : TagSet} (same : s.atoms = t.atoms) : s = t := by
  cases s; cases t; cases same; rfl

theorem atoms_insert (s : TagSet) (a : AtomId) :
    (s.insert a).atoms = if a ∈ s.atoms then s.atoms else s.atoms ++ [a] := by
  unfold insert add
  split <;> simp_all

@[simp] theorem mem_insert {s : TagSet} {a b : AtomId} : b ∈ s.insert a ↔ b ∈ s ∨ b = a := by
  show b ∈ (s.insert a).atoms ↔ b ∈ s.atoms ∨ b = a
  rw [atoms_insert]
  split
  · constructor
    · exact Or.inl
    · rintro (member | same)
      · exact member
      · exact same ▸ ‹a ∈ s.atoms›
  · simp

inductive Side where
  | left
  | right
deriving DecidableEq, Repr

def Side.other : Side → Side
  | left => right
  | right => left

structure Pair where
  left : TagSet
  right : TagSet

inductive Step where
  | insert (side : Side) (atom : AtomId)
  | contains (side : Side) (atom : AtomId)
  -- The set on the other side becomes a copy of this one.
  | copy (source : Side)
deriving DecidableEq, Repr

namespace Pair

def empty : Pair := ⟨.empty, .empty⟩

def get (p : Pair) : Side → TagSet
  | .left => p.left
  | .right => p.right

def set (p : Pair) (side : Side) (s : TagSet) : Pair :=
  match side with
  | .left => ⟨s, p.right⟩
  | .right => ⟨p.left, s⟩

def step (p : Pair) : Step → Option Bool × Pair
  | .insert side atom =>
    let (new, s) := (p.get side).add atom
    (some new, p.set side s)
  | .contains side atom => (some ((p.get side).contains atom), p)
  | .copy source => (none, p.set source.other (p.get source))

def run (p : Pair) (steps : List Step) : Pair := steps.foldl (fun p s => (p.step s).2) p

end Pair

end TagSet
end CharTable
