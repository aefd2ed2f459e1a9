import CharTable.Proofs.Packing

/-!
Fewer rules. A table with fewer symbols has fewer flags: packing cannot begin to fail, no bit
appears, and the class of a byte stays or goes. So rules can be left out of a program that packs.
-/
namespace CharTable

namespace Flag

theorem and_or_self (u v : UInt8) : u &&& (u ||| v) = u := by
  apply UInt8.toBitVec_inj.mp
  ext i inside
  simp only [UInt8.toBitVec_and, UInt8.toBitVec_or, BitVec.getElem_and, BitVec.getElem_or]
  cases u.toBitVec[i] <;> rfl

theorem value_and_join {flags : List Flag} {flag : Flag} (member : flag ∈ flags) :
    flag.value &&& join flags = flag.value := by
  induction flags with
  | nil => cases member
  | cons head flags ih =>
    rw [join_cons]
    rcases List.mem_cons.mp member with rfl | later
    · exact and_or_self flag.value (join flags)
    · calc
        flag.value &&& (head.value ||| join flags) =
            flag.value &&& join flags &&& (head.value ||| join flags) := by rw [ih later]
        _ = flag.value &&& (join flags &&& (join flags ||| head.value)) := by
          rw [UInt8.and_assoc, UInt8.or_comm]
        _ = flag.value := by rw [and_or_self, ih later]

theorem join_and_join {fewer flags : List Flag} (included : fewer ⊆ flags) :
    join fewer &&& join flags = join fewer := by
  induction fewer with
  | nil => simp
  | cons flag fewer ih =>
    obtain ⟨here, later⟩ := List.cons_subset.mp included
    rw [join_cons, or_and, value_and_join here, ih later]

end Flag

namespace Table

variable {m : Model} {rules fewer : List Rule} {t u : Table}

/-- An entry gains nothing when rules are left out. -/
theorem mem_entry_of_subset (included : fewer ⊆ rules) (built : ofRules m rules = .ok t)
    (rebuilt : ofRules m fewer = .ok u) {b : UInt8} {a : AtomId}
    (member : a ∈ u.entry b) : a ∈ t.entry b := by
  obtain ⟨rule, listed, put⟩ := (mem_entry_ofRules rebuilt).mp member
  exact (mem_entry_ofRules built).mpr ⟨rule, included listed, put⟩

theorem hasSymbol_of_subset (included : fewer ⊆ rules) (built : ofRules m rules = .ok t)
    (rebuilt : ofRules m fewer = .ok u) {b : UInt8} {s : String} (has : u.hasSymbol b s = true) :
    t.hasSymbol b s = true := by
  obtain ⟨a, member, held⟩ := hasSymbol_iff.mp has
  refine hasSymbol_iff.mpr ⟨a, mem_entry_of_subset included built rebuilt member, ?_⟩
  rwa [symbol?, symbols_ofRules built, ← symbols_ofRules rebuilt]

end Table

namespace Packed

section Fewer

variable {t u : Table} {e : Encoding} {p q : Packed}
    (fewer : ∀ b s, u.hasSymbol b s = true → t.hasSymbol b s = true)
include fewer

theorem flagsAt_subset (b : UInt8) : flagsAt u e b ⊆ flagsAt t e b := by
  intro flag member
  obtain ⟨s, has, mapped⟩ := mem_flagsAt.mp member
  exact mem_flagsAt.mpr ⟨s, fewer b s has, mapped⟩

theorem exists_ofTable_of_fewer (legible : t.Legible) (other : u.Legible)
    (packed : ofTable t e = .ok p) : ∃ q, ofTable u e = .ok q := by
  have fine := (exists_ofTable_iff legible).mp ⟨p, packed⟩
  apply (exists_ofTable_iff other).mpr
  intro b
  obtain ⟨mapped, single⟩ := fine b
  refine ⟨fun s has => mapped s (fewer b s has), fun v w first second => ?_⟩
  exact single v w (flagsAt_subset fewer b first) (flagsAt_subset fewer b second)

variable (packed : ofTable t e = .ok p) (repacked : ofTable u e = .ok q)
include packed repacked

theorem flagsOf_and_of_fewer (b : UInt8) : q.flagsOf b &&& p.flagsOf b = q.flagsOf b := by
  obtain ⟨_, _, joined⟩ := byte_ofTable packed b
  obtain ⟨_, _, rejoined⟩ := byte_ofTable repacked b
  rw [joined, rejoined, Flag.join_and_join (flagsAt_subset fewer b)]

theorem classOf_of_fewer (b : UInt8) : q.classOf b = p.classOf b ∨ q.classOf b = 0 := by
  by_cases none : q.classOf b = 0
  · exact Or.inr none
  · have listed := (classOf_eq_iff repacked none).mp rfl
    exact Or.inl ((classOf_eq_iff packed none).mpr (flagsAt_subset fewer b listed)).symm

end Fewer

variable {ds : List Declaration} {m : Model} {rules kept : List Rule} {t : Table}
    {e : Encoding} {p : Packed}

/-- Rules may be left out of a program that packs: the rest succeeds and packs, every bit it sets
was set, and every byte keeps its class or has none. -/
theorem ofTable_sublist (accepted : Model.ofDeclarations ds = .ok m)
    (built : Table.ofRules m rules = .ok t) (packed : ofTable t e = .ok p)
    (left : kept.Sublist rules) :
    ∃ u q, Table.ofRules m kept = .ok u ∧ ofTable u e = .ok q ∧
      ∀ b, q.flagsOf b &&& p.flagsOf b = q.flagsOf b ∧
        (q.classOf b = p.classOf b ∨ q.classOf b = 0) := by
  have copies := copies_of_ofDeclarations accepted
  have each := Table.exists_ofRules_iff.mp ⟨t, built⟩
  obtain ⟨u, rebuilt⟩ :=
    Table.exists_ofRules_iff.mpr fun rule listed => each rule (left.subset listed)
  have fewer : ∀ b s, u.hasSymbol b s = true → t.hasSymbol b s = true :=
    fun _ _ => Table.hasSymbol_of_subset left.subset built rebuilt
  obtain ⟨q, repacked⟩ := exists_ofTable_of_fewer fewer (Table.legible_ofRules copies built)
    (Table.legible_ofRules copies rebuilt) packed
  exact ⟨u, q, rebuilt, repacked, fun b => ⟨flagsOf_and_of_fewer fewer packed repacked b,
    classOf_of_fewer fewer packed repacked b⟩⟩

open Table (wordTags wordRules) in
/-- The word table without its rule for digits, read on the digit zero. -/
theorem ofTable_word_digitless :
    ∃ m t e p u q, Model.ofDeclarations wordTags = .ok m ∧ Table.ofRules m wordRules = .ok t ∧
      Encoding.ofEntries 17 wordFlags = .ok e ∧ ofTable t e = .ok p ∧
      Table.ofRules m (wordRules.eraseIdx 1) = .ok u ∧ ofTable u e = .ok q ∧
      q.flagsOf 48 &&& p.flagsOf 48 = q.flagsOf 48 ∧
      (q.classOf 48 = p.classOf 48 ∨ q.classOf 48 = 0) := by
  obtain ⟨m, t, e, p, accepted, built, encoded, packed⟩ := exists_wordPacked
  obtain ⟨u, q, rebuilt, repacked, each⟩ :=
    ofTable_sublist accepted built packed (List.eraseIdx_sublist wordRules 1)
  exact ⟨m, t, e, p, u, q, accepted, built, encoded, packed, rebuilt, repacked, each 48⟩

end Packed
end CharTable
