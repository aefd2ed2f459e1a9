import CharTable.Proofs.Flags
import Mathlib.Data.Finset.Powerset
import Mathlib.Data.Fintype.Card
import Mathlib.Data.Nat.Bitwise

/-!
How many flags fit a mask. A byte is a set of bits: a class is a set under the mask that is not
empty, a bit is one outside it. Different fitting flags have different values, so the sets under the
mask and the bits outside it bound their number.
-/
namespace CharTable.Flag

def setBits (v : UInt8) : Finset (Fin 8) := Finset.univ.filter fun i => v.toNat.testBit i = true

theorem mem_setBits {v : UInt8} {i : Fin 8} : i ∈ setBits v ↔ v.toNat.testBit i = true := by
  simp [setBits]

theorem setBits_injective : Function.Injective setBits := by
  intro v w same
  apply UInt8.toNat_inj.mp
  apply Nat.eq_of_testBit_eq
  intro i
  by_cases inside : i < 8
  · apply Bool.eq_iff_iff.mpr
    rw [← mem_setBits (i := ⟨i, inside⟩), same, mem_setBits]
  · have large : 2 ^ 8 ≤ 2 ^ i := Nat.pow_le_pow_right (by decide) (Nat.not_lt.mp inside)
    rw [Nat.testBit_lt_two_pow (Nat.lt_of_lt_of_le v.toNat_lt large),
      Nat.testBit_lt_two_pow (Nat.lt_of_lt_of_le w.toNat_lt large)]

theorem setBits_and (v w : UInt8) : setBits (v &&& w) = setBits v ∩ setBits w := by
  ext i
  simp [mem_setBits]

@[simp] theorem setBits_zero : setBits 0 = ∅ := by decide

variable {mask v : UInt8} {flag other : Flag}

theorem Fits.setBits_class (fits : (ofClass v).Fits mask) :
    setBits v ∈ (setBits mask).powerset.erase ∅ := by
  rw [Finset.mem_erase, Finset.mem_powerset]
  constructor
  · intro none
    exact fits.1 (setBits_injective (none.trans setBits_zero.symm))
  · have whole := setBits_and v mask
    rw [fits.and_mask] at whole
    exact Finset.inter_eq_left.mp whole.symm

theorem IsSingleBit.setBits (single : IsSingleBit v) : ∃ i, Flag.setBits v = {i} := by
  obtain ⟨k, small, rfl⟩ := single
  have each : ∀ i : Fin 8, Flag.setBits (1 <<< UInt8.ofNat i) = {i} := by decide
  exact ⟨⟨k, small⟩, each ⟨k, small⟩⟩

theorem Fits.setBits_bit (fits : (bit v).Fits mask) :
    setBits v ∈ (setBits mask)ᶜ.image singleton := by
  obtain ⟨i, alone⟩ := fits.1.setBits
  have apart := setBits_and v mask
  rw [fits.2, setBits_zero, alone] at apart
  rw [Finset.mem_image, alone]
  refine ⟨i, Finset.mem_compl.mpr fun inside => ?_, rfl⟩
  have shared := Finset.singleton_inter_of_mem inside
  rw [← apart] at shared
  exact Finset.singleton_ne_empty i shared.symm

/-- Flags that fit one mask share no value: the values of classes lie in the mask, those of bits
outside it. -/
theorem Fits.value_injective (fits : flag.Fits mask) (also : other.Fits mask)
    (same : flag.value = other.value) : flag = other := by
  have apart {v w : UInt8} (left : (ofClass v).Fits mask) (right : (bit w).Fits mask) : v ≠ w := by
    rintro rfl
    exact left.1 (left.and_mask.symm.trans right.2)
  cases flag with
  | ofClass v =>
    cases other with
    | ofClass w => exact congrArg ofClass same
    | bit w => exact absurd same (apart fits also)
  | bit v =>
    cases other with
    | ofClass w => exact absurd same.symm (apart also fits)
    | bit w => exact congrArg bit same

theorem Fits.setBits_value (fits : flag.Fits mask) :
    setBits flag.value ∈ (setBits mask).powerset.erase ∅ ∪ (setBits mask)ᶜ.image singleton := by
  rw [Finset.mem_union]
  cases flag with
  | ofClass v => exact Or.inl fits.setBits_class
  | bit v => exact Or.inr fits.setBits_bit

/-- The nonzero parts of a mask and the single bits outside it are at most so many. -/
theorem card_fitting (mask : UInt8) :
    ((setBits mask).powerset.erase ∅ ∪ (setBits mask)ᶜ.image singleton).card ≤
        (2 ^ (setBits mask).card - 1) + (8 - (setBits mask).card) := by
  calc
    _ ≤ ((setBits mask).powerset.erase ∅).card + ((setBits mask)ᶜ.image singleton).card :=
      Finset.card_union_le _ _
    _ ≤ ((setBits mask).powerset.erase ∅).card + (setBits mask)ᶜ.card :=
      Nat.add_le_add_left Finset.card_image_le _
    _ = _ := by
      rw [Finset.card_erase_of_mem (Finset.empty_mem_powerset _), Finset.card_powerset,
        Finset.card_compl, Fintype.card_fin]

/-- Different flags that fit a mask of so many bits are at most the classes under it and the bits
beside it. -/
theorem length_le_of_fit {flags : List Flag} (fit : ∀ flag ∈ flags, flag.Fits mask)
    (distinct : flags.Nodup) :
    flags.length ≤ (2 ^ (setBits mask).card - 1) + (8 - (setBits mask).card) := by
  have separate : (flags.map fun flag => setBits flag.value).Nodup := by
    apply distinct.map_on
    intro flag listed other also same
    exact (fit flag listed).value_injective (fit other also) (setBits_injective same)
  have inside : (flags.map fun flag => setBits flag.value).toFinset ⊆
      (setBits mask).powerset.erase ∅ ∪ (setBits mask)ᶜ.image singleton := by
    intro bits listed
    obtain ⟨flag, member, rfl⟩ := List.mem_map.mp (List.mem_toFinset.mp listed)
    exact (fit flag member).setBits_value
  calc
    flags.length = (flags.map fun flag => setBits flag.value).toFinset.card := by
      rw [List.toFinset_card_of_nodup separate, List.length_map]
    _ ≤ _ := Finset.card_le_card inside
    _ ≤ _ := card_fitting mask

end CharTable.Flag
