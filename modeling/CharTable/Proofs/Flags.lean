import CharTable.Flag
import Mathlib.Data.List.Nodup

/-!
Flag bytes as sets of bits. The flags of a byte are joined bit by bit; what the joined byte has in
common with a mask or with a single bit tells which flags went into it. The flags of an encoding can
be told apart so.
-/
namespace CharTable
namespace Flag

def IsSingleBit (v : UInt8) : Prop := ∃ k, k < 8 ∧ v = 1 <<< UInt8.ofNat k

instance (v : UInt8) : Decidable (IsSingleBit v) :=
  decidable_of_iff (∃ k, ∃ _ : k < 8, v = 1 <<< UInt8.ofNat k)
    ⟨fun ⟨k, small, same⟩ => ⟨k, small, same⟩, fun ⟨k, small, same⟩ => ⟨k, small, same⟩⟩

def Fits (mask : UInt8) : Flag → Prop
  | ofClass v => v ≠ 0 ∧ v &&& ~~~mask = 0
  | bit v => IsSingleBit v ∧ v &&& mask = 0

instance (mask : UInt8) : (f : Flag) → Decidable (f.Fits mask)
  | ofClass v => inferInstanceAs (Decidable (v ≠ 0 ∧ v &&& ~~~mask = 0))
  | bit v => inferInstanceAs (Decidable (IsSingleBit v ∧ v &&& mask = 0))

/-- One bit is set exactly when the byte is a power of two. -/
theorem cpop_eq_one_iff {v : UInt8} : v.toBitVec.cpop = 1#8 ↔ IsSingleBit v := by
  have each : ∀ n < 256, (UInt8.ofNat n).toBitVec.cpop = 1#8 ↔ IsSingleBit (UInt8.ofNat n) := by
    decide +kernel
  simpa using each v.toNat v.toNat_lt

theorem allowed_iff_fits {mask : UInt8} {flag : Flag} :
    flag.allowed mask = true ↔ flag.Fits mask := by
  cases flag with
  | ofClass v => simp [allowed, Fits]
  | bit v => simp [allowed, Fits, cpop_eq_one_iff]

def join (flags : List Flag) : UInt8 := flags.foldr (fun flag bits => flag.value ||| bits) 0

def class? : Flag → Option UInt8
  | ofClass v => some v
  | bit _ => none

def classes (flags : List Flag) : List UInt8 := flags.filterMap class?

@[simp] theorem join_nil : join [] = 0 := rfl

@[simp] theorem join_cons (flag : Flag) (flags : List Flag) :
    join (flag :: flags) = flag.value ||| join flags :=
  rfl

@[simp] theorem classes_nil : classes [] = [] := rfl

@[simp] theorem classes_ofClass (v : UInt8) (flags : List Flag) :
    classes (ofClass v :: flags) = v :: classes flags :=
  rfl

@[simp] theorem classes_bit (v : UInt8) (flags : List Flag) :
    classes (bit v :: flags) = classes flags :=
  rfl

theorem mem_classes {flags : List Flag} {v : UInt8} : v ∈ classes flags ↔ ofClass v ∈ flags := by
  induction flags with
  | nil => simp
  | cons flag flags ih =>
    cases flag with
    | ofClass w => simp [ih]
    | bit w => simp [ih]

theorem class?_injective {flag other : Flag} {v : UInt8} (first : flag.class? = some v)
    (second : other.class? = some v) : flag = other := by
  cases flag with
  | bit => cases first
  | ofClass w =>
    cases other with
    | bit => cases second
    | ofClass x =>
      cases first
      cases second
      rfl

theorem length_classes_le_one_iff {flags : List Flag} (distinct : flags.Nodup) :
    (classes flags).length ≤ 1 ↔ ∀ v w, ofClass v ∈ flags → ofClass w ∈ flags → v = w := by
  have separate : (classes flags).Nodup := by
    apply distinct.filterMap
    intro flag other v first second
    exact class?_injective first second
  simp only [← mem_classes]
  cases found : classes flags with
  | nil => simp
  | cons v rest =>
    rw [found] at separate
    have fresh : v ∉ rest := (List.nodup_cons.mp separate).1
    constructor
    · intro single
      have alone : rest = [] := by simpa using single
      simp [alone]
    · intro same
      have alone : rest = [] := by
        apply List.eq_nil_iff_forall_not_mem.mpr
        intro w listed
        have equal := same v w List.mem_cons_self (List.mem_cons_of_mem v listed)
        exact fresh (equal ▸ listed)
      simp [alone]

theorem or_and (u v w : UInt8) : (u ||| v) &&& w = u &&& w ||| v &&& w := by
  apply UInt8.toBitVec_inj.mp
  exact BitVec.and_or_distrib_right

theorem join_and_eq_zero_iff {flags : List Flag} {w : UInt8} :
    join flags &&& w = 0 ↔ ∀ flag ∈ flags, flag.value &&& w = 0 := by
  induction flags with
  | nil => simp
  | cons flag flags ih => simp [or_and, ih]

theorem join_eq_zero_iff {flags : List Flag} : join flags = 0 ↔ ∀ flag ∈ flags, flag.value = 0 := by
  induction flags with
  | nil => simp
  | cons flag flags ih => simp [ih]

theorem IsSingleBit.ne_zero {v : UInt8} (single : IsSingleBit v) : v ≠ 0 := by
  obtain ⟨k, small, rfl⟩ := single
  revert k
  decide

theorem IsSingleBit.and_eq_zero_iff {v w : UInt8} (left : IsSingleBit v) (right : IsSingleBit w) :
    v &&& w = 0 ↔ v ≠ w := by
  obtain ⟨k, small, rfl⟩ := left
  obtain ⟨l, bounded, rfl⟩ := right
  have pairs : ∀ k < 8, ∀ l < 8, (1 <<< UInt8.ofNat k : UInt8) &&& 1 <<< UInt8.ofNat l = 0 ↔
      (1 <<< UInt8.ofNat k : UInt8) ≠ 1 <<< UInt8.ofNat l := by
    decide
  exact pairs k small l bounded

variable {mask v : UInt8} {flag : Flag}

theorem Fits.value_ne_zero (fits : flag.Fits mask) : flag.value ≠ 0 := by
  cases flag with
  | ofClass v => exact fits.1
  | bit v => exact fits.1.ne_zero

theorem Fits.and_mask (fits : (ofClass v).Fits mask) : v &&& mask = v := by
  have whole : v &&& (mask ||| ~~~mask) = v := by simp
  have parted : (mask ||| ~~~mask) &&& v = mask &&& v ||| ~~~mask &&& v := or_and mask (~~~mask) v
  rw [UInt8.and_comm, UInt8.and_comm mask v, UInt8.and_comm (~~~mask) v, fits.2,
    UInt8.or_zero] at parted
  exact parted.symm.trans whole

theorem Fits.and_bit_eq_zero_iff (fits : flag.Fits mask) (bitFits : (bit v).Fits mask) :
    flag.value &&& v = 0 ↔ flag ≠ bit v := by
  cases flag with
  | ofClass w =>
    have apart : w &&& v = 0 := by
      calc
        w &&& v = w &&& mask &&& v := by rw [fits.and_mask]
        _ = w &&& (v &&& mask) := by rw [UInt8.and_assoc, UInt8.and_comm mask v]
        _ = 0 := by rw [bitFits.2, UInt8.and_zero]
    simp [value, apart]
  | bit w =>
    rw [value, fits.1.and_eq_zero_iff bitFits.1, ne_eq, ne_eq, bit.injEq]

/-- A bit shows in the joined value exactly if it was joined: no class reaches it and no other bit
is the same. -/
theorem join_and_bit_ne_zero_iff {flags : List Flag} (fit : ∀ flag ∈ flags, flag.Fits mask)
    (bitFits : (bit v).Fits mask) : join flags &&& v ≠ 0 ↔ bit v ∈ flags := by
  rw [ne_eq, join_and_eq_zero_iff]
  constructor
  · intro some
    by_contra missing
    apply some
    intro flag member
    apply ((fit flag member).and_bit_eq_zero_iff bitFits).mpr
    intro same
    exact missing (same ▸ member)
  · intro member none
    exact ((fit _ member).and_bit_eq_zero_iff bitFits).mp (none _ member) rfl

/-- Under the mask a joined value is the one class in it, or zero without a class. -/
theorem join_and_mask {flags : List Flag} (fit : ∀ flag ∈ flags, flag.Fits mask)
    (single : (classes flags).length ≤ 1) : join flags &&& mask = (classes flags).headD 0 := by
  induction flags with
  | nil => simp
  | cons flag flags ih =>
    have rest := ih fun other member => fit other (List.mem_cons_of_mem flag member)
    have here := fit flag List.mem_cons_self
    rw [join_cons, or_and]
    cases flag with
    | bit w =>
      rw [classes_bit] at single ⊢
      rw [rest single, value, here.2, UInt8.zero_or]
    | ofClass w =>
      have others : classes flags = [] := by
        simpa using single
      rw [others] at rest
      rw [rest (Nat.zero_le 1), value, here.and_mask]
      exact UInt8.or_zero

end Flag

namespace Encoding

variable {e : Encoding} {d after : Draft} {s u : String} {flag : Flag}

theorem fits_of_get? (mapped : e.get? s = some flag) : flag.Fits e.mask :=
  Flag.allowed_iff_fits.mp (e.fits s flag mapped)

theorem get?_injective (first : e.get? s = some flag) (second : e.get? u = some flag) : s = u :=
  e.apart s u flag first second

theorem Draft.mask_of_add (added : d.add s flag = .ok after) : after.mask = d.mask := by
  unfold add at added
  split at added
  · split at added
    · cases added
    · split at added
      · cases added
      · cases added
        rfl
  · cases added

theorem Draft.mask_of_addAll {entries : List (String × Flag)}
    (added : d.addAll entries = .ok after) : after.mask = d.mask := by
  induction entries generalizing d with
  | nil =>
    cases added
    rfl
  | cons entry entries ih =>
    obtain ⟨s, flag⟩ := entry
    unfold addAll at added
    split at added
    · cases added
    · rename_i next ok
      rw [ih added, mask_of_add ok]

theorem mask_of_ofEntries {mask : UInt8} {entries : List (String × Flag)}
    (encoded : ofEntries mask entries = .ok e) : e.mask = mask := by
  unfold ofEntries at encoded
  cases filled : (Draft.empty mask).addAll entries with
  | error fault =>
    rw [filled] at encoded
    cases encoded
  | ok d =>
    rw [filled] at encoded
    cases encoded
    exact Draft.mask_of_addAll filled

end Encoding
end CharTable
