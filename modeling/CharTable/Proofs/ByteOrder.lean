import CharTable.Text
import Mathlib.Tactic.SplitIfs

/-!
The order of texts. Texts are compared by their code points; the bytes of their UTF-8 forms compare
alike, because forms of different characters part at a byte where both go on, and there the greater
character has the greater byte.
-/
namespace CharTable.Utf8

theorem encode_eq_flatMap (s : String) : encode s = s.toList.flatMap String.utf8EncodeChar := by
  rw [encode, ← String.utf8Encode_toList]
  simp [List.utf8Encode]

theorem ofNat_cons_lt {m n : Nat} {first second : List UInt8} (left : m < 256) (right : n < 256) :
    UInt8.ofNat m :: first < UInt8.ofNat n :: second ↔ m < n ∨ m = n ∧ first < second := by
  rw [List.cons_lt_cons_iff, UInt8.lt_iff_toNat_lt, ← UInt8.toNat_inj,
    UInt8.toNat_ofNat_of_lt' left, UInt8.toNat_ofNat_of_lt' right]

theorem div_lt_or_mod_lt {m n : Nat} (less : m < n) (base : Nat) :
    m / base < n / base ∨ m / base = n / base ∧ m % base < n % base := by
  rcases Nat.lt_or_eq_of_le (Nat.div_le_div_right (c := base) (Nat.le_of_lt less)) with above | same
  · exact Or.inl above
  · have first := Nat.div_add_mod m base
    have second := Nat.div_add_mod n base
    rw [same] at first
    omega

/-- Forms of different characters are ordered whatever follows them. -/
theorem char_append_lt {c d : Char} (less : c < d) (first second : List UInt8) :
    String.utf8EncodeChar c ++ first < String.utf8EncodeChar d ++ second := by
  have below : c.val.toNat < d.val.toNat := less
  have small : d.val.toNat < 1114112 := by
    have valid : d.val.toNat.isValidChar := d.valid
    unfold Nat.isValidChar at valid
    omega
  unfold String.utf8EncodeChar
  dsimp only
  -- A longer form begins with a greater byte; forms of one length are numbers in base 64.
  split_ifs <;> simp (disch := omega) only [List.cons_append, List.nil_append,
    ofNat_cons_lt] <;> try omega
  -- Between two forms of four bytes the first digit that differs decides.
  obtain lead | ⟨lead, rest⟩ := div_lt_or_mod_lt below 262144
  · omega
  · obtain next | ⟨next, last⟩ := div_lt_or_mod_lt rest 4096
    · omega
    · omega

/-- The encoding keeps the order: the first character that differs decides it, by its own bytes. -/
theorem flatMap_lt {first second : List Char} (less : first < second) :
    first.flatMap String.utf8EncodeChar < second.flatMap String.utf8EncodeChar := by
  change List.Lex (· < ·) first second at less
  induction less with
  | @nil d rest =>
    rw [List.flatMap_cons]
    cases form : String.utf8EncodeChar d with
    | nil => exact absurd form String.utf8EncodeChar_ne_nil
    | cons b others => exact .nil
  | @cons c first second _ ih =>
    rw [List.flatMap_cons, List.flatMap_cons]
    exact List.append_left_lt ih
  | @rel c first d second above =>
    rw [List.flatMap_cons, List.flatMap_cons]
    exact char_append_lt above _ _

/-- Texts are ordered as their bytes are. -/
theorem encode_lt_iff {s u : String} : encode s < encode u ↔ s < u := by
  rw [encode_eq_flatMap, encode_eq_flatMap]
  constructor
  · intro less
    apply String.not_le.mp
    intro above
    rcases Decidable.em (u < s) with strict | equal
    · exact List.lt_asymm less (flatMap_lt strict)
    · rw [String.le_antisymm (String.not_lt.mp equal) above] at less
      exact List.lt_irrefl _ less
  · exact flatMap_lt

end CharTable.Utf8
