import CharTable.Packed
import Mathlib.Data.List.Basic

/-!
Reading the binary form inverts writing it: a table is read where its written bytes stand in front,
and from no other bytes. Each refusal has its own condition, and a later one presumes that the
earlier ones do not hold.
-/
namespace CharTable.Packed.Binary

def littleEndian (a b c d : UInt8) : Nat :=
  a.toNat + 256 * b.toNat + 65536 * c.toNat + 16777216 * d.toNat

theorem wordValue_four (a b c d : UInt8) : wordValue [a, b, c, d] = littleEndian a b c d := by
  simp only [wordValue, littleEndian]
  omega

theorem word_toNat (b : UInt8) : word b.toNat = [b, 0, 0, 0] := by
  have small : b.toNat < 256 := b.toNat_lt
  simp [word, Nat.div_eq_of_lt, small, Nat.lt_trans small]

/-- A word fits in a byte exactly if it is its lowest byte. -/
theorem littleEndian_lt_iff {a b c d : UInt8} :
    littleEndian a b c d < 256 ↔ b = 0 ∧ c = 0 ∧ d = 0 := by
  have small : a.toNat < 256 := a.toNat_lt
  simp only [← UInt8.toNat_inj, UInt8.toNat_zero, littleEndian]
  omega

theorem length_magic : magic.length = 8 := by decide

theorem write_eq (p : Packed) : write p = magic ++ p.mask :: 0 :: 0 :: 0 :: p.flags.toList := by
  simp [write, word_toNat]

theorem length_write (p : Packed) : (write p).length = 268 := by
  simp [write_eq, length_magic]

/-- Bytes that are long enough have all parts of the form. -/
theorem exists_parts {data : List UInt8} (enough : size ≤ data.length) : ∃ head a b c d rest,
    head.length = 8 ∧ 256 ≤ rest.length ∧ data = head ++ a :: b :: c :: d :: rest := by
  have eight : (data.take 8).length = 8 := by simp [size] at enough ⊢; omega
  have long : 260 ≤ (data.drop 8).length := by simp [size] at enough ⊢; omega
  match found : data.drop 8, long with
  | a :: b :: c :: d :: rest, long =>
    exact ⟨data.take 8, a, b, c, d, rest,
      eight, by simpa using long, by rw [← found, List.take_append_drop]⟩

theorem read_parts {head rest : List UInt8} {a b c d : UInt8} (eight : head.length = 8)
    (long : 256 ≤ rest.length) :
    read (head ++ a :: b :: c :: d :: rest) =
      if head = magic then
        if littleEndian a b c d < 256 then
          .ok ⟨UInt8.ofNat (littleEndian a b c d),
            ⟨(rest.take 256).toArray, List.length_take_of_le long⟩⟩
        else .error .wideMask
      else .error .badMagic := by
  have enough : size ≤ (head ++ a :: b :: c :: d :: rest).length := by simp [size]; omega
  have front : (head ++ a :: b :: c :: d :: rest).take 8 = head := List.take_left' eight
  have behind : (head ++ a :: b :: c :: d :: rest).drop 8 = a :: b :: c :: d :: rest :=
    List.drop_left' eight
  have flags : (head ++ a :: b :: c :: d :: rest).drop 12 = rest := by
    rw [show 12 = 8 + 4 from rfl, ← List.drop_drop, behind]
    rfl
  rw [read, dif_pos enough]
  simp only [front, behind, flags, List.take_succ_cons, List.take_zero, wordValue_four]

theorem read_short {data : List UInt8} (short : data.length < size) :
    read data = .error (.tooShort data.length) := by
  rw [read, dif_neg (Nat.not_le.mpr short)]

inductive Outcome (data : List UInt8) : Except Refusal Packed → Prop
  | tooShort (short : data.length < 268) : Outcome data (.error (.tooShort data.length))
  | badMagic (enough : 268 ≤ data.length) (unlike : ¬ magic <+: data) :
      Outcome data (.error .badMagic)
  | wideMask {a b c d : UInt8} {rest : List UInt8}
      (parts : data = magic ++ a :: b :: c :: d :: rest) (long : 256 ≤ rest.length)
      (wide : 255 < littleEndian a b c d) : Outcome data (.error .wideMask)
  | table {p : Packed} (front : write p <+: data) : Outcome data (.ok p)

/-- Whatever is read ends in one of the four ways. -/
theorem outcome_read (data : List UInt8) : Outcome data (read data) := by
  by_cases enough : size ≤ data.length
  · obtain ⟨head, a, b, c, d, rest, eight, long, rfl⟩ := exists_parts enough
    rw [read_parts eight long]
    split
    · rename_i same
      subst same
      split
      · rename_i narrow
        obtain ⟨rfl, rfl, rfl⟩ := littleEndian_lt_iff.mp narrow
        refine .table ⟨rest.drop 256, ?_⟩
        simp [write_eq, littleEndian, Vector.toList]
      · rename_i wide
        exact .wideMask rfl long (Nat.not_lt.mp wide)
    · rename_i unlike
      refine .badMagic enough fun front => unlike ?_
      rw [List.prefix_iff_eq_take.mp front, length_magic, List.take_left' eight]
  · rw [read_short (Nat.not_le.mp enough)]
    exact .tooShort (Nat.not_le.mp enough)

theorem read_of_prefix {data : List UInt8} {p : Packed}
    (front : write p <+: data) : read data = .ok p := by
  obtain ⟨more, rfl⟩ := front
  have long : 256 ≤ (p.flags.toList ++ more).length := by simp
  have narrow : littleEndian p.mask 0 0 0 < 256 := littleEndian_lt_iff.mpr ⟨rfl, rfl, rfl⟩
  rw [write_eq, List.append_assoc]
  simp only [List.cons_append]
  rw [read_parts length_magic long, if_pos rfl, if_pos narrow]
  simp [littleEndian, Vector.toList]

theorem read_of_outcome {data : List UInt8} {result : Except Refusal Packed}
    (outcome : Outcome data result) : read data = result := by
  cases outcome with
  | tooShort short => exact read_short short
  | badMagic enough unlike =>
    obtain ⟨head, a, b, c, d, rest, eight, long, rfl⟩ := exists_parts enough
    rw [read_parts eight long, if_neg]
    rintro rfl
    exact unlike (List.prefix_append _ _)
  | wideMask parts long wide =>
    rw [parts, read_parts length_magic long, if_pos rfl, if_neg (Nat.not_lt.mpr wide)]
  | table front => exact read_of_prefix front

/-- The result is the one outcome that the bytes allow. -/
theorem read_eq_iff {data : List UInt8} {result : Except Refusal Packed} :
    read data = result ↔ Outcome data result :=
  ⟨fun same => same ▸ outcome_read data, read_of_outcome⟩

theorem outcome_ok_iff {data : List UInt8} {p : Packed} : Outcome data (.ok p) ↔ write p <+: data :=
  ⟨fun | .table front => front, .table⟩

theorem outcome_tooShort_iff {data : List UInt8} {n : Nat} :
    Outcome data (.error (.tooShort n)) ↔ data.length < 268 ∧ n = data.length := by
  constructor
  · rintro ⟨short⟩
    exact ⟨short, rfl⟩
  · rintro ⟨short, rfl⟩
    exact .tooShort short

theorem outcome_badMagic_iff {data : List UInt8} :
    Outcome data (.error .badMagic) ↔ 268 ≤ data.length ∧ ¬ magic <+: data :=
  ⟨fun | .badMagic enough unlike => ⟨enough, unlike⟩,
    fun ⟨enough, unlike⟩ => .badMagic enough unlike⟩

theorem outcome_wideMask_iff {data : List UInt8} : Outcome data (.error .wideMask) ↔ ∃ a b c d rest,
    data = magic ++ a :: b :: c :: d :: rest ∧ 256 ≤ rest.length ∧ 255 < littleEndian a b c d :=
  ⟨fun | .wideMask parts long wide => ⟨_, _, _, _, _, parts, long, wide⟩,
    fun ⟨_, _, _, _, _, parts, long, wide⟩ => .wideMask parts long wide⟩

/-- What follows the form has no influence. -/
theorem read_take (data : List UInt8) : read (data.take 268) = read data := by
  by_cases enough : size ≤ data.length
  · obtain ⟨head, a, b, c, d, rest, eight, long, rfl⟩ := exists_parts enough
    have cut : (head ++ a :: b :: c :: d :: rest).take 268 =
        head ++ a :: b :: c :: d :: rest.take 256 := by
      rw [List.take_append, List.take_of_length_le (by omega), eight]
      rfl
    have kept : 256 ≤ (rest.take 256).length := by simp [long]
    rw [cut, read_parts eight kept, read_parts eight long]
    simp only [List.take_take, Nat.min_self]
  · have whole : data.take 268 = data :=
      List.take_of_length_le (Nat.le_of_lt (Nat.not_le.mp enough))
    rw [whole]

/-- Reading inverts writing: a table comes from exactly the bytes that start with its written form,
and every other input is refused for its length, else for its magic, else for its mask. -/
theorem read_inverse_write (data : List UInt8) (p : Packed) :
    (write p).length = 268 ∧ (read data = .ok p ↔ write p <+: data) ∧ read (write p) = .ok p ∧
      (read data = .ok p → write p = data.take 268) ∧ read (data.take 268) = read data ∧
      (∀ n, read data = .error (.tooShort n) ↔ data.length < 268 ∧ n = data.length) ∧
      (read data = .error .badMagic ↔ 268 ≤ data.length ∧ ¬ magic <+: data) ∧
      (read data = .error .wideMask ↔
        ∃ a b c d rest, data = magic ++ a :: b :: c :: d :: rest ∧ 256 ≤ rest.length ∧
          255 < littleEndian a b c d) := by
  have resaved (ok : read data = .ok p) : write p = data.take 268 := by
    have front := List.prefix_iff_eq_take.mp (outcome_ok_iff.mp (read_eq_iff.mp ok))
    rwa [length_write] at front
  exact ⟨length_write p, read_eq_iff.trans outcome_ok_iff, read_of_prefix List.prefix_rfl, resaved,
    read_take data, fun _ => read_eq_iff.trans outcome_tooShort_iff,
    read_eq_iff.trans outcome_badMagic_iff, read_eq_iff.trans outcome_wideMask_iff⟩

end CharTable.Packed.Binary
