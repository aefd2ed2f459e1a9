import CharTable.Proofs.Binary
import CharTable.Proofs.Document.Layout

/-!
Stored forms that are cut short. The binary form has one length, and the document closes its first
bracket with its last byte only; so no beginning of either one, wherever it ends, can be taken for a
table.
-/
namespace CharTable.Packed

namespace Document
open Json Ascii Grammar

theorem not_mem_intercalate {b : UInt8} {between : List UInt8} {items : List (List UInt8)}
    (apart : b ∉ between) (each : ∀ item ∈ items, b ∉ item) : b ∉ between.intercalate items := by
  induction items with
  | nil => simp
  | cons item items ih =>
    obtain ⟨here, later⟩ := List.forall_mem_cons.mp each
    cases items with
    | nil => simpa using here
    | cons next items =>
      rw [List.intercalate_cons_cons, List.mem_append, List.mem_append, not_or, not_or]
      exact ⟨⟨here, apart⟩, ih later⟩

theorem brace_not_mem_decimal (n : Nat) : code '\x7d' ∉ decimal n := by
  intro member
  have digit := (digits_decimal n).2 _ member
  exact absurd digit (by decide)

theorem brace_not_mem_cells (flags : List UInt8) : code '\x7d' ∉ cells flags := by
  apply not_mem_intercalate (by decide)
  intro cell listed
  obtain ⟨b, _, rfl⟩ := List.mem_map.mp listed
  rw [List.mem_append, not_or]
  exact ⟨by decide, brace_not_mem_decimal b.toNat⟩

/-- The closing bracket of the document is its last byte and stands nowhere else in it. -/
theorem write_eq_braced (p : Packed) :
    ∃ body, write p = code '\x7b' :: body ++ [code '\x7d'] ∧ code '\x7d' ∉ code '\x7b' :: body := by
  have opened : Utf8.encode "\x7b\n  \"class_mask\": " = code '\x7b' ::
      Utf8.encode "\n  \"class_mask\": " := by
    decide
  have closed : Utf8.encode "\n  ]\n\x7d" = Utf8.encode "\n  ]\n" ++ [code '\x7d'] := by decide
  refine ⟨Utf8.encode "\n  \"class_mask\": " ++ decimal p.mask.toNat ++
    Utf8.encode ",\n  \"flags\": [\n" ++ cells p.flags.toList ++ Utf8.encode "\n  ]\n", ?_, ?_⟩
  · rw [write, opened, closed]
    simp
  · simp only [List.mem_cons, List.mem_append, not_or]
    exact ⟨by decide,
      ⟨⟨⟨by decide, brace_not_mem_decimal _⟩, by decide⟩, brace_not_mem_cells _⟩, by decide⟩

theorem brace_mem_of_objectForm {p : Packed} {text : List UInt8}
    (form : ObjectForm p text) : code '\x7d' ∈ text := by
  obtain ⟨_, _, _, _, rfl⟩ := form
  simp

/-- The first byte behind the blanks tells the two forms apart. -/
theorem not_prefix_of_pairForm {p : Packed} {gap text after body : List UInt8} (blank : Blanks gap)
    (form : PairForm p text) : ¬ gap ++ text ++ after <+: code '\x7b' :: body := by
  obtain ⟨_, _, _, _, rfl⟩ := form
  intro front
  cases gap with
  | nil =>
    rw [List.nil_append, List.cons_append, List.cons_prefix_cons] at front
    exact absurd front.1 (by decide)
  | cons b gap =>
    rw [List.cons_append, List.cons_append, List.cons_prefix_cons] at front
    have listed := blank b List.mem_cons_self
    rw [front.1] at listed
    exact absurd listed (by decide)

/-- A beginning of a written document that denotes any table is all of it. -/
theorem eq_write_of_describes {p q : Packed} {data : List UInt8} (front : data <+: write p)
    (described : Describes data q) : data = write p := by
  obtain ⟨body, braced, unclosed⟩ := write_eq_braced p
  rw [braced, List.prefix_concat_iff] at front
  rcases front with whole | cut
  · rw [whole, braced]
  · obtain ⟨gap, text, after, blank, form, _, rfl⟩ := described
    rcases form with object | pair
    · -- What is cut off takes the closing bracket with it.
      have closed : code '\x7d' ∈ gap ++ text ++ after := by simp [brace_mem_of_objectForm object]
      exact absurd (cut.subset closed) unclosed
    · exact absurd cut (not_prefix_of_pairForm blank pair)

theorem read_cut {p : Packed} {data : List UInt8} (front : data <+: write p)
    (cut : data ≠ write p) : ∃ stop, read data = .error stop := by
  cases ok : read data with
  | error stop => exact ⟨stop, rfl⟩
  | ok q => exact absurd (eq_write_of_describes front (describes_of_read ok)) cut

end Document

namespace Binary

theorem read_cut {p : Packed} {data : List UInt8} (front : data <+: write p)
    (cut : data ≠ write p) : read data = .error (.tooShort data.length) := by
  apply read_short
  by_contra long
  apply cut
  apply front.eq_of_length_le
  rw [length_write]
  exact Nat.not_lt.mp long

end Binary

/-- A file that holds less than all of either written form is refused, so that a save that was
interrupted is never read back as a table, neither as the one that was saved nor as another. -/
theorem truncated_refused (p : Packed) :
    (∀ data, data <+: Document.write p → data ≠ Document.write p →
      ∃ stop, Document.read data = .error stop) ∧
      ∀ data, data <+: Binary.write p → data ≠ Binary.write p →
        Binary.read data = .error (.tooShort data.length) :=
  ⟨fun _ => Document.read_cut, fun _ => Binary.read_cut⟩

def wideMasked : Packed := ⟨128, Vector.replicate 256 0⟩

theorem write_wideMasked : ∃ rest, Document.write wideMasked =
    Utf8.encode "\x7b\n  \"class_mask\": 12" ++ Ascii.code '8' :: rest := by
  have codes : Utf8.encode "12" = [49, 50] ∧ Ascii.code '8' = 56 := by decide
  have digits : Ascii.decimal 128 = Utf8.encode "12" ++ [Ascii.code '8'] := by
    simp [Ascii.decimal, codes]
  have opened : Utf8.encode "\x7b\n  \"class_mask\": 12" =
      Utf8.encode "\x7b\n  \"class_mask\": " ++ Utf8.encode "12" := by decide
  rw [Document.write, show wideMasked.mask.toNat = 128 from rfl, digits, opened]
  simp only [List.append_assoc, List.cons_append, List.nil_append]
  exact ⟨_, rfl⟩

/-- What is left after two digits of the mask, and a binary form that lacks its last flag. -/
theorem truncated_wideMasked :
    (∃ stop, Document.read (Utf8.encode "\x7b\n  \"class_mask\": 12") = .error stop) ∧
      Binary.read ((Binary.write wideMasked).take 267) = .error (.tooShort 267) := by
  obtain ⟨document, binary⟩ := truncated_refused wideMasked
  constructor
  · obtain ⟨rest, split⟩ := write_wideMasked
    apply document
    · rw [split]
      apply List.prefix_append
    · rw [split]
      simp
  · have size : ((Binary.write wideMasked).take 267).length = 267 := by simp [Binary.length_write]
    have short := binary _ (List.take_prefix 267 _) fun whole => by
      rw [whole, Binary.length_write] at size
      cases size
    rwa [size] at short

end CharTable.Packed
