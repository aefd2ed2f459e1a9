import CharTable.Rule
import Mathlib.Data.List.Induction
import Std.Data.String.ToNat

/-!
The text of a rule, taken apart from its end. A byte is written as digits or between quotes, and
what is written so ends no other such text behind a mark that is no digit; so the last byte of a
rule can be read off, then the one before it, and what is left is the tag, whatever it spells.
-/
namespace CharTable

namespace Hex

theorem digit_injective {m n : Nat} (left : m < 16) (right : n < 16)
    (same : digit m = digit n) : m = n := by
  have apart : ∀ k < 16, ∀ l < 16, digit k = digit l → k = l := by decide
  exact apart m left n right same

theorem quote_ne_digit {n : Nat} (small : n < 16) : '\x27' ≠ digit n := by
  have apart : ∀ k < 16, '\x27' ≠ digit k := by decide
  exact apart n small

theorem digits_ne_nil (n : Nat) : digits n ≠ [] := by
  rw [digits]
  split <;> simp

theorem digits_append_ne_singleton (n : Nat) (c d : Char) : digits n ++ [c] ≠ [d] := by
  intro same
  have lengths := congrArg List.length same
  exact digits_ne_nil n (by simpa using lengths)

/-- Numbers are told apart by their digits. -/
theorem digits_injective {m n : Nat} (same : digits m = digits n) : m = n := by
  induction m using Nat.strongRecOn generalizing n with
  | _ m ih =>
    rw [digits, digits.eq_1 n] at same
    split_ifs at same with left right
    · exact digit_injective left right (List.singleton_inj.mp same)
    · exact absurd same.symm (digits_append_ne_singleton _ _ _)
    · exact absurd same (digits_append_ne_singleton _ _ _)
    · obtain ⟨high, low⟩ := List.append_inj' same rfl
      have quotients := ih (m / 16) (by omega) high
      have remainders :=
        digit_injective (Nat.mod_lt m (by decide)) (Nat.mod_lt n (by decide))
          (List.singleton_inj.mp low)
      omega

theorem quote_not_mem_digits (n : Nat) : '\x27' ∉ digits n := by
  induction n using Nat.strongRecOn with
  | _ n ih =>
    rw [digits]
    split
    · rename_i small
      simpa using quote_ne_digit small
    · rename_i large
      rw [List.mem_append, not_or]
      exact ⟨ih (n / 16) (by omega), by simpa using quote_ne_digit (Nat.mod_lt n (by decide))⟩

end Hex

namespace Quoted

def letters : List (Char × Char) :=
  [('\x00', '0'), ('\t', 't'), ('\r', 'r'), ('\n', 'n'), ('\\', '\\'), ('\x27', '\x27')]

theorem letters_unique {c d l : Char} (first : (c, l) ∈ letters)
    (second : (d, l) ∈ letters) : c = d := by
  have apart : ∀ p ∈ letters, ∀ q ∈ letters, p.2 = q.2 → p.1 = q.1 := by decide
  exact apart _ first _ second rfl

inductive Escaped : Char → List Char → Prop
  | letter {c l : Char} (listed : (c, l) ∈ letters) : Escaped c ['\\', l]
  | code (c : Char) : Escaped c ('\\' :: 'u' :: '\x7b' :: Hex.digits c.toNat ++ ['\x7d'])
  | plain {c : Char} (ordinary : c ≠ '\\') (inside : c ≠ '\x27') : Escaped c [c]

theorem escaped (c : Char) : Escaped c (escape '\x27' c) := by
  unfold escape
  split_ifs with nul tab carriage newline special invisible
  · exact .letter (by simp [nul, letters])
  · exact .letter (by simp [tab, letters])
  · exact .letter (by simp [carriage, letters])
  · exact .letter (by simp [newline, letters])
  · rcases special with rfl | rfl
    · exact .letter (by decide)
    · exact .letter (by decide)
  · exact .code c
  · obtain ⟨ordinary, inside⟩ := not_or.mp special
    exact .plain ordinary inside

theorem Escaped.unique {c d : Char} {written : List Char} (first : Escaped c written)
    (second : Escaped d written) : c = d := by
  generalize same : written = other at second
  cases first with
  | letter listed =>
    cases second with
    | letter also =>
      obtain rfl : _ = _ := by simpa using same
      exact letters_unique listed also
    | code => simp at same
    | plain => simp at same
  | code =>
    cases second with
    | letter => simp at same
    | code =>
      have digits := Hex.digits_injective (by simpa using same)
      exact Char.toNat_inj.mp digits
    | plain => simp at same
  | plain =>
    cases second with
    | letter => simp at same
    | code => simp at same
    | plain => simpa using same

theorem Escaped.ne_nil {c : Char} {written : List Char}
    (way : Escaped c written) : written ≠ [] := by
  cases way <;> simp

theorem Escaped.of_quote_mem {c : Char} {written : List Char} (way : Escaped c written)
    (inside : '\x27' ∈ written) : written = ['\\', '\x27'] := by
  cases way with
  | letter listed =>
    simp at inside
    rw [inside]
  | code => simp [Hex.quote_not_mem_digits] at inside
  | plain _ apart => exact absurd (List.mem_singleton.mp inside).symm apart

/-- A quote behind the first one is escaped, and an escaped quote leaves no room for another
character. -/
theorem unclosed_ne_append (c d mark : Char) (front : List Char) :
    '\x27' :: escape '\x27' c ≠ front ++ mark :: '\x27' :: escape '\x27' d := by
  intro same
  have some := List.length_pos_iff.mpr (escaped d).ne_nil
  cases front with
  | nil =>
    have two := (escaped c).of_quote_mem (by simp [(List.cons.inj same).2])
    simp [two] at same
  | cons first front =>
    have two := (escaped c).of_quote_mem (by simp [(List.cons.inj same).2])
    have lengths := congrArg List.length same
    simp only [two, List.length_cons, List.length_append, List.length_nil] at lengths
    omega

end Quoted

namespace ByteSpec

def written (spec : ByteSpec) : List Char := spec.text.toList

theorem written_char (c : Char) :
    (char c).written = '\x27' :: Quoted.escape '\x27' c ++ ['\x27'] := by
  simp [written, text, Quoted.char, Quoted.enclose]

theorem written_code (n : UInt32) : (code n).written = Nat.toDigits 10 n.toNat := by
  rw [written, text]
  exact Nat.toList_repr

theorem isDigit_of_mem_written {n : UInt32} {c : Char}
    (inside : c ∈ (code n).written) : c.isDigit = true := by
  rw [written_code] at inside
  exact Nat.isDigit_of_mem_toDigits (by decide) (by decide) inside

theorem written_ne_nil (spec : ByteSpec) : spec.written ≠ [] := by
  cases spec with
  | char c => simp [written_char]
  | code n =>
    rw [written_code]
    exact Nat.toDigits_ne_nil

theorem written_injective {first second : ByteSpec}
    (same : first.written = second.written) : first = second := by
  have digitless (c : Char) (n : UInt32) : (char c).written ≠ (code n).written := by
    intro equal
    have digit : ('\x27').isDigit = true := by
      apply isDigit_of_mem_written (n := n)
      rw [← equal, written_char]
      simp
    cases digit
  cases first with
  | char c =>
    cases second with
    | char d =>
      have inner : Quoted.escape '\x27' c = Quoted.escape '\x27' d := by
        simpa [written_char] using same
      rw [Quoted.Escaped.unique (Quoted.escaped c) (inner ▸ Quoted.escaped d)]
    | code n => exact absurd same (digitless c n)
  | code m =>
    cases second with
    | char d => exact absurd same.symm (digitless d m)
    | code n =>
      have texts : m.toNat.repr = n.toNat.repr := String.toList_inj.mp same
      rw [UInt32.toNat_inj.mp (Nat.repr_injective texts)]

/-- The text of a byte ends in a quote if it is a character and in a digit if it is a code. -/
theorem getLast?_written (spec : ByteSpec) : ∃ c, spec.written.getLast? = some c ∧
    ((∃ d, spec = char d) ∧ c = '\x27' ∨ (∃ n, spec = code n) ∧ c.isDigit = true) := by
  cases spec with
  | char d => exact ⟨'\x27', by rw [written_char, List.getLast?_concat], Or.inl ⟨⟨d, rfl⟩, rfl⟩⟩
  | code n =>
    have some := List.getLast?_eq_some_getLast (written_ne_nil (code n))
    exact ⟨_, some, Or.inr ⟨⟨n, rfl⟩, isDigit_of_mem_written (List.getLast_mem _)⟩⟩

theorem getLast?_append (spec : ByteSpec) (front : List Char) :
    (front ++ spec.written).getLast? = spec.written.getLast? := by
  obtain ⟨c, ends, _⟩ := getLast?_written spec
  rw [List.getLast?_append, ends, Option.some_or]

theorem append_written_ne_concat {c : Char} (quoteless : c ≠ '\x27') (plain : c.isDigit = false)
    (spec : ByteSpec) (front rest : List Char) : front ++ spec.written ≠ rest ++ [c] := by
  intro same
  obtain ⟨final, ends, kind⟩ := getLast?_written spec
  rw [← getLast?_append spec front, same, List.getLast?_concat] at ends
  obtain rfl : c = final := Option.some.inj ends
  rcases kind with ⟨_, quote⟩ | ⟨_, digit⟩
  · exact quoteless quote
  · rw [plain] at digit
    cases digit

/-- A mark that is no digit, and a byte behind it, do not end the text of a byte. -/
theorem written_ne_append {mark : Char} (plain : mark.isDigit = false) (whole last : ByteSpec)
    (front : List Char) : whole.written ≠ front ++ mark :: last.written := by
  intro same
  cases whole with
  | code n =>
    have digit : mark.isDigit = true := isDigit_of_mem_written (n := n) (by simp [same])
    rw [plain] at digit
    cases digit
  | char c =>
    have ends : last.written.getLast? = some '\x27' := by
      rw [← getLast?_append last (front ++ [mark]), List.append_assoc, List.singleton_append,
        ← same, written_char, List.getLast?_concat]
    obtain ⟨final, found, ⟨⟨d, rfl⟩, _⟩ | ⟨_, digit⟩⟩ := getLast?_written last
    · rw [written_char, written_char, ← List.cons_append, ← List.append_assoc] at same
      exact Quoted.unclosed_ne_append c d mark front (List.append_cancel_right same)
    · cases ends.symm.trans found
      cases digit

/-- The last byte of a text, behind a mark that is no digit, can be read off. -/
theorem last_unique {mark other : Char} (plain : mark.isDigit = false)
    (clean : other.isDigit = false) {first second : ByteSpec} {front rest : List Char}
    (same : front ++ mark :: first.written = rest ++ other :: second.written) :
    front = rest ∧ mark = other ∧ first = second := by
  rcases List.append_eq_append_iff.mp same with ⟨more, rfl, tails⟩ | ⟨more, rfl, tails⟩
  · cases more with
    | nil =>
      obtain ⟨marks, texts⟩ := List.cons.inj tails
      exact ⟨by simp, marks, written_injective texts⟩
    | cons c more =>
      exact absurd (List.cons.inj tails).2 (written_ne_append clean first second more)
  · cases more with
    | nil =>
      obtain ⟨marks, texts⟩ := List.cons.inj tails
      exact ⟨by simp, marks.symm, (written_injective texts).symm⟩
    | cons c more =>
      exact absurd (List.cons.inj tails).2 (written_ne_append plain second first more)

end ByteSpec

namespace Rule
open ByteSpec (last_unique append_written_ne_concat)

def opened (bytes : List ByteSpec) : List Char :=
  '\x7b' :: [',', ' '].intercalate (bytes.map ByteSpec.written)

/-- What a further byte stands behind: the brace alone, or the bytes up to the blank before it. -/
def mark : List ByteSpec → Char
  | [] => '\x7b'
  | _ :: _ => ' '

def lead : List ByteSpec → List Char
  | [] => []
  | first :: bytes => opened (first :: bytes) ++ [',']

theorem isDigit_mark (bytes : List ByteSpec) : (mark bytes).isDigit = false := by
  cases bytes <;> rfl

theorem intercalate_concat (mark first : List Char) (others : List (List Char)) (last : List Char) :
    mark.intercalate (first :: others ++ [last]) = mark.intercalate (first :: others) ++
        mark ++ last := by
  induction others generalizing first with
  | nil => simp
  | cons next others ih =>
    rw [List.cons_append, List.cons_append, List.intercalate_cons_cons, ← List.cons_append, ih]
    simp

theorem opened_concat (bytes : List ByteSpec) (last : ByteSpec) :
    opened (bytes ++ [last]) = lead bytes ++ mark bytes :: last.written := by
  cases bytes with
  | nil => simp [opened, lead, mark]
  | cons first bytes =>
    rw [opened, List.map_append, List.map_cons, List.map_singleton, intercalate_concat]
    simp [opened, lead, mark]

theorem append_opened_concat (front : List Char) (bytes : List ByteSpec) (last : ByteSpec) :
    front ++ opened (bytes ++ [last]) = (front ++ lead bytes) ++ mark bytes :: last.written := by
  rw [opened_concat, List.append_assoc]

theorem opened_nil_ne_concat (front rest : List Char) (bytes : List ByteSpec) (last : ByteSpec) :
    front ++ opened (bytes ++ [last]) ≠ rest ++ opened [] := by
  rw [append_opened_concat, List.append_cons]
  exact append_written_ne_concat (by decide) (by decide) last _ rest

/-- Behind any text, which may itself look like bytes, a brace and the bytes after it stand out. -/
theorem opened_unique {first second : List ByteSpec} {front rest : List Char}
    (same : front ++ opened first = rest ++ opened second) : front = rest ∧ first = second := by
  -- From the last bytes to the first ones, as each is read off behind the mark before it.
  induction first using List.reverseRecOn generalizing second with
  | nil =>
    cases second using List.reverseRecOn with
    | nil => exact ⟨List.append_cancel_right same, rfl⟩
    | append_singleton second other =>
      exact absurd same.symm (opened_nil_ne_concat rest front second other)
  | append_singleton first last ih =>
    cases second using List.reverseRecOn with
    | nil => exact absurd same (opened_nil_ne_concat front rest first last)
    | append_singleton second other =>
      rw [append_opened_concat, append_opened_concat] at same
      obtain ⟨fronts, marks, rfl⟩ := last_unique (isDigit_mark first) (isDigit_mark second) same
      cases first with
      | nil =>
        cases second with
        | nil => exact ⟨by simpa [lead] using fronts, rfl⟩
        | cons => cases marks
      | cons earlier first =>
        cases second with
        | nil => cases marks
        | cons =>
          rw [lead, lead, ← List.append_assoc, ← List.append_assoc] at fronts
          obtain ⟨whole, bytes⟩ := ih (List.append_cancel_right fronts)
          exact ⟨whole, by rw [bytes]⟩

theorem toList_points (tag : String) (bytes : List ByteSpec) :
    (points tag bytes).text.toList = tag.toList ++ [' ', '@', ' '] ++ opened bytes ++ ['\x7d'] := by
  simp [text, opened, String.toList_intercalate, Function.comp_def]
  rfl

theorem toList_range (tag : String) (low high : ByteSpec) :
    (range tag low high).text.toList =
      tag.toList ++ [' ', '@'] ++ ' ' :: low.written ++ ['.', '.'] ++ '=' :: high.written := by
  simp [text, ByteSpec.written]

/-- A list of points never reads as a range: its text ends differently. -/
theorem points_ne_range (tag other : String) (bytes : List ByteSpec) (low high : ByteSpec) :
    (points tag bytes).text ≠ (range other low high).text := by
  intro same
  have texts := congrArg String.toList same
  rw [toList_points, toList_range, List.append_cons _ '=' high.written] at texts
  exact append_written_ne_concat (by decide) (by decide) high _ _ texts.symm

theorem range_unique {tag other : String} {low high lower upper : ByteSpec}
    (same : (range tag low high).text = (range other lower upper).text) :
    tag = other ∧ low = lower ∧ high = upper := by
  have texts := congrArg String.toList same
  rw [toList_range, toList_range] at texts
  obtain ⟨lows, _, highs⟩ := last_unique (by decide) (by decide) texts
  obtain ⟨tags, _, lows⟩ := last_unique (by decide) (by decide) (List.append_cancel_right lows)
  exact ⟨String.toList_inj.mp (List.append_cancel_right tags), lows, highs⟩

theorem points_unique {tag other : String} {bytes specs : List ByteSpec}
    (same : (points tag bytes).text = (points other specs).text) : tag = other ∧ bytes = specs := by
  have texts := congrArg String.toList same
  rw [toList_points, toList_points] at texts
  obtain ⟨tags, each⟩ := opened_unique (List.append_cancel_right texts)
  exact ⟨String.toList_inj.mp (List.append_cancel_right tags), each⟩

/-- Rules with the same text are the same rule: the same kind with the same tag and the same bytes
in the same order, where a character is not its code. -/
theorem text_inj {first second : Rule} : first.text = second.text ↔ first = second := by
  refine ⟨fun same => ?_, congrArg text⟩
  cases first with
  | points tag bytes =>
    cases second with
    | points other specs =>
      obtain ⟨rfl, rfl⟩ := points_unique same
      rfl
    | range other low high => exact absurd same (points_ne_range tag other bytes low high)
  | range tag low high =>
    cases second with
    | points other specs => exact absurd same.symm (points_ne_range other tag specs low high)
    | range other lower upper =>
      obtain ⟨rfl, rfl, rfl⟩ := range_unique same
      rfl

end Rule
end CharTable
