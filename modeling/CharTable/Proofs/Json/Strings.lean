import CharTable.Proofs.Json.Grammar

/-!
Strings are read as the grammar has them. A string ends at its own quote, so what follows never
matters, and each reader is described by what it takes off the front.
-/
namespace CharTable

theorem Utf8.decode?_eq_some_iff {bytes : List UInt8} {s : String} :
    decode? bytes = some s ↔ bytes = encode s := by
  constructor
  · intro decoded
    unfold decode? String.fromUTF8? at decoded
    split at decoded
    · cases decoded
      rfl
    · cases decoded
  · intro same
    rw [same, decode?_encode]

namespace Json.Grammar

theorem HexDigit.lt {b : UInt8} {v : Nat} (digit : HexDigit b v) : v < 16 := by
  rcases digit with found | found
  · exact (List.getElem?_eq_some_iff.mp found).1
  · exact (List.getElem?_eq_some_iff.mp found).1

theorem HexUnit.lt {digits : List UInt8} {n : Nat} (unit : HexUnit digits n) : n < 0x10000 := by
  cases unit with
  | digits first second third fourth =>
    have := first.lt
    have := second.lt
    have := third.lt
    have := fourth.lt
    omega

end Json.Grammar

namespace Json.Text
open Ascii Grammar

theorem hexDigit_eq_some_iff {b : UInt8} {v : Nat} : hexDigit b = some v ↔ HexDigit b v := by
  constructor
  · have sound : ∀ b : BitVec 8, ∀ v ∈ hexDigit ⟨b⟩, HexDigit ⟨b⟩ v := by
      unfold HexDigit
      decide +kernel
    exact sound b.toBitVec v
  · have complete (digits : List UInt8) (known : digits = Utf8.encode "0123456789abcdef" ∨
        digits = Utf8.encode "0123456789ABCDEF") :
        ∀ v < digits.length, ∀ b ∈ digits[v]?, hexDigit b = some v := by
      rcases known with rfl | rfl <;> decide +kernel
    intro listed
    rcases listed with found | found
    · exact complete _ (.inl rfl) v (List.getElem?_eq_some_iff.mp found).1 b found
    · exact complete _ (.inr rfl) v (List.getElem?_eq_some_iff.mp found).1 b found

theorem shortEscape_eq_some_iff {mark b : UInt8} :
    shortEscape mark = some b ↔ (mark, b) ∈ shorts := by
  have sound : ∀ mark : BitVec 8, ∀ b ∈ shortEscape ⟨mark⟩, (⟨mark⟩, b) ∈ shorts := by
    decide +kernel
  have complete : shorts.all (fun pair => shortEscape pair.1 = some pair.2) = true := by
    decide +kernel
  exact ⟨sound mark.toBitVec b, fun listed =>
    of_decide_eq_true (List.all_eq_true.mp complete (mark, b) listed)⟩

theorem hexUnit?_eq_some_iff {a b c d : UInt8} {n : Nat} :
    hexUnit? a b c d = some n ↔ HexUnit [a, b, c, d] n := by
  simp only [hexUnit?, Option.bind_eq_bind, Option.bind_eq_some_iff, hexDigit_eq_some_iff,
    Option.pure_def, Option.some.injEq]
  constructor
  · intro found
    obtain ⟨w, first, x, second, y, third, z, fourth, rfl⟩ := found
    exact .digits first second third fourth
  · intro unit
    cases unit with
    | digits first second third fourth => exact ⟨_, first, _, second, _, third, _, fourth, rfl⟩

theorem readUnit_eq_ok_iff {bytes rest : List UInt8} {n : Nat} :
    readUnit bytes = .ok (n, rest) ↔ ∃ digits, HexUnit digits n ∧ bytes = digits ++ rest := by
  constructor
  · intro ok
    unfold readUnit at ok
    split at ok
    · split at ok
      · rename_i found
        cases ok
        exact ⟨_, hexUnit?_eq_some_iff.mp found, rfl⟩
      · cases ok
    · cases ok
  · intro taken
    obtain ⟨_, unit, rfl⟩ := taken
    have found := unit
    cases unit with
    | digits first second third fourth =>
      simp only [List.cons_append, List.nil_append, readUnit]
      rw [hexUnit?_eq_some_iff.mpr found]

theorem readMark_eq_ok_iff {mark : UInt8} {bytes rest : List UInt8} :
    readMark mark bytes = .ok rest ↔ bytes = mark :: rest := by
  cases bytes with
  | nil => simp [readMark]
  | cons b bytes =>
    rw [readMark]
    by_cases same : b = mark
    · simp [same]
    · simp [same]

theorem toNat_ofNat {n : Nat} (valid : n.isValidChar) : (Char.ofNat n).toNat = n := by
  rw [Char.ofNat, dif_pos valid]
  rfl

/-- No character is half of a surrogate pair. -/
theorem not_surrogate (c : Char) : isLeading c.toNat = false ∧ isTrailing c.toNat = false := by
  have valid : c.toNat.isValidChar := c.valid
  simp only [isLeading, isTrailing, Bool.and_eq_false_iff, decide_eq_false_iff_not]
  unfold Nat.isValidChar at valid
  omega

/-- A unit is a character by itself, or the first of two surrogates with the second one behind
it. -/
theorem readCharacter_eq_ok_iff {n : Nat} (small : n < 0x10000)
    {bytes rest : List UInt8} {c : Char} :
    readCharacter n bytes = .ok (c, rest) ↔
      (n = c.toNat ∧ bytes = rest) ∨
        ∃ second high low, HexUnit second (0xdc00 + low) ∧ low < 0x400 ∧ n = 0xd800 + high ∧
          c.toNat = 0x10000 + high * 0x400 + low ∧
          bytes = backslash :: code 'u' :: (second ++ rest) := by
  constructor
  · intro ok
    unfold readCharacter at ok
    split at ok
    · cases ok
    rename_i alone
    split at ok
    · rename_i leading
      obtain ⟨afterFirst, slash, marked⟩ := bind_eq_ok.mp ok
      obtain ⟨afterSecond, mark, continued⟩ := bind_eq_ok.mp marked
      obtain ⟨⟨m, afterThird⟩, follows, done⟩ := bind_eq_ok.mp continued
      obtain ⟨second, unit, rfl⟩ := readUnit_eq_ok_iff.mp follows
      cases readMark_eq_ok_iff.mp slash
      cases readMark_eq_ok_iff.mp mark
      dsimp only at done
      split at done
      · rename_i trailing
        simp only [pure, Except.pure, Except.ok.injEq, Prod.mk.injEq] at done
        obtain ⟨rfl, rfl⟩ := done
        simp only [isLeading, isTrailing, Bool.and_eq_true, decide_eq_true_eq] at leading trailing
        refine Or.inr ⟨second, n - 0xd800, m - 0xdc00, ?_, by omega, by omega, ?_, rfl⟩
        · rwa [show 0xdc00 + (m - 0xdc00) = m by omega]
        · apply toNat_ofNat
          unfold Nat.isValidChar
          omega
      · cases done
    · rename_i whole
      cases ok
      refine Or.inl ⟨(toNat_ofNat ?_).symm, rfl⟩
      simp only [isLeading, isTrailing, Bool.and_eq_true, decide_eq_true_eq] at alone whole
      unfold Nat.isValidChar
      omega
  · intro taken
    unfold readCharacter
    rcases taken with ⟨rfl, rfl⟩ | ⟨second, high, low, unit, bound, rfl, valued, rfl⟩
    · obtain ⟨leading, trailing⟩ := not_surrogate c
      rw [leading, trailing, Char.ofNat_toNat]
      rfl
    · have most : c.toNat.isValidChar := c.valid
      unfold Nat.isValidChar at most
      have leading : isLeading (0xd800 + high) = true := by
        simp only [isLeading, Bool.and_eq_true, decide_eq_true_eq]
        omega
      have alone : isTrailing (0xd800 + high) = false := by
        simp only [isTrailing, Bool.and_eq_false_iff, decide_eq_false_iff_not]
        omega
      have trailing : isTrailing (0xdc00 + low) = true := by
        simp only [isTrailing, Bool.and_eq_true, decide_eq_true_eq]
        omega
      rw [alone, leading]
      refine bind_eq_ok.mpr ⟨_, readMark_eq_ok_iff.mpr rfl,
        bind_eq_ok.mpr ⟨_, readMark_eq_ok_iff.mpr rfl, ?_⟩⟩
      refine bind_eq_ok.mpr ⟨_, readUnit_eq_ok_iff.mpr ⟨second, unit, rfl⟩, ?_⟩
      dsimp only
      rw [trailing, Nat.add_sub_cancel_left, Nat.add_sub_cancel_left, ← valued, Char.ofNat_toNat]
      rfl

/-- An escape is taken off the front, and stands for the bytes of its character. -/
theorem readEscape_eq_ok_iff {bytes piece rest : List UInt8} :
    readEscape bytes = .ok (piece, rest) ↔ ∃ text, Escape text piece ∧ bytes = text ++ rest := by
  constructor
  · intro ok
    unfold readEscape at ok
    split at ok
    · cases ok
    split at ok
    · rename_i found
      cases ok
      exact ⟨_, .short (shortEscape_eq_some_iff.mp found), rfl⟩
    split at ok
    · rename_i letter
      subst letter
      obtain ⟨⟨n, afterUnit⟩, first, ok⟩ := bind_eq_ok.mp ok
      obtain ⟨⟨c, after⟩, character, ok⟩ := bind_eq_ok.mp ok
      cases ok
      obtain ⟨digits, unit, rfl⟩ := readUnit_eq_ok_iff.mp first
      rcases (readCharacter_eq_ok_iff unit.lt).mp character with
        ⟨rfl, rfl⟩ | ⟨second, high, low, lower, bound, rfl, valued, rfl⟩
      · exact ⟨_, .unit unit, rfl⟩
      · exact ⟨_, .pair unit lower bound valued, by simp⟩
    · cases ok
  · intro taken
    obtain ⟨_, escape, rfl⟩ := taken
    have unmarked : shortEscape (code 'u') = none := by decide
    cases escape with
    | short listed =>
      rw [List.singleton_append, readEscape, shortEscape_eq_some_iff.mpr listed]
    | @unit digits c coded =>
      have first : readUnit (digits ++ rest) = .ok (c.toNat, rest) :=
        readUnit_eq_ok_iff.mpr ⟨digits, coded, rfl⟩
      have character : readCharacter c.toNat rest = .ok (c, rest) :=
        (readCharacter_eq_ok_iff coded.lt).mpr (.inl ⟨rfl, rfl⟩)
      rw [List.cons_append, readEscape, unmarked]
      dsimp only
      rw [if_pos rfl, first]
      exact bind_eq_ok.mpr ⟨_, rfl, bind_eq_ok.mpr ⟨_, character, rfl⟩⟩
    | @pair first second high low c upper lower bound valued =>
      have opened : readUnit (first ++ backslash :: code 'u' :: (second ++ rest)) =
          .ok (0xd800 + high, backslash :: code 'u' :: (second ++ rest)) :=
        readUnit_eq_ok_iff.mpr ⟨first, upper, rfl⟩
      have character : readCharacter (0xd800 + high) (backslash :: code 'u' :: (second ++ rest)) =
        .ok (c, rest) :=
        (readCharacter_eq_ok_iff upper.lt).mpr
          (.inr ⟨second, high, low, lower, bound, rfl, valued, rfl⟩)
      rw [List.cons_append, List.append_assoc, List.cons_append, List.cons_append,
        readEscape, unmarked]
      dsimp only
      rw [if_pos rfl, opened]
      exact bind_eq_ok.mpr ⟨_, rfl, bind_eq_ok.mpr ⟨_, character, rfl⟩⟩

theorem skipEscape_eq_ok_iff {bytes rest : List UInt8} : skipEscape bytes = .ok rest ↔
    (∃ mark b, (mark, b) ∈ shorts ∧ bytes = mark :: rest) ∨
      ∃ digits n, HexUnit digits n ∧ bytes = code 'u' :: (digits ++ rest) := by
  constructor
  · intro ok
    unfold skipEscape at ok
    split at ok
    · cases ok
    split at ok
    · rename_i short
      cases ok
      obtain ⟨b, found⟩ := Option.isSome_iff_exists.mp short
      exact Or.inl ⟨_, b, shortEscape_eq_some_iff.mp found, rfl⟩
    split at ok
    · rename_i letter
      obtain ⟨⟨n, after⟩, first, rfl⟩ := map_eq_ok.mp ok
      obtain ⟨digits, unit, rfl⟩ := readUnit_eq_ok_iff.mp first
      exact Or.inr ⟨digits, n, unit, by rw [letter]⟩
    · cases ok
  · intro taken
    rcases taken with ⟨mark, b, listed, rfl⟩ | ⟨digits, n, unit, rfl⟩
    · rw [skipEscape, shortEscape_eq_some_iff.mpr listed]
      rfl
    · have first : readUnit (digits ++ rest) = .ok (n, rest) :=
        readUnit_eq_ok_iff.mpr ⟨digits, unit, rfl⟩
      have unmarked : (shortEscape (code 'u')).isSome = false := by decide
      rw [skipEscape, unmarked, if_neg (by decide), if_pos rfl, first]
      rfl

theorem finish_eq_ok_iff {taken bytes rest : List UInt8} {s : String} :
    finish taken bytes = .ok (s, rest) ↔ Utf8.encode s = taken.reverse ∧ bytes = rest := by
  unfold finish
  split
  · rename_i found
    rw [Utf8.decode?_eq_some_iff.mp found]
    simp only [Except.ok.injEq, Prod.mk.injEq, and_congr_left_iff]
    intro _
    constructor
    · intro same
      rw [same]
    · intro same
      have decoded := congrArg Utf8.decode? same
      rw [Utf8.decode?_encode, Utf8.decode?_encode, Option.some.injEq] at decoded
      exact decoded.symm
  · rename_i missing
    constructor
    · intro ok
      cases ok
    · intro text
      rw [← text.1, Utf8.decode?_encode] at missing
      cases missing

theorem spells_of_collect {taken bytes rest : List UInt8} {s : String}
    (ok : collect taken bytes = .ok (s, rest)) :
    ∃ body spelled, Spells body spelled ∧ bytes = body ++ quote :: rest ∧
      Utf8.encode s = taken.reverse ++ spelled := by
  fun_induction collect taken bytes with
  | case1 => cases ok
  | case2 taken bytes =>
    obtain ⟨text, rfl⟩ := finish_eq_ok_iff.mp ok
    exact ⟨[], [], .empty, rfl, by simpa using text⟩
  | case3 => cases ok
  | case4 taken bytes piece after escaped _ _ ih =>
    obtain ⟨mark, escape, rfl⟩ := readEscape_eq_ok_iff.mp escaped
    obtain ⟨body, spelled, rest, rfl, text⟩ := ih ok
    exact ⟨_, _, .escape escape rest, by simp [backslash], by simpa using text⟩
  | case5 => cases ok
  | case6 taken b bytes unquoted unescaped printable ih =>
    obtain ⟨body, spelled, rest, rfl, text⟩ := ih ok
    have plain : Plain b := ⟨UInt8.not_lt.mp printable, unquoted, unescaped⟩
    exact ⟨_, _, .plain plain rest, rfl, by simpa using text⟩

theorem collect_of_spells {body spelled : List UInt8} (spells : Spells body spelled)
    {taken rest : List UInt8} {s : String} (text : Utf8.encode s = taken.reverse ++ spelled) :
    collect taken (body ++ quote :: rest) = .ok (s, rest) := by
  induction spells generalizing taken with
  | empty =>
    rw [List.nil_append, collect, if_pos rfl]
    exact finish_eq_ok_iff.mpr ⟨by simpa using text, rfl⟩
  | @plain b body spelled itself _ ih =>
    obtain ⟨printable, unquoted, unescaped⟩ := itself
    rw [List.cons_append, collect, if_neg unquoted, if_neg unescaped,
      if_neg (UInt8.not_lt.mpr printable)]
    exact ih (by simpa using text)
  | @escape mark piece body spelled escaped _ ih =>
    have first : readEscape (mark ++ (body ++ quote :: rest)) =
      .ok (piece, body ++ quote :: rest) :=
      readEscape_eq_ok_iff.mpr ⟨mark, escaped, rfl⟩
    rw [List.cons_append, List.append_assoc, collect, if_neg (by decide), if_pos rfl]
    split
    · rename_i failed
      rw [first] at failed
      cases failed
    · rename_i found
      cases first.symm.trans found
      exact ih (by simpa using text)

/-- A string is read to its own quote, and gives the text that it spells. -/
theorem read_eq_ok_iff {bytes rest : List UInt8} {s : String} :
    read bytes = .ok (s, rest) ↔
      ∃ body, Spells body (Utf8.encode s) ∧ bytes = body ++ quote :: rest := by
  constructor
  · intro ok
    obtain ⟨body, spelled, spells, rfl, text⟩ := spells_of_collect ok
    rw [List.reverse_nil, List.nil_append] at text
    exact ⟨body, text ▸ spells, rfl⟩
  · intro taken
    obtain ⟨body, spells, rfl⟩ := taken
    exact collect_of_spells spells (by simp)

theorem loose_of_skip {bytes rest : List UInt8} (ok : skip bytes = .ok rest) :
    ∃ body, Loose body ∧ bytes = body ++ quote :: rest := by
  fun_induction skip bytes with
  | case1 => cases ok
  | case2 =>
    cases ok
    exact ⟨[], .empty, rfl⟩
  | case3 => cases ok
  | case4 bytes after escaped _ _ ih =>
    obtain ⟨body, loose, rfl⟩ := ih ok
    rcases skipEscape_eq_ok_iff.mp escaped with ⟨mark, b, listed, rfl⟩ | ⟨digits, n, unit, rfl⟩
    · exact ⟨_, .short listed loose, rfl⟩
    · exact ⟨_, .unit unit loose, by simp [backslash]⟩
  | case5 => cases ok
  | case6 b bytes unquoted unescaped printable ih =>
    obtain ⟨body, loose, rfl⟩ := ih ok
    exact ⟨_, .plain ⟨UInt8.not_lt.mp printable, unquoted, unescaped⟩ loose, rfl⟩

theorem skip_escaped {bytes after : List UInt8} (escaped : skipEscape bytes = .ok after) :
    skip (backslash :: bytes) = skip after := by
  rw [skip, if_neg (by decide), if_pos rfl]
  split
  · rename_i failed
    rw [escaped] at failed
    cases failed
  · rename_i found
    cases escaped.symm.trans found
    rfl

theorem skip_of_loose {body : List UInt8} (loose : Loose body) (rest : List UInt8) :
    skip (body ++ quote :: rest) = .ok rest := by
  induction loose with
  | empty => rw [List.nil_append, skip, if_pos rfl]
  | plain itself _ ih =>
    obtain ⟨printable, unquoted, unescaped⟩ := itself
    rw [List.cons_append, skip, if_neg unquoted, if_neg unescaped,
      if_neg (UInt8.not_lt.mpr printable)]
    exact ih
  | short listed _ ih =>
    exact (skip_escaped (skipEscape_eq_ok_iff.mpr (.inl ⟨_, _, listed, rfl⟩))).trans ih
  | unit coded _ ih =>
    refine Eq.trans (skip_escaped (skipEscape_eq_ok_iff.mpr (.inr ⟨_, _, coded, ?_⟩))) ih
    simp

/-- A string is passed over to its own quote if the form of its escapes is right. -/
theorem skip_eq_ok_iff {bytes rest : List UInt8} :
    skip bytes = .ok rest ↔ ∃ body, Loose body ∧ bytes = body ++ quote :: rest := by
  constructor
  · exact loose_of_skip
  · intro taken
    obtain ⟨body, loose, rfl⟩ := taken
    exact skip_of_loose loose rest

end Json.Text
end CharTable
