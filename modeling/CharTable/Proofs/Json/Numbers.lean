import CharTable.Proofs.Json.Marks
import Mathlib.Data.Nat.Digits.Lemmas

/-!
Number literals are read as far as they go. What is read is a literal of the grammar; and a literal
of the grammar is read to its end when no digit, point or exponent mark follows it. A byte value is
read from a natural literal only.
-/
namespace CharTable.Json
open Ascii Grammar

def Undigited (rest : List UInt8) : Prop := ∀ b, rest.head? = some b → isDigit b = false

def Ended (rest : List UInt8) : Prop :=
  ∀ b, rest.head? = some b → isDigit b = false ∧ b ≠ code '.' ∧ b ≠ code 'e' ∧ b ≠ code 'E'

theorem Ended.undigited {rest : List UInt8} (ended : Ended rest) : Undigited rest :=
  fun b next => (ended b next).1

theorem ended_cons {b : UInt8} {rest : List UInt8}
    (other : isDigit b = false ∧ b ≠ code '.' ∧ b ≠ code 'e' ∧ b ≠ code 'E') :
    Ended (b :: rest) := by
  intro c next
  cases next
  exact other

theorem ended_blanks {gap rest : List UInt8} (blank : Blanks gap) (ended : Ended rest) :
    Ended (gap ++ rest) := by
  cases gap with
  | nil => exact ended
  | cons b gap =>
    have each : ∀ c ∈ blanks, isDigit c = false ∧ c ≠ code '.' ∧ c ≠ code 'e' ∧ c ≠ code 'E' :=
      forall_blanks.mpr (by decide)
    exact ended_cons (each b (blank b (by simp)))

/-- After a value in brackets come blanks and a comma or the closing bracket. -/
theorem ended_joined {gap : List UInt8} (blank : Blanks gap) (texts : List (List UInt8)) {b : UInt8}
    (other : isDigit b = false ∧ b ≠ code '.' ∧ b ≠ code 'e' ∧ b ≠ code 'E') (rest : List UInt8) :
    Ended (gap ++ (joined false texts ++ b :: rest)) := by
  apply ended_blanks blank
  cases texts with
  | nil => exact ended_cons other
  | cons text texts => exact ended_cons (by decide)

def Numeric (b : UInt8) : Prop := b = code '-' ∨ isDigit b = true

theorem number_front {text : List UInt8} (form : Grammar.Number text) :
    ∃ b tail, text = b :: tail ∧ Numeric b := by
  cases form with
  | @literal sign whole fraction _ exponent _ signed digits _ _ =>
    rcases signed with rfl | rfl
    · obtain ⟨⟨filled, each⟩, _⟩ := digits
      cases whole with
      | nil => exact absurd rfl filled
      | cons d ds => exact ⟨d, ds ++ fraction ++ exponent, rfl, .inr (each d (by simp))⟩
    · exact ⟨code '-', whole ++ fraction ++ exponent, rfl, .inl rfl⟩

theorem Numeric.ne {b c : UInt8} (numeric : Numeric b)
    (other : c ≠ code '-' ∧ isDigit c = false) : b ≠ c := by
  rintro rfl
  rcases numeric with minus | digit
  · exact other.1 minus
  · rw [other.2] at digit
    cases digit

theorem Numeric.unblank {b : UInt8} (numeric : Numeric b) : isBlank b = false := by
  apply Bool.eq_false_iff.mpr
  intro blank
  have each : ∀ c ∈ blanks, c ≠ code '-' ∧ isDigit c = false := forall_blanks.mpr (by decide)
  exact numeric.ne (each b (isBlank_iff.mp blank)) rfl

theorem natural_front {text : List UInt8} {n : Nat} (natural : Natural text n) :
    ∃ d ds, text = d :: ds ∧ Numeric d := by
  have number : Grammar.Number ([] ++ text ++ [] ++ []) :=
    .literal (.inl rfl) natural.1 .absent .absent
  obtain ⟨d, ds, front, numeric⟩ := number_front number
  exact ⟨d, ds, by simpa using front, numeric⟩

namespace Literal

theorem takeDigits_append {ds rest : List UInt8} (digits : ∀ d ∈ ds, isDigit d = true)
    (undigited : Undigited rest) : (ds ++ rest).takeWhile isDigit = ds := by
  rw [List.takeWhile_append_of_pos digits]
  cases rest with
  | nil => simp
  | cons b rest => simp [undigited b rfl]

theorem dropDigits_append {ds rest : List UInt8} (digits : ∀ d ∈ ds, isDigit d = true)
    (undigited : Undigited rest) : (ds ++ rest).dropWhile isDigit = rest := by
  rw [List.dropWhile_append_of_pos digits]
  cases rest with
  | nil => rfl
  | cons b rest => simp [undigited b rfl]

theorem digits_takeWhile {d : UInt8} (digit : isDigit d = true) (rest : List UInt8) :
    Digits ((d :: rest).takeWhile isDigit) := by
  refine ⟨by simp [digit], fun e member => List.mem_takeWhile_imp member⟩

theorem whole_of_readWhole {atEnd : Reason} {bytes ds rest : List UInt8}
    (ok : readWhole atEnd bytes = .ok (ds, rest)) : Whole ds ∧ bytes = ds ++ rest := by
  unfold readWhole at ok
  split at ok
  · cases ok
  rename_i b tail
  split at ok
  · cases ok
  rename_i digit
  replace digit : isDigit b = true := by simpa using digit
  split at ok
  · rename_i zero
    split at ok
    · cases ok
    · cases ok
      exact ⟨⟨⟨by simp, by simpa using digit⟩, fun _ => by rw [zero]⟩, rfl⟩
  · rename_i nonzero
    cases ok
    have taken : (b :: tail).takeWhile isDigit = b :: tail.takeWhile isDigit := by simp [digit]
    refine ⟨⟨taken ▸ digits_takeWhile digit tail, fun leading => ?_⟩, by simp⟩
    exact absurd (by simpa using leading) nonzero

theorem readWhole_of_whole {ds rest : List UInt8} (whole : Whole ds) (undigited : Undigited rest)
    (atEnd : Reason) : readWhole atEnd (ds ++ rest) = .ok (ds, rest) := by
  obtain ⟨⟨filled, digits⟩, unpadded⟩ := whole
  cases ds with
  | nil => exact absurd rfl filled
  | cons d ds =>
    have digit : isDigit d = true := digits d (by simp)
    have others : ∀ e ∈ ds, isDigit e = true := fun e member => digits e (by simp [member])
    rw [List.cons_append, readWhole, digit]
    by_cases zero : d = code '0'
    · have alone : ds = [] := by simpa [zero] using unpadded
      have stops : rest.head?.any isDigit = false := by
        cases rest with
        | nil => rfl
        | cons b rest => simp [undigited b rfl]
      rw [alone, List.nil_append, stops]
      simp [zero]
    · simp [zero, takeDigits_append others undigited, dropDigits_append others undigited]

theorem fraction_of_readFraction {atEnd : Reason} {bytes ds rest : List UInt8}
    (ok : readFraction atEnd bytes = .ok (ds, rest)) :
    ∃ text, Fraction text ds ∧ bytes = text ++ rest := by
  unfold readFraction at ok
  split at ok
  · cases ok
    exact ⟨[], .absent, rfl⟩
  split at ok
  · rename_i point
    split at ok
    · cases ok
    split at ok
    · rename_i digit
      cases ok
      exact ⟨_, .present (digits_takeWhile digit _), by simp [point]⟩
    · cases ok
  · cases ok
    exact ⟨[], .absent, rfl⟩

theorem readFraction_of_fraction {text ds rest : List UInt8} (fractional : Fraction text ds)
    (undigited : Undigited rest) (pointless : rest.head? ≠ some (code '.')) (atEnd : Reason) :
    readFraction atEnd (text ++ rest) = .ok (ds, rest) := by
  cases fractional with
  | absent =>
    cases rest with
    | nil => rfl
    | cons b rest => exact if_neg fun point => pointless (by rw [point]; rfl)
  | present digits =>
    obtain ⟨filled, each⟩ := digits
    cases ds with
    | nil => exact absurd rfl filled
    | cons d ds =>
      have digit : isDigit d = true := each d (by simp)
      unfold readFraction
      dsimp only [List.cons_append]
      rw [if_pos rfl, if_pos digit, ← List.cons_append, takeDigits_append each undigited,
        dropDigits_append each undigited]

theorem exponentSign_split (bytes : List UInt8) :
    ∃ sign, (sign = [] ∨ sign = [code '-'] ∨ sign = [code '+']) ∧
      bytes = sign ++ (exponentSign bytes).2 := by
  unfold exponentSign
  split
  · exact ⟨[], by simp⟩
  split
  · rename_i minus
    exact ⟨[code '-'], by simp [minus]⟩
  split
  · rename_i plus
    exact ⟨[code '+'], by simp [plus]⟩
  · exact ⟨[], by simp⟩

theorem exponent_of_readExponent {atEnd : Reason} {bytes ds rest : List UInt8} {lowered : Bool}
    (ok : readExponent atEnd bytes = .ok ((lowered, ds), rest)) :
    ∃ text, Exponent text ds ∧ bytes = text ++ rest := by
  unfold readExponent at ok
  split at ok
  · cases ok
    exact ⟨[], .absent, rfl⟩
  rename_i b tail
  split at ok
  · rename_i marked
    obtain ⟨sign, signed, split⟩ := exponentSign_split tail
    dsimp only at ok
    split at ok
    · cases ok
    rename_i found
    split at ok
    · rename_i digit
      cases ok
      have digits : Digits ((exponentSign tail).2.takeWhile isDigit) := by
        rw [found]
        exact digits_takeWhile digit _
      refine ⟨_, .present marked signed digits, ?_⟩
      rw [List.cons_append, List.append_assoc, List.takeWhile_append_dropWhile, ← split]
    · cases ok
  · cases ok
    exact ⟨[], .absent, rfl⟩

theorem readExponent_of_exponent {text ds rest : List UInt8} (scaled : Exponent text ds)
    (ended : Ended rest) (atEnd : Reason) :
    ∃ lowered, readExponent atEnd (text ++ rest) = .ok ((lowered, ds), rest) := by
  cases scaled with
  | absent =>
    cases rest with
    | nil => exact ⟨false, rfl⟩
    | cons b rest =>
      obtain ⟨_, _, small, capital⟩ := ended b rfl
      exact ⟨false, if_neg (not_or.mpr ⟨small, capital⟩)⟩
  | @present mark sign _ marked signed digits =>
    obtain ⟨filled, each⟩ := digits
    cases ds with
    | nil => exact absurd rfl filled
    | cons d ds =>
      have digit : isDigit d = true := each d (by simp)
      have unsigned : d ≠ code '-' ∧ d ≠ code '+' := by
        constructor
        · rintro rfl
          cases digit
        · rintro rfl
          cases digit
      have signs : ∃ lowered, exponentSign (sign ++ (d :: ds ++ rest)) =
          (lowered, d :: ds ++ rest) := by
        rcases signed with rfl | rfl | rfl
        · exact ⟨false, by simp [exponentSign, unsigned]⟩
        · exact ⟨true, rfl⟩
        · exact ⟨false, rfl⟩
      obtain ⟨lowered, read⟩ := signs
      refine ⟨lowered, ?_⟩
      rw [List.cons_append, List.append_assoc, readExponent, if_pos marked, read]
      dsimp only [List.cons_append]
      rw [if_pos digit, ← List.cons_append, takeDigits_append each ended.undigited,
        dropDigits_append each ended.undigited]

inductive Written : Literal → List UInt8 → Prop
  | parts {negative lowered : Bool} {whole fraction places exponent power : List UInt8}
      (digits : Whole whole) (fractional : Fraction fraction places)
      (scaled : Exponent exponent power) :
      Written ⟨negative, whole, places, lowered, power⟩
          ((if negative then [code '-'] else []) ++ whole ++ fraction ++ exponent)

theorem Written.number {l : Literal} {text : List UInt8}
    (written : Written l text) : Grammar.Number text := by
  cases written with
  | @parts negative _ _ _ _ _ _ digits fractional scaled =>
    cases negative with
    | false => exact .literal (.inl rfl) digits fractional scaled
    | true => exact .literal (.inr rfl) digits fractional scaled

theorem exists_written {text : List UInt8} (number : Grammar.Number text) :
    ∃ l, Written l text := by
  cases number with
  | @literal sign whole _ places _ power signed digits fractional scaled =>
    rcases signed with rfl | rfl
    · exact ⟨⟨false, whole, places, false, power⟩, .parts digits fractional scaled⟩
    · exact ⟨⟨true, whole, places, false, power⟩, .parts digits fractional scaled⟩

/-- What is read is a literal of the grammar. -/
theorem written_of_read {atEnd : Reason} {bytes rest : List UInt8} {l : Literal}
    (ok : read atEnd bytes = .ok (l, rest)) : ∃ text, Written l text ∧ bytes = text ++ rest := by
  unfold read at ok
  obtain ⟨⟨whole, afterWhole⟩, first, next⟩ := bind_eq_ok.mp ok
  obtain ⟨⟨places, afterFraction⟩, second, last⟩ := bind_eq_ok.mp next
  obtain ⟨⟨⟨lowered, power⟩, afterExponent⟩, third, done⟩ := bind_eq_ok.mp last
  obtain ⟨digits, wholeSplit⟩ := whole_of_readWhole first
  obtain ⟨fraction, fractional, rfl⟩ := fraction_of_readFraction second
  obtain ⟨exponent, scaled, rfl⟩ := exponent_of_readExponent third
  cases done
  refine ⟨_, .parts digits fractional scaled, ?_⟩
  by_cases negative : bytes.head? = some (code '-')
  · obtain ⟨tail, rfl⟩ := List.head?_eq_some_iff.mp negative
    rw [if_pos negative] at wholeSplit
    simpa using wholeSplit
  · rw [if_neg negative] at wholeSplit
    simpa [negative] using wholeSplit

theorem exponent_front {text ds rest : List UInt8} (scaled : Exponent text ds)
    (ended : Ended rest) : Undigited (text ++ rest) ∧ (text ++ rest).head? ≠ some (code '.') := by
  cases scaled with
  | absent => exact ⟨ended.undigited, fun point => (ended _ point).2.1 rfl⟩
  | present marked _ _ =>
    constructor
    · intro b next
      cases next
      rcases marked with rfl | rfl <;> decide
    · intro point
      cases point
      rcases marked with point | point <;> cases point

theorem fraction_front {text ds rest : List UInt8} (fractional : Fraction text ds)
    (undigited : Undigited rest) : Undigited (text ++ rest) := by
  cases fractional with
  | absent => exact undigited
  | present _ =>
    intro b next
    cases next
    decide

/-- A literal of the grammar is read to its end where nothing follows that could prolong it. -/
theorem read_of_written {l : Literal} {text rest : List UInt8} (written : Written l text)
    (ended : Ended rest) (atEnd : Reason) :
    ∃ lowered, read atEnd (text ++ rest) = .ok ({ l with lowered := lowered }, rest) := by
  cases written with
  | @parts negative _ whole fraction places exponent power digits fractional scaled =>
    obtain ⟨undigited, pointless⟩ := exponent_front scaled ended
    obtain ⟨lowered, third⟩ := readExponent_of_exponent scaled ended atEnd
    have second := readFraction_of_fraction fractional undigited pointless atEnd
    have first := readWhole_of_whole digits (fraction_front fractional undigited) atEnd
    refine ⟨lowered, ?_⟩
    cases negative with
    | true =>
      simp only [if_true, List.cons_append, List.nil_append, List.append_assoc, read,
        List.head?_cons, List.drop_one, List.tail_cons]
      rw [first]
      refine bind_eq_ok.mpr ⟨_, rfl, bind_eq_ok.mpr ⟨_, second, bind_eq_ok.mpr ⟨_, third, ?_⟩⟩⟩
      simp [pure, Except.pure]
    | false =>
      have unsigned : (whole ++ (fraction ++ (exponent ++ rest))).head? ≠ some (code '-') := by
        obtain ⟨⟨filled, each⟩, _⟩ := digits
        cases whole with
        | nil => exact absurd rfl filled
        | cons d ds =>
          intro minus
          cases minus
          cases each (code '-') (by simp)
      simp only [Bool.false_eq_true, if_false, List.nil_append, List.append_assoc, read, unsigned]
      rw [first]
      refine bind_eq_ok.mpr ⟨_, rfl, bind_eq_ok.mpr ⟨_, second, bind_eq_ok.mpr ⟨_, third, ?_⟩⟩⟩
      simp [pure, Except.pure]

def extend (n : Nat) (ds : List UInt8) : Nat := ds.foldl (fun n d => n * 10 + digitValue d) n

theorem ofDigits_eq_extend (ds : List UInt8) :
    Nat.ofDigits 10 (ds.reverse.map digitValue) = extend 0 ds := by
  induction ds using List.reverseRecOn with
  | nil => rfl
  | append_singleton ds d ih =>
    rw [List.reverse_concat, List.map_cons, Nat.ofDigits_cons, ih, extend, extend,
      List.foldl_append]
    simp [Nat.add_comm, Nat.mul_comm]

theorem le_extend (n : Nat) (ds : List UInt8) : n ≤ extend n ds := by
  induction ds generalizing n with
  | nil => exact Nat.le_refl n
  | cons d ds ih =>
    have := ih (n * 10 + digitValue d)
    change n ≤ extend (n * 10 + digitValue d) ds
    omega

theorem gather_of_le {limit n : Nat} {ds : List UInt8} (small : extend n ds ≤ limit) :
    gather limit n ds = (extend n ds, []) := by
  induction ds generalizing n with
  | nil => rfl
  | cons d ds ih =>
    have fits : n * 10 + digitValue d ≤ limit := Nat.le_trans (le_extend _ ds) small
    rw [gather, if_pos fits]
    exact ih small

theorem extend_of_gather {limit n m : Nat} {ds : List UInt8} (all : gather limit n ds = (m, [])) :
    extend n ds = m := by
  induction ds generalizing n with
  | nil =>
    cases all
    rfl
  | cons d ds ih =>
    rw [gather] at all
    split at all
    · exact ih all
    · cases all

/-- The value is a natural number only for a literal that is nothing but its digits. -/
theorem natural_of_value {l : Literal} {n : Nat} (natural : l.value = .ok (.natural n)) :
    l.negative = false ∧ l.fraction = [] ∧ l.exponent = [] ∧ extend 0 l.whole = n := by
  unfold value at natural
  dsimp only at natural
  split at natural
  · rename_i plain
    simp only [List.isEmpty_iff] at plain
    obtain ⟨fits, fraction, exponent⟩ := plain
    unfold integer at natural
    split at natural
    · rename_i unsigned
      cases natural
      exact ⟨by simpa using unsigned, fraction, exponent, extend_of_gather (Prod.ext rfl fits)⟩
    · split at natural <;> cases natural
  · split at natural
    · split at natural <;> cases natural
    · split at natural <;> cases natural

theorem value_of_small {ds : List UInt8} (small : extend 0 ds ≤ wordLimit) (lowered : Bool) :
    (⟨false, ds, [], lowered, []⟩ : Literal).value = .ok (.natural (extend 0 ds)) := by
  simp [value, gather_of_le small, integer]

end Literal

/-- Without fraction and exponent a literal without a sign is its digits. -/
theorem Literal.Written.natural {l : Literal} {text : List UInt8} (written : Written l text)
    (unsigned : l.negative = false) (noFraction : l.fraction = []) (noExponent : l.exponent = []) :
    Natural text (extend 0 l.whole) := by
  cases written with
  | parts digits fractional scaled =>
    dsimp only at unsigned noFraction noExponent
    subst unsigned noFraction noExponent
    cases fractional with
    | present digits => exact absurd rfl digits.1
    | absent =>
      cases scaled with
      | present _ _ digits => exact absurd rfl digits.1
      | absent =>
        simp only [Bool.false_eq_true, if_false, List.nil_append, List.append_nil]
        exact ⟨digits, ofDigits_eq_extend _⟩

theorem natural_of_readNumber {bytes rest : List UInt8} {n : Nat}
    (ok : Number.read bytes = .ok (.natural n, rest)) :
    ∃ text, Natural text n ∧ bytes = text ++ rest := by
  unfold Number.read at ok
  obtain ⟨⟨l, after⟩, literal, next⟩ := bind_eq_ok.mp ok
  obtain ⟨text, written, rfl⟩ := Literal.written_of_read literal
  dsimp only at next
  split at next
  · rename_i valued
    cases next
    obtain ⟨unsigned, noFraction, noExponent, rfl⟩ := Literal.natural_of_value valued
    exact ⟨text, written.natural unsigned noFraction noExponent, rfl⟩
  · cases next

theorem readNumber_of_natural {text rest : List UInt8} {n : Nat} (natural : Natural text n)
    (small : n < 256) (ended : Ended rest) :
    Number.read (text ++ rest) = .ok (.natural n, rest) := by
  obtain ⟨digits, rfl⟩ := natural
  have written : Literal.Written ⟨false, text, [], false, []⟩ text := by
    simpa using @Literal.Written.parts false false text [] [] [] [] digits .absent .absent
  obtain ⟨lowered, read⟩ := Literal.read_of_written written ended .endOfValue
  rw [Literal.ofDigits_eq_extend] at small ⊢
  have word : Literal.extend 0 text ≤ Literal.wordLimit :=
    Nat.le_trans (Nat.le_of_lt small) (by decide)
  refine bind_eq_ok.mpr ⟨_, read, ?_⟩
  dsimp only
  rw [Literal.value_of_small word]
  rfl

theorem toByte_eq_ok_iff {rest : List UInt8} {number : Number} {b : UInt8} :
    number.toByte rest = .ok b ↔ number = .natural b.toNat := by
  cases number with
  | natural n =>
    simp only [Number.toByte, Number.natural.injEq]
    split
    · rename_i small
      rw [Except.ok.injEq, ← UInt8.toNat_inj, UInt8.toNat_ofNat_of_lt' small]
    · rename_i large
      have : b.toNat < 256 := b.toNat_lt
      constructor
      · intro ok
        cases ok
      · intro same
        omega
  | negative n => simp [Number.toByte]
  | real x => simp [Number.toByte]

/-- A byte value is read from a natural literal behind blanks. -/
theorem natural_of_readByte {bytes rest : List UInt8} {b : UInt8}
    (ok : readByte bytes = .ok (b, rest)) :
    ∃ gap text, Blanks gap ∧ Natural text b.toNat ∧ bytes = gap ++ (text ++ rest) := by
  unfold readByte at ok
  split at ok
  · cases ok
  rename_i found
  obtain ⟨_, gap, blank, rfl⟩ := dropBlanks_eq_cons found
  split at ok
  · obtain ⟨⟨number, after⟩, read, next⟩ := bind_eq_ok.mp ok
    obtain ⟨value, fits, done⟩ := bind_eq_ok.mp next
    cases done
    rw [toByte_eq_ok_iff.mp fits] at read
    obtain ⟨text, natural, split⟩ := natural_of_readNumber read
    exact ⟨gap, text, blank, natural, by rw [split]⟩
  · cases ok

theorem readByte_of_natural {gap text rest : List UInt8} {b : UInt8} (blank : Blanks gap)
    (natural : Natural text b.toNat) (ended : Ended rest) :
    readByte (gap ++ (text ++ rest)) = .ok (b, rest) := by
  have read := readNumber_of_natural natural b.toNat_lt ended
  obtain ⟨d, ds, rfl, numeric⟩ := natural_front natural
  rw [List.cons_append] at read ⊢
  rw [readByte, dropBlanks_mark blank numeric.unblank]
  dsimp only
  rw [if_pos (show d = code '-' ∨ isDigit d = true from numeric), read]
  exact bind_eq_ok.mpr ⟨_, rfl, bind_eq_ok.mpr ⟨_, toByte_eq_ok_iff.mpr rfl, rfl⟩⟩

end CharTable.Json
