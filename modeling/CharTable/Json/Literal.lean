import CharTable.Json.Stop

/-!
Reading number literals: an optional minus sign, digits without a leading zero, and optionally a
point with digits and an exponent with digits. What is said when the bytes end inside one is up to
the caller.
-/
namespace CharTable.Json
open Ascii

def isBlank (b : UInt8) : Bool := b = code ' ' || b = code '\n' || b = code '\t' || b = code '\r'

namespace Literal

def readWhole (atEnd : Reason) : List UInt8 → Except Stop (List UInt8 × List UInt8)
  | [] => .error ⟨atEnd, []⟩
  | b :: rest =>
    if !isDigit b then .error ⟨.invalidNumber, rest⟩
    else if b = code '0' then
      if (rest.head?.any isDigit) then .error ⟨.invalidNumber, rest.drop 1⟩ else .ok ([b], rest)
    else .ok (b :: rest.takeWhile isDigit, rest.dropWhile isDigit)

def readFraction (atEnd : Reason) : List UInt8 → Except Stop (List UInt8 × List UInt8)
  | [] => .ok ([], [])
  | b :: rest =>
    if b = code '.' then
      match rest with
      | [] => .error ⟨atEnd, []⟩
      | d :: after =>
        if isDigit d then .ok (rest.takeWhile isDigit, rest.dropWhile isDigit)
          else .error ⟨.invalidNumber, after⟩
    else .ok ([], b :: rest)

def exponentSign : List UInt8 → Bool × List UInt8
  | [] => (false, [])
  | b :: rest =>
    if b = code '-' then (true, rest) else if b = code '+' then (false, rest)
      else (false, b :: rest)

def readExponent (atEnd : Reason) : List UInt8 → Except Stop ((Bool × List UInt8) × List UInt8)
  | [] => .ok ((false, []), [])
  | b :: rest =>
    if b = code 'e' ∨ b = code 'E' then
      let (lowered, digits) := exponentSign rest
      match digits with
      | [] => .error ⟨atEnd, []⟩
      | d :: after =>
        if isDigit d then .ok ((lowered, digits.takeWhile isDigit), digits.dropWhile isDigit)
        else .error ⟨.invalidNumber, after⟩
    else .ok ((false, []), b :: rest)

def read (atEnd : Reason) (bytes : List UInt8) : Except Stop (Literal × List UInt8) := do
  let negative := bytes.head? = some (code '-')
  let (whole, rest) ← readWhole atEnd (if negative then bytes.drop 1 else bytes)
  let (fraction, rest) ← readFraction atEnd rest
  let ((lowered, exponent), rest) ← readExponent atEnd rest
  return (⟨negative, whole, fraction, lowered, exponent⟩, rest)

theorem length_dropDigits (bytes : List UInt8) : (bytes.dropWhile isDigit).length ≤ bytes.length :=
  (List.dropWhile_suffix _).length_le

theorem readWhole_shorter {atEnd : Reason} {bytes digits rest : List UInt8}
    (ok : readWhole atEnd bytes = .ok (digits, rest)) : rest.length < bytes.length := by
  unfold readWhole at ok
  repeat' split at ok
  all_goals cases ok
  · simp
  · rename_i tail _ _
    exact Nat.lt_succ_of_le (length_dropDigits tail)

theorem readFraction_short {atEnd : Reason} {bytes digits rest : List UInt8}
    (ok : readFraction atEnd bytes = .ok (digits, rest)) : rest.length ≤ bytes.length := by
  unfold readFraction at ok
  repeat' split at ok
  all_goals cases ok
  · simp
  · exact Nat.le_succ_of_le (length_dropDigits _)
  · simp

theorem exponentSign_short (bytes : List UInt8) : (exponentSign bytes).2.length ≤ bytes.length := by
  unfold exponentSign
  repeat' split
  all_goals simp

theorem readExponent_short {atEnd : Reason} {bytes digits rest : List UInt8} {lowered : Bool}
    (ok : readExponent atEnd bytes = .ok ((lowered, digits), rest)) :
    rest.length ≤ bytes.length := by
  unfold readExponent at ok
  repeat' split at ok
  · cases ok
    simp
  · cases ok
  · rename_i b tail _ _ _ _ d after found _
    cases ok
    have sign := exponentSign_short tail
    rw [found] at sign
    have := length_dropDigits (d :: after)
    simp only [List.length_cons] at *
    omega
  · cases ok
  · cases ok
    simp

theorem read_shorter {atEnd : Reason} {bytes rest : List UInt8} {l : Literal}
    (ok : read atEnd bytes = .ok (l, rest)) : rest.length < bytes.length := by
  unfold read at ok
  obtain ⟨⟨whole, afterWhole⟩, first, ok⟩ := bind_eq_ok.mp ok
  obtain ⟨⟨fraction, afterFraction⟩, second, ok⟩ := bind_eq_ok.mp ok
  obtain ⟨⟨⟨lowered, exponent⟩, afterExponent⟩, third, ok⟩ := bind_eq_ok.mp ok
  have one := readWhole_shorter first
  have two := readFraction_short second
  have three := readExponent_short third
  simp only [pure, Except.pure, Except.ok.injEq, Prod.mk.injEq] at ok
  rw [← ok.2]
  split at one
  · simp only [List.length_drop] at one
    omega
  · omega

end Literal

def Number.read (bytes : List UInt8) : Except Stop (Number × List UInt8) := do
  let (literal, rest) ← Literal.read .endOfValue bytes
  match literal.value with
  | .ok n => return (n, rest)
  | .error digits => .error ⟨.numberOutOfRange, digits ++ rest⟩

end CharTable.Json
