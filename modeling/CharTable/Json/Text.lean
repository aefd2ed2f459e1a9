import CharTable.Json.Stop
import CharTable.Text

/-!
Reading strings from behind their opening quote. A string that is wanted has its escapes resolved
and must be valid text as a whole; in one that is passed over only the form of the escapes is looked
at.
-/
namespace CharTable.Json.Text
open Ascii

def quote : UInt8 := code '\x22'

def backslash : UInt8 := code '\\'

def shortEscape (b : UInt8) : Option UInt8 :=
  if b = quote ∨ b = backslash ∨ b = code '/' then some b
  else if b = code 'b' then some 0x08
  else if b = code 'f' then some 0x0c
  else if b = code 'n' then some (code '\n')
  else if b = code 'r' then some (code '\r')
  else if b = code 't' then some (code '\t')
  else none

def hexDigit (b : UInt8) : Option Nat :=
  if isDigit b then some (digitValue b)
  else if code 'a' ≤ b ∧ b ≤ code 'f' then some (b.toNat - 87)
  else if code 'A' ≤ b ∧ b ≤ code 'F' then some (b.toNat - 55)
  else none

def hexUnit? (a b c d : UInt8) : Option Nat := do
  return (((← hexDigit a) * 16 + (← hexDigit b)) * 16 + (← hexDigit c)) * 16 + (← hexDigit d)

def readUnit : List UInt8 → Except Stop (Nat × List UInt8)
  | a :: b :: c :: d :: rest =>
    match hexUnit? a b c d with
    | some unit => .ok (unit, rest)
    | none => .error ⟨.invalidEscape, rest⟩
  | _ => .error ⟨.endOfText, []⟩

def readMark (mark : UInt8) : List UInt8 → Except Stop (List UInt8)
  | [] => .error ⟨.endOfText, []⟩
  | b :: rest => if b = mark then .ok rest else .error ⟨.unfinishedEscape, rest⟩

def isLeading (unit : Nat) : Bool := 0xd800 ≤ unit && unit < 0xdc00

def isTrailing (unit : Nat) : Bool := 0xdc00 ≤ unit && unit < 0xe000

def readCharacter (unit : Nat) (bytes : List UInt8) : Except Stop (Char × List UInt8) :=
  if isTrailing unit then .error ⟨.loneSurrogate, bytes⟩
  else if isLeading unit then do
    let rest ← readMark backslash bytes
    let rest ← readMark (code 'u') rest
    let (second, rest) ← readUnit rest
    if isTrailing second then
      return (Char.ofNat (0x10000 + (unit - 0xd800) * 0x400 + (second - 0xdc00)), rest)
    else .error ⟨.loneSurrogate, rest⟩
  else .ok (Char.ofNat unit, bytes)

def readEscape : List UInt8 → Except Stop (List UInt8 × List UInt8)
  | [] => .error ⟨.endOfText, []⟩
  | b :: rest =>
    match shortEscape b with
    | some c => .ok ([c], rest)
    | none =>
      if b = code 'u' then do
        let (unit, rest) ← readUnit rest
        let (c, rest) ← readCharacter unit rest
        return (Utf8.encode (String.singleton c), rest)
      else .error ⟨.invalidEscape, rest⟩

def skipEscape : List UInt8 → Except Stop (List UInt8)
  | [] => .error ⟨.endOfText, []⟩
  | b :: rest =>
    if (shortEscape b).isSome then .ok rest
    else if b = code 'u' then (readUnit rest).map Prod.snd
    else .error ⟨.invalidEscape, rest⟩

theorem readUnit_shorter {bytes rest : List UInt8} {unit : Nat}
    (ok : readUnit bytes = .ok (unit, rest)) : rest.length < bytes.length := by
  unfold readUnit at ok
  split at ok
  · split at ok
    · simp only [Except.ok.injEq, Prod.mk.injEq] at ok
      simp only [← ok.2, List.length_cons]
      omega
    · simp at ok
  · simp at ok

theorem readMark_shorter {mark : UInt8} {bytes rest : List UInt8}
    (ok : readMark mark bytes = .ok rest) : rest.length < bytes.length := by
  unfold readMark at ok
  split at ok
  · simp at ok
  · split at ok
    · simp_all
    · simp at ok

theorem readCharacter_short {unit : Nat} {bytes rest : List UInt8} {c : Char}
    (ok : readCharacter unit bytes = .ok (c, rest)) : rest.length ≤ bytes.length := by
  unfold readCharacter at ok
  split at ok
  · simp at ok
  split at ok
  · obtain ⟨afterFirst, first, ok⟩ := bind_eq_ok.mp ok
    obtain ⟨afterSecond, second, ok⟩ := bind_eq_ok.mp ok
    obtain ⟨⟨low, afterThird⟩, third, ok⟩ := bind_eq_ok.mp ok
    have := readMark_shorter first
    have := readMark_shorter second
    have := readUnit_shorter third
    dsimp only at ok
    split at ok
    · simp only [pure, Except.pure, Except.ok.injEq, Prod.mk.injEq] at ok
      rw [← ok.2]
      omega
    · simp at ok
  · simp_all

theorem readEscape_shorter {bytes piece rest : List UInt8}
    (ok : readEscape bytes = .ok (piece, rest)) : rest.length < bytes.length := by
  unfold readEscape at ok
  split at ok
  · simp at ok
  split at ok
  · simp_all
  split at ok
  · obtain ⟨⟨unit, afterFirst⟩, first, ok⟩ := bind_eq_ok.mp ok
    obtain ⟨⟨c, afterSecond⟩, second, ok⟩ := bind_eq_ok.mp ok
    have := readUnit_shorter first
    have := readCharacter_short second
    simp only [pure, Except.pure, Except.ok.injEq, Prod.mk.injEq] at ok
    simp only [← ok.2, List.length_cons]
    omega
  · simp at ok

theorem skipEscape_shorter {bytes rest : List UInt8} (ok : skipEscape bytes = .ok rest) :
    rest.length < bytes.length := by
  unfold skipEscape at ok
  split at ok
  · simp at ok
  rename_i b tail
  split at ok
  · simp_all
  split at ok
  · cases first : readUnit tail with
    | error s => simp [first, Except.map] at ok
    | ok found =>
      have : found.2.length < _ := readUnit_shorter first
      simp only [first, Except.map, Except.ok.injEq] at ok
      simp only [← ok, List.length_cons]
      omega
  · simp at ok

/-- The text of the bytes that a string resolved to, given in reverse. If they are no text, the
position lies before the closing quote by as many bytes as follow the first bad one, escapes counted
as what they resolved to. -/
def finish (taken rest : List UInt8) : Except Stop (String × List UInt8) :=
  match Utf8.decode? taken.reverse with
  | some s => .ok (s, rest)
  | none => .error ⟨.invalidText, (Utf8.dropValid taken.reverse).drop 1 ++ quote :: rest⟩

def collect (taken : List UInt8) : List UInt8 → Except Stop (String × List UInt8)
  | [] => .error ⟨.endOfText, []⟩
  | b :: rest =>
    if b = quote then finish taken rest
    else if b = backslash then
      match escaped : readEscape rest with
      | .error stop => .error stop
      | .ok (piece, after) =>
        have := readEscape_shorter escaped
        collect (piece.reverse ++ taken) after
    else if b < 0x20 then .error ⟨.controlCharacter, rest⟩
    else collect (b :: taken) rest
termination_by bytes => bytes.length
decreasing_by all_goals simp_all; try omega

def read (bytes : List UInt8) : Except Stop (String × List UInt8) := collect [] bytes

def skip : List UInt8 → Except Stop (List UInt8)
  | [] => .error ⟨.endOfText, []⟩
  | b :: rest =>
    if b = quote then .ok rest
    else if b = backslash then
      match escaped : skipEscape rest with
      | .error stop => .error stop
      | .ok after =>
        have := skipEscape_shorter escaped
        skip after
    else if b < 0x20 then .error ⟨.controlCharacter, b :: rest⟩
    else skip rest
termination_by bytes => bytes.length
decreasing_by all_goals simp_all; try omega

theorem finish_rest {taken bytes rest : List UInt8} {s : String}
    (ok : finish taken bytes = .ok (s, rest)) : rest = bytes := by
  unfold finish at ok
  split at ok <;> simp_all

theorem collect_shorter {taken bytes rest : List UInt8} {s : String}
    (ok : collect taken bytes = .ok (s, rest)) : rest.length < bytes.length := by
  fun_induction collect taken bytes with
  | case1 => simp at ok
  | case2 => simp [finish_rest ok]
  | case3 => simp at ok
  | case4 taken tail piece after escaped shorter _ ih =>
    have := ih ok
    simp only [List.length_cons]
    omega
  | case5 => simp at ok
  | case6 taken b tail _ _ _ ih =>
    have := ih ok
    simp only [List.length_cons]
    omega

theorem read_shorter {bytes rest : List UInt8} {s : String} (ok : read bytes = .ok (s, rest)) :
    rest.length < bytes.length := collect_shorter ok

theorem skip_shorter {bytes rest : List UInt8} (ok : skip bytes = .ok rest) :
    rest.length < bytes.length := by
  fun_induction skip bytes with
  | case1 => simp at ok
  | case2 => simp_all
  | case3 => simp at ok
  | case4 tail after escaped shorter _ ih =>
    have := ih ok
    simp only [List.length_cons]
    omega
  | case5 => simp at ok
  | case6 b tail _ _ _ ih =>
    have := ih ok
    simp only [List.length_cons]
    omega

end CharTable.Json.Text
