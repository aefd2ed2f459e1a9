import CharTable.Json.Literal
import CharTable.Json.Text

/-!
Passing over a value of any shape. The brackets that are still open are kept as a list, so that no
depth of nesting is too much; of numbers and strings only the form is looked at.
-/
namespace CharTable.Json
open Ascii

def readWord : List UInt8 → List UInt8 → Except Stop (List UInt8)
  | [], bytes => .ok bytes
  | _ :: _, [] => .error ⟨.endOfValue, []⟩
  | w :: word, b :: rest => if b = w then readWord word rest else .error ⟨.wordExpected, rest⟩

def readColon (bytes : List UInt8) : Except Stop (List UInt8) :=
  match bytes.dropWhile isBlank with
  | [] => .error ⟨.endOfObject, []⟩
  | b :: rest => if b = code ':' then .ok rest else .error ⟨.colonExpected, rest⟩

inductive Bracket where
  | list
  | object
deriving DecidableEq, Repr

namespace Bracket

def close : Bracket → UInt8
  | list => code ']'
  | object => code '\x7d'

def unfinished : Bracket → Reason
  | list => .endOfList
  | object => .endOfObject

def unseparated : Bracket → Reason
  | list => .listExpected
  | object => .objectExpected

def lead (k : Bracket) (bytes : List UInt8) : Except Stop (List UInt8) :=
  match k with
  | list => .ok bytes
  | object =>
    match bytes.dropWhile isBlank with
    | [] => .error ⟨.endOfObject, []⟩
    | b :: rest =>
      if b = Text.quote then Text.skip rest >>= readColon else .error ⟨.keyExpected, rest⟩

end Bracket

structure Pending where
  value : Bool
  brackets : List Bracket

namespace Pending

def enter (k : Bracket) (outer : List Bracket) (bytes : List UInt8) :
    Except Stop (Pending × List UInt8) :=
  match bytes.dropWhile isBlank with
  | [] => .error ⟨k.unfinished, []⟩
  | b :: rest =>
    if b = k.close then .ok (⟨false, outer⟩, rest)
    else (k.lead (b :: rest)).map (⟨true, k :: outer⟩, ·)

def follow (k : Bracket) (outer : List Bracket) (bytes : List UInt8) :
    Except Stop (Pending × List UInt8) :=
  match bytes.dropWhile isBlank with
  | [] => .error ⟨k.unfinished, []⟩
  | b :: rest =>
    if b = k.close then .ok (⟨false, outer⟩, rest)
    else if b = code ',' then (k.lead rest).map (⟨true, k :: outer⟩, ·)
    else .error ⟨k.unseparated, rest⟩

def skipScalar (b : UInt8) (rest : List UInt8) : Except Stop (List UInt8) :=
  if b = code 'n' then readWord (Utf8.encode "ull") rest
  else if b = code 't' then readWord (Utf8.encode "rue") rest
  else if b = code 'f' then readWord (Utf8.encode "alse") rest
  else if b = code '-' ∨ isDigit b then (Literal.read .invalidNumber (b :: rest)).map Prod.snd
  else if b = Text.quote then Text.skip rest
  else .error ⟨.valueExpected, rest⟩

def start (outer : List Bracket) (bytes : List UInt8) : Except Stop (Pending × List UInt8) :=
  match bytes.dropWhile isBlank with
  | [] => .error ⟨.endOfValue, []⟩
  | b :: rest =>
    if b = code '[' then enter .list outer rest
    else if b = code '\x7b' then enter .object outer rest
    else (skipScalar b rest).map (⟨false, outer⟩, ·)

def step (p : Pending) (bytes : List UInt8) : Option (Except Stop (Pending × List UInt8)) :=
  match p.value, p.brackets with
  | true, outer => some (start outer bytes)
  | false, k :: outer => some (follow k outer bytes)
  | false, [] => none

theorem readWord_short {word bytes rest : List UInt8} (ok : readWord word bytes = .ok rest) :
    rest.length ≤ bytes.length := by
  fun_induction readWord word bytes with
  | case1 => simp_all
  | case2 => simp at ok
  | case3 word w tail ih =>
    have := ih ok
    simp only [List.length_cons]
    omega
  | case4 => simp at ok

theorem length_dropBlanks (bytes : List UInt8) : (bytes.dropWhile isBlank).length ≤ bytes.length :=
  (List.dropWhile_suffix _).length_le

theorem readColon_shorter {bytes rest : List UInt8} (ok : readColon bytes = .ok rest) :
    rest.length < bytes.length := by
  have := length_dropBlanks bytes
  unfold readColon at ok
  split at ok
  · simp at ok
  · rename_i found
    rw [found, List.length_cons] at this
    split at ok
    · cases ok
      omega
    · cases ok

theorem lead_short {k : Bracket} {bytes rest : List UInt8} (ok : k.lead bytes = .ok rest) :
    rest.length ≤ bytes.length := by
  have := length_dropBlanks bytes
  unfold Bracket.lead at ok
  split at ok
  · simp_all
  split at ok
  · simp at ok
  rename_i found
  rw [found] at this
  split at ok
  · obtain ⟨after, first, ok⟩ := bind_eq_ok.mp ok
    have := Text.skip_shorter first
    have := readColon_shorter ok
    simp only [List.length_cons] at *
    omega
  · simp at ok

theorem enter_short {k : Bracket} {outer : List Bracket} {bytes rest : List UInt8} {p : Pending}
    (ok : enter k outer bytes = .ok (p, rest)) : rest.length ≤ bytes.length := by
  have short := length_dropBlanks bytes
  unfold enter at ok
  split at ok
  · cases ok
  rename_i found
  rw [found] at short
  split at ok
  · cases ok
    exact Nat.le_of_lt short
  · obtain ⟨after, first, same⟩ := map_eq_ok.mp ok
    cases same
    exact Nat.le_trans (lead_short first) short

theorem follow_shorter {k : Bracket} {outer : List Bracket} {bytes rest : List UInt8} {p : Pending}
    (ok : follow k outer bytes = .ok (p, rest)) : rest.length < bytes.length := by
  have short := length_dropBlanks bytes
  unfold follow at ok
  split at ok
  · cases ok
  rename_i found
  rw [found] at short
  split at ok
  · cases ok
    exact short
  split at ok
  · obtain ⟨after, first, same⟩ := map_eq_ok.mp ok
    cases same
    exact Nat.lt_of_le_of_lt (lead_short first) short
  · cases ok

theorem skipScalar_short {b : UInt8} {bytes rest : List UInt8}
    (ok : skipScalar b bytes = .ok rest) : rest.length ≤ bytes.length := by
  unfold skipScalar at ok
  split at ok
  · exact readWord_short ok
  split at ok
  · exact readWord_short ok
  split at ok
  · exact readWord_short ok
  split at ok
  · obtain ⟨⟨l, after⟩, first, same⟩ := map_eq_ok.mp ok
    have := Literal.read_shorter first
    cases same
    exact Nat.le_of_lt_succ this
  split at ok
  · exact Nat.le_of_lt (Text.skip_shorter ok)
  · simp at ok

theorem start_shorter {outer : List Bracket} {bytes rest : List UInt8} {p : Pending}
    (ok : start outer bytes = .ok (p, rest)) : rest.length < bytes.length := by
  have := length_dropBlanks bytes
  unfold start at ok
  split at ok
  · simp at ok
  rename_i found
  rw [found, List.length_cons] at this
  split at ok
  · have := enter_short ok
    omega
  split at ok
  · have := enter_short ok
    omega
  · obtain ⟨after, first, same⟩ := map_eq_ok.mp ok
    have := skipScalar_short first
    simp only [Prod.mk.injEq] at same
    rw [← same.2]
    omega

theorem step_shorter {p next : Pending} {bytes rest : List UInt8}
    (taken : p.step bytes = some (.ok (next, rest))) : rest.length < bytes.length := by
  unfold step at taken
  split at taken
  · exact start_shorter (Option.some.inj taken)
  · exact follow_shorter (Option.some.inj taken)
  · simp at taken

def run (p : Pending) (bytes : List UInt8) : Except Stop (List UInt8) :=
  match taken : p.step bytes with
  | none => .ok bytes
  | some (.error stop) => .error stop
  | some (.ok (next, rest)) =>
    have := step_shorter taken
    run next rest
termination_by bytes.length

theorem run_short {p : Pending} {bytes rest : List UInt8} (ok : p.run bytes = .ok rest) :
    rest.length ≤ bytes.length := by
  fun_induction run p bytes with
  | case1 => simp_all
  | case2 => simp at ok
  | case3 p bytes next after taken shorter ih => exact Nat.le_trans (ih ok) (Nat.le_of_lt shorter)

end Pending

def skipValue (bytes : List UInt8) : Except Stop (List UInt8) := Pending.run ⟨true, []⟩ bytes

end CharTable.Json
