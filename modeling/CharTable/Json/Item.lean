import CharTable.Json.Skip

/-!
Reading values of which a certain type is wanted: the items of lists and objects one after the
other, byte values, and what is said of a value of another type.
-/
namespace CharTable.Json
open Ascii

inductive Item where
  | found (rest : List UInt8)
  | closed (rest : List UInt8)

def Item.rest : Item → List UInt8
  | found rest => rest
  | closed rest => rest

def nextElement (first : Bool) (bytes : List UInt8) : Except Stop Item :=
  match bytes.dropWhile isBlank with
  | [] => .error ⟨.endOfList, []⟩
  | b :: rest =>
    if b = code ']' then .ok (.closed rest)
    else if first then .ok (.found (b :: rest))
    else if b = code ',' then
      match rest.dropWhile isBlank with
      | [] => .error ⟨.endOfValue, []⟩
      | c :: after =>
        if c = code ']' then .error ⟨.trailingComma, after⟩ else .ok (.found (c :: after))
    else .error ⟨.listExpected, rest⟩

def readListEnd (bytes : List UInt8) : Except Stop (List UInt8) :=
  match bytes.dropWhile isBlank with
  | [] => .error ⟨.endOfList, []⟩
  | b :: rest =>
    if b = code ']' then .ok rest
    else if b = code ',' then
      match rest.dropWhile isBlank with
      | [] => .error ⟨.trailingBytes, []⟩
      | c :: after => .error ⟨if c = code ']' then .trailingComma else .trailingBytes, after⟩
    else .error ⟨.trailingBytes, rest⟩

def nextKey (first : Bool) (bytes : List UInt8) : Except Stop Item :=
  match bytes.dropWhile isBlank with
  | [] => .error ⟨.endOfObject, []⟩
  | b :: rest =>
    if b = code '\x7d' then .ok (.closed rest)
    else if first then if b = Text.quote then .ok (.found rest) else .error ⟨.keyExpected, rest⟩
    else if b = code ',' then
      match rest.dropWhile isBlank with
      | [] => .error ⟨.endOfValue, []⟩
      | c :: after =>
        if c = Text.quote then .ok (.found after)
        else .error ⟨if c = code '\x7d' then .trailingComma else .keyExpected, after⟩
    else .error ⟨.objectExpected, rest⟩

/-- The stop at a value with the given first byte where a value of another type is wanted. Words,
numbers and strings are read first, and what is wrong within them comes before their type. -/
def mismatch (wanted : String) (b : UInt8) (rest : List UInt8) : Stop :=
  let wrong (found : Found) : Stop := ⟨.wrongType found wanted, b :: rest⟩
  let wrongAfter {α : Type} (found : α → Found) (result : Except Stop (α × List UInt8)) : Stop :=
    match result with
    | .error stop => stop
    | .ok (a, rest) => ⟨.wrongType (found a) wanted, rest⟩
  let word (w : String) (found : Found) : Stop :=
    wrongAfter (fun _ => found) ((readWord (Utf8.encode w) rest).map ((), ·))
  if b = code 'n' then word "ull" .null
  else if b = code 't' then word "rue" (.bool true)
  else if b = code 'f' then word "alse" (.bool false)
  else if b = code '-' ∨ isDigit b then wrongAfter .number (Number.read (b :: rest))
  else if b = Text.quote then wrongAfter .string (Text.read rest)
  else if b = code '[' then wrong .list
  else if b = code '\x7b' then wrong .object
  else ⟨.valueExpected, rest⟩

def Number.toByte (rest : List UInt8) : Number → Except Stop UInt8
  | natural n =>
    if n < 256 then .ok (UInt8.ofNat n) else .error ⟨.wrongValue (natural n) "u8", rest⟩
  | negative n => .error ⟨.wrongValue (negative n) "u8", rest⟩
  | real x => .error ⟨.wrongType (.number (real x)) "u8", rest⟩

def readByte (bytes : List UInt8) : Except Stop (UInt8 × List UInt8) :=
  match bytes.dropWhile isBlank with
  | [] => .error ⟨.endOfValue, []⟩
  | b :: rest =>
    if b = code '-' ∨ isDigit b then do
      let (n, rest) ← Number.read (b :: rest)
      return (← n.toByte rest, rest)
    else .error (mismatch "u8" b rest)

theorem Number.read_shorter {bytes rest : List UInt8} {n : Number}
    (ok : Number.read bytes = .ok (n, rest)) : rest.length < bytes.length := by
  unfold Number.read at ok
  obtain ⟨⟨l, after⟩, first, ok⟩ := bind_eq_ok.mp ok
  have := Literal.read_shorter first
  dsimp only at ok
  split at ok <;> cases ok
  exact this

theorem readByte_shorter {bytes rest : List UInt8} {b : UInt8}
    (ok : readByte bytes = .ok (b, rest)) : rest.length < bytes.length := by
  have short := Pending.length_dropBlanks bytes
  unfold readByte at ok
  split at ok
  · cases ok
  rename_i found
  rw [found] at short
  split at ok
  · obtain ⟨⟨n, after⟩, first, ok⟩ := bind_eq_ok.mp ok
    obtain ⟨value, second, ok⟩ := bind_eq_ok.mp ok
    cases ok
    exact Nat.lt_of_lt_of_le (Number.read_shorter first) short
  · cases ok

theorem nextElement_short {first : Bool} {bytes : List UInt8} {item : Item}
    (ok : nextElement first bytes = .ok item) : item.rest.length ≤ bytes.length := by
  have short := Pending.length_dropBlanks bytes
  unfold nextElement at ok
  split at ok
  · cases ok
  rename_i tail found
  have inner := Pending.length_dropBlanks tail
  rw [found, List.length_cons] at short
  repeat' split at ok
  all_goals cases ok
  all_goals simp_all [Item.rest]
  all_goals omega

theorem readListEnd_shorter {bytes rest : List UInt8} (ok : readListEnd bytes = .ok rest) :
    rest.length < bytes.length := by
  have short := Pending.length_dropBlanks bytes
  unfold readListEnd at ok
  split at ok
  · cases ok
  rename_i tail found
  rw [found, List.length_cons] at short
  repeat' split at ok
  all_goals cases ok
  omega

theorem nextKey_shorter {first : Bool} {bytes : List UInt8} {item : Item}
    (ok : nextKey first bytes = .ok item) : item.rest.length < bytes.length := by
  have short := Pending.length_dropBlanks bytes
  unfold nextKey at ok
  split at ok
  · cases ok
  rename_i tail found
  have inner := Pending.length_dropBlanks tail
  rw [found, List.length_cons] at short
  repeat' split at ok
  all_goals cases ok
  all_goals simp_all [Item.rest]
  all_goals omega

end CharTable.Json
