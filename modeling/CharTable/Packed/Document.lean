import CharTable.Json.Item
import CharTable.Packed

/-!
The JSON form of a packed table: an object with the mask and the list of the 256 flag bytes. Writing
lays it out over lines. Reading takes the two fields in any order among others that are passed over,
or a list of the two.
-/
namespace CharTable.Packed.Document
open Json Ascii

def cells (flags : List UInt8) : List UInt8 :=
  List.intercalate (Utf8.encode ",\n") (flags.map fun b => Utf8.encode "    " ++ decimal b.toNat)

def write (p : Packed) : List UInt8 :=
  Utf8.encode "\x7b\n  \"class_mask\": " ++ decimal p.mask.toNat ++
    Utf8.encode ",\n  \"flags\": [\n" ++ cells p.flags.toList ++ Utf8.encode "\n  ]\n\x7d"

inductive Field where
  | mask
  | flags
deriving DecidableEq, Repr

def Field.name : Field → String
  | mask => "class_mask"
  | flags => "flags"

def Field.ofName? (name : String) : Option Field :=
  if name = Field.mask.name then some .mask
    else if name = Field.flags.name then some .flags else none

structure Fields where
  mask : Option UInt8
  flags : Option (Vector UInt8 256)

def Fields.empty : Fields := ⟨none, none⟩

def Fields.has (f : Fields) : Field → Bool
  | .mask => f.mask.isSome
  | .flags => f.flags.isSome

def Fields.packed (f : Fields) : Except Field Packed :=
  match f.mask, f.flags with
  | some mask, some flags => .ok ⟨mask, flags⟩
  | none, _ => .error .mask
  | _, none => .error .flags

def readCells (index : Nat) : (n : Nat) → List UInt8 →
    Except Stop ({ cells : List UInt8 // cells.length = n } × List UInt8)
  | 0, bytes => .ok (⟨[], rfl⟩, bytes)
  | n + 1, bytes => do
    match ← nextElement (index = 0) bytes with
    | .closed rest => .error ⟨.wrongLength index "an array of size 256", rest⟩
    | .found rest =>
      let (b, rest) ← readByte rest
      let (⟨cells, size⟩, rest) ← readCells (index + 1) n rest
      return (⟨b :: cells, congrArg (· + 1) size⟩, rest)

def readFlags (bytes : List UInt8) : Except Stop (Vector UInt8 256 × List UInt8) :=
  match bytes.dropWhile isBlank with
  | [] => .error ⟨.endOfValue, []⟩
  | b :: rest =>
    if b = code '[' then do
      let (⟨cells, size⟩, rest) ← readCells 0 256 rest
      return (⟨cells.toArray, size⟩, ← readListEnd rest)
    else .error (mismatch "an array of size 256" b rest)

/-- A key that was there before stops the reading once it is seen what follows it. -/
def repeated (field : Field) (bytes : List UInt8) : Stop :=
  let rest := bytes.dropWhile isBlank
  ⟨.duplicateField field.name, if rest.head? = some (code '\x7d') then rest.drop 1 else rest⟩

def readValue (f : Fields) (key : String) (bytes : List UInt8) :
    Except Stop (Fields × List UInt8) :=
  match Field.ofName? key with
  | none => do
    let rest ← readColon bytes
    return (f, ← skipValue rest)
  | some field =>
    if f.has field then .error (repeated field bytes)
    else do
      let rest ← readColon bytes
      match field with
      | .mask =>
        let (mask, rest) ← readByte rest
        return (⟨some mask, f.flags⟩, rest)
      | .flags =>
        let (flags, rest) ← readFlags rest
        return (⟨f.mask, some flags⟩, rest)

def readMember (f : Fields) (bytes : List UInt8) : Except Stop (Fields × List UInt8) := do
  let (key, rest) ← Text.read bytes
  readValue f key rest

theorem skipValue_short {bytes rest : List UInt8} (ok : skipValue bytes = .ok rest) :
    rest.length ≤ bytes.length := Pending.run_short ok

theorem readCells_short {index n : Nat} {bytes rest : List UInt8}
    {cells : { l : List UInt8 // l.length = n }}
    (ok : readCells index n bytes = .ok (cells, rest)) : rest.length ≤ bytes.length := by
  induction n generalizing index bytes rest with
  | zero => cases ok; exact Nat.le_refl _
  | succ n ih =>
    unfold readCells at ok
    obtain ⟨item, first, ok⟩ := bind_eq_ok.mp ok
    have := nextElement_short first
    split at ok
    · cases ok
    obtain ⟨⟨b, afterByte⟩, second, ok⟩ := bind_eq_ok.mp ok
    obtain ⟨⟨⟨cells, size⟩, afterCells⟩, third, ok⟩ := bind_eq_ok.mp ok
    cases ok
    have := readByte_shorter second
    have := ih third
    simp only [Item.rest] at *
    omega

theorem readFlags_shorter {bytes rest : List UInt8} {flags : Vector UInt8 256}
    (ok : readFlags bytes = .ok (flags, rest)) : rest.length < bytes.length := by
  have short := Pending.length_dropBlanks bytes
  unfold readFlags at ok
  split at ok
  · cases ok
  rename_i found
  rw [found, List.length_cons] at short
  split at ok
  · obtain ⟨⟨⟨cells, size⟩, after⟩, first, ok⟩ := bind_eq_ok.mp ok
    obtain ⟨last, second, ok⟩ := bind_eq_ok.mp ok
    cases ok
    have := readCells_short first
    have := readListEnd_shorter second
    omega
  · cases ok

theorem readMember_shorter {f after : Fields} {bytes rest : List UInt8}
    (ok : readMember f bytes = .ok (after, rest)) : rest.length < bytes.length := by
  unfold readMember readValue at ok
  obtain ⟨⟨key, afterKey⟩, first, ok⟩ := bind_eq_ok.mp ok
  have := Text.read_shorter first
  dsimp only at ok
  split at ok
  · obtain ⟨afterColon, second, ok⟩ := bind_eq_ok.mp ok
    obtain ⟨last, third, ok⟩ := bind_eq_ok.mp ok
    cases ok
    have := Pending.readColon_shorter second
    have := skipValue_short third
    omega
  · split at ok
    · cases ok
    obtain ⟨afterColon, second, ok⟩ := bind_eq_ok.mp ok
    have := Pending.readColon_shorter second
    split at ok
    · obtain ⟨⟨mask, last⟩, third, ok⟩ := bind_eq_ok.mp ok
      cases ok
      have := readByte_shorter third
      dsimp only
      omega
    · obtain ⟨⟨flags, last⟩, third, ok⟩ := bind_eq_ok.mp ok
      cases ok
      have := readFlags_shorter third
      dsimp only
      omega

def readMembers (f : Fields) (first : Bool) (bytes : List UInt8) :
    Except Stop (Fields × List UInt8) :=
  match next : nextKey first bytes with
  | .error stop => .error stop
  | .ok (.closed rest) => .ok (f, rest)
  | .ok (.found rest) =>
    match member : readMember f rest with
    | .error stop => .error stop
    | .ok (f, after) =>
      have := nextKey_shorter next
      have := readMember_shorter member
      readMembers f false after
termination_by bytes.length
decreasing_by simp only [Item.rest] at *; omega

def readObject (bytes : List UInt8) : Except Stop (Packed × List UInt8) := do
  let (fields, rest) ← readMembers .empty true bytes
  match fields.packed with
  | .ok p => return (p, rest)
  | .error field => .error ⟨.missingField field.name, rest⟩

def readPair (bytes : List UInt8) : Except Stop (Packed × List UInt8) := do
  let missing (count : Nat) (rest : List UInt8) : Stop :=
    ⟨.wrongLength count "struct PackedDisk with 2 elements", rest⟩
  match ← nextElement true bytes with
  | .closed rest => .error (missing 0 rest)
  | .found rest =>
    let (mask, rest) ← readByte rest
    match ← nextElement false rest with
    | .closed rest => .error (missing 1 rest)
    | .found rest =>
      let (flags, rest) ← readFlags rest
      return (⟨mask, flags⟩, ← readListEnd rest)

def readTable (bytes : List UInt8) : Except Stop (Packed × List UInt8) :=
  match bytes.dropWhile isBlank with
  | [] => .error ⟨.endOfValue, []⟩
  | b :: rest =>
    if b = code '\x7b' then readObject rest
    else if b = code '[' then readPair rest
    else .error (mismatch "struct PackedDisk" b rest)

def read (bytes : List UInt8) : Except Stop Packed := do
  let (p, rest) ← readTable bytes
  match rest.dropWhile isBlank with
  | [] => return p
  | _ :: after => .error ⟨.trailingBytes, after⟩

def refusal (bytes : List UInt8) (s : Stop) : String :=
  "Failed to parse char table JSON: " ++ s.message bytes

end CharTable.Packed.Document
