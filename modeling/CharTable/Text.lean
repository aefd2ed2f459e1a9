import CharTable.Text.Invisible

/-!
Text and bytes: ASCII characters and decimal numbers as bytes, lower-case hexadecimal, text in UTF-8
and back where the bytes are valid, and the quoted form in which messages show characters and
strings. That form has a backslash before the quote and before itself, letters for the common
controls, and a braced code point for what has no visible form.
-/
namespace CharTable

namespace Ascii

abbrev code (c : Char) : UInt8 := c.toUInt8

def isDigit (b : UInt8) : Bool := 48 ≤ b && b ≤ 57

def digitValue (b : UInt8) : Nat := b.toNat - 48

def decimal (n : Nat) : List UInt8 :=
  if n < 10 then [UInt8.ofNat (48 + n)] else decimal (n / 10) ++ [UInt8.ofNat (48 + n % 10)]

end Ascii

namespace Hex

def digit (n : Nat) : Char := Char.ofNat (if n < 10 then n + 48 else n + 87)

def byte (b : UInt8) : String := String.ofList [digit (b.toNat / 16), digit (b.toNat % 16)]

def bytes (bs : List UInt8) : String :=
  String.ofList (bs.flatMap fun b => [digit (b.toNat / 16), digit (b.toNat % 16)])

def digits (n : Nat) : List Char :=
  if n < 16 then [digit n] else digits (n / 16) ++ [digit (n % 16)]

end Hex

namespace Utf8

def encode (s : String) : List UInt8 := s.toByteArray.data.toList

def decode? (bytes : List UInt8) : Option String := String.fromUTF8? ⟨bytes.toArray⟩

/-- What is left behind the longest start that consists of whole characters. -/
def dropValid : List UInt8 → List UInt8
  | [] => []
  | b :: rest =>
    match [0, 1, 2, 3].find? fun later => (decode? (b :: rest.take later)).isSome with
    | some later => dropValid (rest.drop later)
    | none => b :: rest
termination_by bytes => bytes.length

theorem encode_append (s t : String) : encode (s ++ t) = encode s ++ encode t := by
  simp [encode]

theorem decode?_encode (s : String) : decode? (encode s) = some s := by
  simp [decode?, encode, String.fromUTF8?, String.fromUTF8, s.isValidUTF8]

end Utf8

namespace Quoted

def escape (quote c : Char) : List Char :=
  if c = '\x00' then ['\\', '0']
  else if c = '\t' then ['\\', 't']
  else if c = '\r' then ['\\', 'r']
  else if c = '\n' then ['\\', 'n']
  else if c = '\\' ∨ c = quote then ['\\', c]
  else if Invisible.isInvisible c then ['\\', 'u', '\x7b'] ++ Hex.digits c.toNat ++ ['\x7d']
  else [c]

def enclose (quote : Char) (cs : List Char) : List Char :=
  quote :: cs.flatMap (escape quote) ++ [quote]

def char (c : Char) : String := String.ofList (enclose '\x27' [c])

def string (s : String) : String := String.ofList (enclose '\x22' s.toList)

end Quoted

end CharTable
