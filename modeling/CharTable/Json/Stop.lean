import CharTable.Decimal
import CharTable.Fault
import CharTable.Json.Number
import CharTable.Text

/-!
Why the reading of a JSON text stops, and where. A stop holds the bytes after its position; line and
column follow from those before it.
-/
namespace CharTable.Json

inductive Found where
  | null
  | bool (b : Bool)
  | number (n : Number)
  | string (s : String)
  | list
  | object

inductive Reason where
  | endOfValue
  | endOfList
  | endOfObject
  | endOfText
  | valueExpected
  | wordExpected
  | colonExpected
  | listExpected
  | objectExpected
  | keyExpected
  | trailingComma
  | trailingBytes
  | invalidNumber
  | numberOutOfRange
  | invalidEscape
  | unfinishedEscape
  | loneSurrogate
  | invalidText
  | controlCharacter
  | wrongType (found : Found) (wanted : String)
  | wrongValue (found : Number) (wanted : String)
  | wrongLength (length : Nat) (wanted : String)
  | missingField (name : String)
  | duplicateField (name : String)

structure Stop where
  reason : Reason
  rest : List UInt8

/-- Numbers with the point moved by at most five places to the left and fifteen to the right are
written by position, whole ones with a zero after the point; the exponents of the others have no
padding. -/
def Number.layout : Decimal.Layout := ⟨-5, 15, ".0", "e+", "e-"⟩

def Number.text : Number → String
  | natural n => s!"integer `{n}`"
  | negative n => s!"integer `-{n}`"
  | real x => "floating point `" ++ layout.float x ++ "`"

def Found.text : Found → String
  | null => "null"
  | bool b => s!"boolean `{b}`"
  | number n => n.text
  | string s => "string " ++ Quoted.string s
  | list => "sequence"
  | object => "map"

namespace Reason

def message : Reason → String
  | endOfValue => "EOF while parsing a value"
  | endOfList => "EOF while parsing a list"
  | endOfObject => "EOF while parsing an object"
  | endOfText => "EOF while parsing a string"
  | valueExpected => "expected value"
  | wordExpected => "expected ident"
  | colonExpected => "expected `:`"
  | listExpected => "expected `,` or `]`"
  | objectExpected => "expected `,` or `\x7d`"
  | keyExpected => "key must be a string"
  | trailingComma => "trailing comma"
  | trailingBytes => "trailing characters"
  | invalidNumber => "invalid number"
  | numberOutOfRange => "number out of range"
  | invalidEscape => "invalid escape"
  | unfinishedEscape => "unexpected end of hex escape"
  | loneSurrogate => "lone leading surrogate in hex escape"
  | invalidText => "invalid unicode code point"
  | controlCharacter => "control character (\\u0000-\\u001F) found while parsing a string"
  | wrongType found wanted => s!"invalid type: {found.text}, expected {wanted}"
  | wrongValue found wanted => s!"invalid value: {found.text}, expected {wanted}"
  | wrongLength length wanted => s!"invalid length {length}, expected {wanted}"
  | missingField name => s!"missing field `{name}`"
  | duplicateField name => s!"duplicate field `{name}`"

end Reason

namespace Stop

def position (whole : List UInt8) (s : Stop) : Nat × Nat :=
  let before := whole.take (whole.length - s.rest.length)
  let newline := Ascii.code '\n'
  (before.count newline + 1, (before.reverse.takeWhile (· ≠ newline)).length)

def message (whole : List UInt8) (s : Stop) : String :=
  let (line, column) := s.position whole
  s!"{s.reason.message} at line {line} column {column}"

end Stop
end CharTable.Json
