import CharTable.Fault
import CharTable.Text

/-!
Rules say which bytes carry a tag. A rule is either a list of points or an inclusive range; a byte
is named by a character or by a numeric code.
-/
namespace CharTable

def allBytes : List UInt8 := (List.range 256).map UInt8.ofNat

def byteInterval (low high : UInt8) : List UInt8 :=
  (List.range' low.toNat (high.toNat + 1 - low.toNat)).map UInt8.ofNat

inductive ByteSpec where
  | char (c : Char)
  | code (n : UInt32)
deriving DecidableEq, Repr

namespace ByteSpec

def value : ByteSpec → UInt32
  | char c => c.val
  | code n => n

def resolve (s : ByteSpec) : Except Fault UInt8 :=
  if s.value.toNat < 256 then .ok s.value.toUInt8 else .error (.outOfRange s.value)

def text : ByteSpec → String
  | char c => Quoted.char c
  | code n => toString n.toNat

end ByteSpec

inductive Rule where
  | points (tag : String) (bytes : List ByteSpec)
  | range (tag : String) (low high : ByteSpec)
deriving DecidableEq, Repr

namespace Rule

def tag : Rule → String
  | points tag _ => tag
  | range tag _ _ => tag

def text : Rule → String
  | points tag bytes => tag ++ " @ \x7b" ++ ", ".intercalate (bytes.map ByteSpec.text) ++ "\x7d"
  | range tag low high => tag ++ " @ " ++ low.text ++ "..=" ++ high.text

def ofString (tag s : String) : Rule := points tag (s.toList.map .char)

end Rule

end CharTable
