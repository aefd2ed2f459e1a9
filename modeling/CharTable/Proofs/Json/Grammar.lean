import CharTable.Json.Skip
import Mathlib.Data.Nat.Digits.Defs

/-!
The grammar of JSON texts over bytes, stated without a reader: blanks, number literals, strings with
what they spell, and values of any shape. A string or number inside a value is asked for its form
only.
-/
namespace CharTable.Json.Grammar
open Ascii
open Text (quote backslash)

def blanks : List UInt8 := [code ' ', code '\n', code '\t', code '\r']

def Blanks (text : List UInt8) : Prop := ∀ b ∈ text, b ∈ blanks

instance (text : List UInt8) : Decidable (Blanks text) := List.decidableBAll (· ∈ blanks) text

def Padded (kind : List UInt8 → Prop) (text : List UInt8) : Prop :=
  ∃ before inner after, Blanks before ∧ kind inner ∧ Blanks after ∧ text = before ++ inner ++ after

def separated (items : List (List UInt8)) : List UInt8 := [code ','].intercalate items

def Digits (text : List UInt8) : Prop := text ≠ [] ∧ ∀ d ∈ text, isDigit d = true

def Whole (text : List UInt8) : Prop :=
  Digits text ∧ (text.head? = some (code '0') → text = [code '0'])

def Natural (text : List UInt8) (n : Nat) : Prop :=
  Whole text ∧ Nat.ofDigits 10 (text.reverse.map digitValue) = n

inductive Fraction : List UInt8 → List UInt8 → Prop
  | absent : Fraction [] []
  | present {ds : List UInt8} (digits : Digits ds) : Fraction (code '.' :: ds) ds

inductive Exponent : List UInt8 → List UInt8 → Prop
  | absent : Exponent [] []
  | present {mark : UInt8} {sign ds : List UInt8} (marked : mark = code 'e' ∨ mark = code 'E')
      (signed : sign = [] ∨ sign = [code '-'] ∨ sign = [code '+']) (digits : Digits ds) :
      Exponent (mark :: (sign ++ ds)) ds

inductive Number : List UInt8 → Prop
  | literal {sign whole fraction places exponent power : List UInt8}
      (signed : sign = [] ∨ sign = [code '-']) (digits : Whole whole)
      (fractional : Fraction fraction places) (scaled : Exponent exponent power) :
      Number (sign ++ whole ++ fraction ++ exponent)

def HexDigit (b : UInt8) (v : Nat) : Prop :=
  (Utf8.encode "0123456789abcdef")[v]? = some b ∨ (Utf8.encode "0123456789ABCDEF")[v]? = some b

inductive HexUnit : List UInt8 → Nat → Prop
  | digits {a b c d : UInt8} {w x y z : Nat} (first : HexDigit a w) (second : HexDigit b x)
      (third : HexDigit c y) (fourth : HexDigit d z) :
      HexUnit [a, b, c, d] (((w * 16 + x) * 16 + y) * 16 + z)

def shorts : List (UInt8 × UInt8) :=
  [(quote, 0x22), (backslash, 0x5c), (code '/', 0x2f), (code 'b', 0x08), (code 'f', 0x0c),
    (code 'n', 0x0a), (code 'r', 0x0d), (code 't', 0x09)]

/-- What follows a backslash, and the bytes it stands for: a mark, the code of a character, or the
codes of the two surrogates of a character. -/
inductive Escape : List UInt8 → List UInt8 → Prop
  | short {mark b : UInt8} (listed : (mark, b) ∈ shorts) : Escape [mark] [b]
  | unit {digits : List UInt8} {c : Char} (coded : HexUnit digits c.toNat) :
      Escape (code 'u' :: digits) (Utf8.encode (String.singleton c))
  | pair {first second : List UInt8} {high low : Nat} {c : Char}
      (upper : HexUnit first (0xd800 + high)) (lower : HexUnit second (0xdc00 + low))
      (small : low < 0x400) (valued : c.toNat = 0x10000 + high * 0x400 + low) :
      Escape (code 'u' :: (first ++ backslash :: code 'u' :: second))
          (Utf8.encode (String.singleton c))

def Plain (b : UInt8) : Prop := 0x20 ≤ b ∧ b ≠ quote ∧ b ≠ backslash

instance (b : UInt8) : Decidable (Plain b) :=
  inferInstanceAs (Decidable (0x20 ≤ b ∧ b ≠ quote ∧ b ≠ backslash))

inductive Spells : List UInt8 → List UInt8 → Prop
  | empty : Spells [] []
  | plain {b : UInt8} {text bytes : List UInt8} (itself : Plain b) (rest : Spells text bytes) :
      Spells (b :: text) (b :: bytes)
  | escape {mark piece text bytes : List UInt8} (escaped : Escape mark piece)
      (rest : Spells text bytes) : Spells (backslash :: (mark ++ text)) (piece ++ bytes)

/-- What stands between the quotes of a string of which nothing is wanted. A numeric escape may
denote half of a character, and the bytes need not be text. -/
inductive Loose : List UInt8 → Prop
  | empty : Loose []
  | plain {b : UInt8} {text : List UInt8} (itself : Plain b) (rest : Loose text) : Loose (b :: text)
  | short {mark b : UInt8} {text : List UInt8} (listed : (mark, b) ∈ shorts) (rest : Loose text) :
      Loose (backslash :: mark :: text)
  | unit {digits text : List UInt8} {n : Nat} (coded : HexUnit digits n) (rest : Loose text) :
      Loose (backslash :: code 'u' :: (digits ++ text))

def opening : Bracket → UInt8
  | .list => code '['
  | .object => code '\x7b'

def Lead : Bracket → List UInt8 → Prop
  | .list, text => Blanks text
  | .object, text => ∃ before key gap after, Blanks before ∧ Loose key ∧ Blanks gap ∧ Blanks after ∧
      text = before ++ quote :: (key ++ quote :: (gap ++ code ':' :: after))

structure Slot where
  lead : List UInt8
  value : List UInt8
  trail : List UInt8

def Slot.text (s : Slot) : List UInt8 := s.lead ++ s.value ++ s.trail

inductive Value : List UInt8 → Prop
  | word {w : String} (listed : w ∈ ["null", "true", "false"]) : Value (Utf8.encode w)
  | number {text : List UInt8} (form : Number text) : Value text
  | string {text : List UInt8} (form : Loose text) : Value (quote :: (text ++ [quote]))
  | empty (k : Bracket) {gap : List UInt8} (blank : Blanks gap) :
      Value (opening k :: (gap ++ [k.close]))
  | filled (k : Bracket) {items : List Slot} (nonempty : items ≠ [])
      (leads : ∀ s ∈ items, Lead k s.lead) (values : ∀ s ∈ items, Value s.value)
      (trails : ∀ s ∈ items, Blanks s.trail) :
      Value (opening k :: (separated (items.map Slot.text) ++ [k.close]))

end CharTable.Json.Grammar
