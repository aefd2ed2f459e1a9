import CharTable.Text

/-!
The values of JSON number literals. A literal without fraction and exponent that fits a machine word
is an integer; every other one is a binary fraction, computed from the leading digits that fit a
word and one scaling by a power of ten.
-/
namespace CharTable.Json

structure Literal where
  negative : Bool
  whole : List UInt8
  fraction : List UInt8
  lowered : Bool
  exponent : List UInt8

inductive Number where
  | natural (n : Nat)
  | negative (n : Nat)
  | real (x : Float)

namespace Literal

def gather (limit n : Nat) : List UInt8 → Nat × List UInt8
  | [] => (n, [])
  | d :: rest =>
    if n * 10 + Ascii.digitValue d ≤ limit then gather limit (n * 10 + Ascii.digitValue d) rest
    else (n, d :: rest)

def wordLimit : Nat := 18446744073709551615

def exponentLimit : Nat := 2147483647

def power (k : Nat) : Float := Float.ofScientific 1 false k

def scale (x : Float) (k : Int) : Option Float :=
  if k.natAbs ≤ 308 then
    if 0 ≤ k then
      let scaled := x * power k.toNat
      if scaled.isInf then none else some scaled
    else some (x / power k.natAbs)
  else if x == 0 then some x
  else if 0 ≤ k then none
  else scale (x / power 308) (k + 308)
termination_by (-k).toNat

def signed (negative : Bool) (x : Float) : Float := if negative then -x else x

def integer (negative : Bool) (n : Nat) : Number :=
  if !negative then .natural n
  else if 0 < n ∧ n ≤ 9223372036854775808 then .negative n
  else .real (-n.toUInt64.toFloat)

/-- The value of a literal. One that is out of range leaves the exponent digits that were not needed
to see it. -/
def value (l : Literal) : Except (List UInt8) Number :=
  let (whole, unfit) := gather wordLimit 0 l.whole
  if unfit.isEmpty ∧ l.fraction.isEmpty ∧ l.exponent.isEmpty then .ok (integer l.negative whole)
  else
    let (significand, ignored) := gather wordLimit whole l.fraction
    let places : Int := unfit.length - (l.fraction.length - ignored.length : Nat)
    let (exponent, beyond) := gather exponentLimit 0 l.exponent
    match beyond with
    | _ :: left =>
      if significand ≠ 0 ∧ !l.lowered then .error left else .ok (.real (signed l.negative 0))
    | [] =>
      match scale significand.toUInt64.toFloat (if l.lowered then places - exponent
        else places + exponent) with
      | some x => .ok (.real (signed l.negative x))
      | none => .error []

end Literal
end CharTable.Json
