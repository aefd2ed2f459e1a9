/-!
The shortest decimal that reads back as a given binary number. A finite positive number is
`m * 2^q`; the reals that round to it form an interval around it, whose ends belong to it when `m`
is even. Its digits are laid out by position for exponents of the first digit in a middle range, and
with one digit before the point and a marked exponent outside it.
-/
namespace CharTable.Decimal

/-- A binary number `m * 2^q`. The neighbour below is half as far as the one above where `low`
holds. -/
structure Binary where
  m : Nat
  q : Int
  low : Bool

structure Scaled where
  digits : Nat
  exponent : Int
deriving DecidableEq, Repr

namespace Binary

def fractions : Nat := 4503599627370496

def ofFloat (x : Float) : Binary :=
  let bits := x.toBits.toNat
  let fraction := bits % fractions
  let exponent : Nat := bits / fractions % 2048
  if exponent = 0 then ⟨fraction, -1074, false⟩
  else ⟨fractions + fraction, exponent - 1075, fraction = 0 ∧ 1 < exponent⟩

def ratio (n : Nat) (q k : Int) : Nat × Nat :=
  (n * Nat.pow 2 q.toNat * Nat.pow 10 (-k).toNat, Nat.pow 2 (-q).toNat * Nat.pow 10 k.toNat)

/-- Whether `d * 10^k` rounds to the number. All is compared in quarters of its last place. -/
def holds (x : Binary) (k : Int) (d : Nat) : Bool :=
  let lower := 4 * x.m - (if x.low then 1 else 2)
  let upper := 4 * x.m + 2
  let (ln, den) := ratio lower (x.q - 2) k
  let (un, _) := ratio upper (x.q - 2) k
  if x.m % 2 = 0 then ln ≤ d * den && d * den ≤ un else ln < d * den && d * den < un

/-- Of the two points next to the number on the grid of `10^k`, the nearer one that rounds to it; of
two that are equally near, the even one. -/
def onGrid (x : Binary) (k : Int) : Option Nat :=
  let (num, den) := ratio x.m x.q k
  let below := num / den
  let part := num % den * 2
  match x.holds k below, x.holds k (below + 1) with
  | true, true => some (if part < den ∨ (part = den ∧ below % 2 = 0) then below else below + 1)
  | true, false => some below
  | false, true => some (below + 1)
  | false, false => none

def magnitude (x : Binary) : Int :=
  let digitsOf (n : Nat) : Int := (Nat.toDigits 10 n).length
  let (num, den) := ratio x.m x.q 0
  if den ≤ num then digitsOf (num / den) - 1 else -(digitsOf ((den - 1) / num))

def shortest (x : Binary) : Scaled :=
  let top := x.magnitude
  let withDigits (n : Nat) : Option Scaled :=
    let k := top + 1 - n
    (x.onGrid k).map (⟨·, k⟩)
  ((List.range' 1 17).findSome? withDigits).getD ⟨x.m, x.q⟩

end Binary

structure Layout where
  lowest : Int
  highest : Int
  whole : String
  positive : String
  negative : String

def Layout.text (l : Layout) (s : Scaled) : String :=
  let digits := Nat.toDigits 10 s.digits
  let trimmed := (digits.reverse.dropWhile (· = '0')).reverse
  let first : Int := s.exponent + digits.length - 1
  if first < l.lowest ∨ l.highest < first then
    let rest := trimmed.drop 1
    let point := if rest.isEmpty then [] else '.' :: rest
    let size := Nat.toDigits 10 first.natAbs
    String.ofList (trimmed.take 1 ++ point) ++ (if first < 0 then l.negative else l.positive) ++
      String.ofList size
  else if first < 0 then
    String.ofList ('0' :: '.' :: List.replicate (-first - 1).toNat '0' ++ trimmed)
  else
    let places := first.toNat + 1
    let before := trimmed.take places ++ List.replicate (places - trimmed.length) '0'
    let after := trimmed.drop places
    String.ofList before ++ (if after.isEmpty then l.whole else String.ofList ('.' :: after))

def Layout.float (l : Layout) (x : Float) : String :=
  let sign := if x.toBits >>> 63 = 1 then "-" else ""
  let parts := Binary.ofFloat x
  sign ++ (if parts.m = 0 then "0" ++ l.whole else l.text parts.shortest)

end CharTable.Decimal
