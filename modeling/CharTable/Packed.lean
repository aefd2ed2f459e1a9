import CharTable.Flag
import CharTable.Table

/-!
Packed tables: one flag byte for each byte value. Packing scans the sorted symbols of every byte and
fails on a symbol without a flag or on a second class. The binary form is eight bytes of magic, the
mask as a little-endian word of four bytes, and the flag bytes; reading checks the length, then the
magic, then the word, and ignores what follows.
-/
namespace CharTable

structure Packed where
  mask : UInt8
  flags : Vector UInt8 256
deriving DecidableEq

namespace Packed

def flagsOf (p : Packed) (b : UInt8) : UInt8 :=
  have inside : b.toNat < 256 := b.toNat_lt
  p.flags[b.toNat]

def classOf (p : Packed) (b : UInt8) : UInt8 := p.flagsOf b &&& p.mask

def test (p : Packed) (b bit : UInt8) : Bool := p.flagsOf b &&& bit != 0

def scan (e : Encoding) (b : UInt8) (found : Option (UInt8 × String)) (bits : UInt8) :
    List String → Except Fault UInt8
  | [] => .ok ((found.map Prod.fst).getD 0 ||| bits)
  | symbol :: rest =>
    match e.get? symbol with
    | none => .error (.unencodedTag symbol)
    | some (.bit v) => scan e b found (bits ||| v) rest
    | some (.ofClass v) =>
      match found with
      | some (_, first) => .error (.classConflict b first symbol)
      | none => scan e b (some (v, symbol)) bits rest

def flagByte (t : Table) (e : Encoding) (b : UInt8) : Except Fault UInt8 :=
  scan e b none 0 (t.sortedSymbols b)

def ofTable (t : Table) (e : Encoding) : Except Fault Packed := do
  let flags ← (Vector.ofFn fun i : Fin 256 => UInt8.ofNat i.val).mapM (flagByte t e)
  return ⟨e.mask, flags⟩

end Packed

namespace Packed.Binary

def magic : List UInt8 := Utf8.encode "CHRTAB01"

def size : Nat := 268

def word (n : Nat) : List UInt8 :=
  [UInt8.ofNat n, UInt8.ofNat (n / 256), UInt8.ofNat (n / 65536), UInt8.ofNat (n / 16777216)]

def wordValue : List UInt8 → Nat
  | [] => 0
  | b :: rest => b.toNat + 256 * wordValue rest

def write (p : Packed) : List UInt8 := magic ++ word p.mask.toNat ++ p.flags.toList

inductive Refusal where
  | tooShort (length : Nat)
  | badMagic
  | wideMask
deriving DecidableEq, Repr

def Refusal.message : Refusal → String
  | tooShort length => s!"char table bin too short: {length} bytes, need {size}"
  | badMagic => "bad magic in char table .bin"
  | wideMask => "class mask does not fit in a byte"

def read (bytes : List UInt8) : Except Refusal Packed :=
  if enough : size ≤ bytes.length then
    if bytes.take 8 = magic then
      let mask := wordValue ((bytes.drop 8).take 4)
      if mask < 256 then
        .ok ⟨UInt8.ofNat mask,
          ⟨((bytes.drop 12).take 256).toArray, by simp [size] at enough ⊢; omega⟩⟩
      else .error .wideMask
    else .error .badMagic
  else .error (.tooShort bytes.length)

end Packed.Binary

end CharTable
