import CharTable.Fault
import CharTable.Text
import Std.Data.TreeMap

/-!
How symbols are stored in a byte: as the value of a class field under a mask, one class per byte, or
as a single bit outside the mask. An encoding maps symbols to flags, each symbol and each flag at
most once.
-/
namespace CharTable

inductive Flag where
  | ofClass (value : UInt8)
  | bit (value : UInt8)
deriving DecidableEq, Repr

namespace Flag

def value : Flag → UInt8
  | ofClass v => v
  | bit v => v

def allowed (mask : UInt8) : Flag → Bool
  | ofClass v => v != 0 && v &&& ~~~mask == 0
  | bit v => v.toBitVec.cpop == 1 && v &&& mask == 0

def text : Flag → String
  | ofClass v => s!"class {v.toNat}"
  | bit v => "bit 0x" ++ Hex.byte v

end Flag

inductive FlagRefusal where
  | misfit (flag : Flag) (mask : UInt8)
  | taken (flag : Flag) (owner : String)
  | symbolTwice
deriving DecidableEq, Repr

def FlagRefusal.message : FlagRefusal → String
  | misfit (.ofClass v) mask =>
    (Flag.ofClass v).text ++ " does not fit mask 0x" ++ Hex.byte mask
  | misfit (.bit v) mask =>
    (Flag.bit v).text ++ " must be a single bit outside mask 0x" ++ Hex.byte mask
  | taken flag owner => flag.text ++ s!" already used by `{owner}`"
  | symbolTwice => "encoded twice"

structure Encoding where
  mask : UInt8
  bySymbol : Std.TreeMap String Flag
  fits : ∀ (symbol : String) (flag : Flag), bySymbol[symbol]? = some flag → flag.allowed mask
  apart : ∀ (symbol other : String) (flag : Flag), bySymbol[symbol]? = some flag →
    bySymbol[other]? = some flag → symbol = other

namespace Encoding

def get? (e : Encoding) (symbol : String) : Option Flag := e.bySymbol[symbol]?

structure Owners where
  classes : Std.TreeMap UInt8 String
  bits : Std.TreeMap UInt8 String

namespace Owners

def empty : Owners := ⟨∅, ∅⟩

def get? (o : Owners) : Flag → Option String
  | .ofClass v => o.classes[v]?
  | .bit v => o.bits[v]?

def insert (o : Owners) (symbol : String) : Flag → Owners
  | .ofClass v => { o with classes := o.classes.insert v symbol }
  | .bit v => { o with bits := o.bits.insert v symbol }

@[simp] theorem get?_empty (flag : Flag) : empty.get? flag = none := by
  cases flag <;> simp [empty, get?]

theorem get?_insert (o : Owners) (symbol : String) (flag other : Flag) :
    (o.insert symbol flag).get? other = if flag = other then some symbol else o.get? other := by
  cases flag with
  | ofClass v =>
    cases other with
    | ofClass w => simp [insert, get?, Std.TreeMap.getElem?_insert]
    | bit w => rfl
  | bit v =>
    cases other with
    | ofClass w => rfl
    | bit w => simp [insert, get?, Std.TreeMap.getElem?_insert]

end Owners

structure Draft where
  mask : UInt8
  bySymbol : Std.TreeMap String Flag
  owners : Owners
  fits : ∀ (symbol : String) (flag : Flag), bySymbol[symbol]? = some flag → flag.allowed mask
  owned : ∀ (symbol : String) (flag : Flag), bySymbol[symbol]? = some flag →
    owners.get? flag = some symbol

namespace Draft

def empty (mask : UInt8) : Draft := ⟨mask, ∅, .empty, by simp, by simp⟩

variable {d : Draft} {flag : Flag}

theorem fits_insert (fitting : flag.allowed d.mask) (symbol other : String) (stored : Flag)
    (found : (d.bySymbol.insert symbol flag)[other]? = some stored) : stored.allowed d.mask := by
  rw [Std.TreeMap.getElem?_insert] at found
  split at found
  · cases found
    exact fitting
  · exact d.fits other stored found

/-- The older symbols keep their flags, since the new flag had no owner. -/
theorem owned_insert (free : d.owners.get? flag = none) (symbol other : String) (stored : Flag)
    (found : (d.bySymbol.insert symbol flag)[other]? = some stored) :
    (d.owners.insert symbol flag).get? stored = some other := by
  rw [Std.TreeMap.getElem?_insert] at found
  split at found
  · next same =>
    cases found
    rw [Owners.get?_insert, if_pos rfl, Std.LawfulEqCmp.eq_of_compare same]
  · have owner := d.owned other stored found
    have distinct : flag ≠ stored := by
      rintro rfl
      cases free.symm.trans owner
    rw [Owners.get?_insert, if_neg distinct, owner]

/-- Adds a symbol with its flag. The flag's value is checked first, then its owner, then the
symbol. -/
def add (d : Draft) (symbol : String) (flag : Flag) : Except FlagRefusal Draft :=
  if fitting : flag.allowed d.mask then
    match free : d.owners.get? flag with
    | some owner => .error (.taken flag owner)
    | none =>
      if d.bySymbol.contains symbol then .error .symbolTwice
      else .ok {
        mask := d.mask
        bySymbol := d.bySymbol.insert symbol flag
        owners := d.owners.insert symbol flag
        fits := fits_insert fitting symbol
        owned := owned_insert free symbol }
  else .error (.misfit flag d.mask)

def addAll (d : Draft) : List (String × Flag) → Except Fault Draft
  | [] => .ok d
  | (symbol, flag) :: rest =>
    match d.add symbol flag with
    | .error refusal => .error (.invalidEncoding symbol refusal.message)
    | .ok d => d.addAll rest

def encoding (d : Draft) : Encoding where
  mask := d.mask
  bySymbol := d.bySymbol
  fits := d.fits
  apart := by
    intro symbol other flag first second
    exact Option.some.inj ((d.owned symbol flag first).symm.trans (d.owned other flag second))

end Draft

def ofEntries (mask : UInt8) (entries : List (String × Flag)) : Except Fault Encoding :=
  ((Draft.empty mask).addAll entries).map Draft.encoding

end Encoding
end CharTable
