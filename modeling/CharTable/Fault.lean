/-!
Why a character table cannot be declared, filled or packed. Each cause is a constructor with the
data that explains it; the wording stands in one place, `Fault.message`. A computation that may fail
is taken apart into its steps where it succeeds.
-/
namespace CharTable

inductive Fault where
  | unknownTag (name : String)
  | duplicateTag (name : String)
  | tooManyTags (count : Nat)
  | emptyComposite (name : String)
  -- The path lists the composites of the cycle and ends with the one that closes it.
  | cyclicComposite (name : String) (path : List String)
  | outOfRange (code : UInt32)
  | invalidRange (low high : UInt8)
  | unencodedTag (symbol : String)
  | classConflict (byte : UInt8) (first second : String)
  | invalidEncoding (symbol reason : String)
  | inRule (index : Nat) (rule : String) (source : Fault)
deriving DecidableEq, Repr

namespace Fault

def message : Fault → String
  | unknownTag name => s!"unknown tag `{name}`"
  | duplicateTag name => s!"tag `{name}` is declared more than once"
  | tooManyTags count => s!"{count} tag declarations exceed the id space"
  | emptyComposite name => s!"composite tag `{name}` has no constituents"
  | cyclicComposite name path =>
    s!"composite tag `{name}` references itself via " ++ " -> ".intercalate path
  | outOfRange code => s!"byte value {code.toNat} is outside 0..=255"
  | invalidRange low high => s!"inverted range {low.toNat}..={high.toNat}"
  | unencodedTag symbol => s!"tag symbol `{symbol}` has no flag encoding"
  | classConflict byte first second =>
    s!"byte {byte.toNat} carries two class tags: `{first}` and `{second}`"
  | invalidEncoding symbol reason => s!"invalid flag encoding for `{symbol}`: {reason}"
  | inRule index rule source => s!"rule #{index} ({rule}) failed: " ++ source.message

def root : Fault → Fault
  | inRule _ _ source => source.root
  | fault => fault

end Fault

variable {ε α β : Type}

theorem bind_eq_ok {first : Except ε α} {next : α → Except ε β} {result : β} :
    (first >>= next) = .ok result ↔ ∃ value, first = .ok value ∧ next value = .ok result := by
  cases first <;> simp [bind, Except.bind]

theorem map_eq_ok {first : Except ε α} {f : α → β} {result : β} :
    first.map f = .ok result ↔ ∃ value, first = .ok value ∧ f value = result := by
  cases first <;> simp [Except.map]

end CharTable
