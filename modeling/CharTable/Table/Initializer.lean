import CharTable.Table
import CharTable.Text

/-!
The printed form of a table: the body of an array initializer with one line for each byte value, in
ascending order. The same lines go to a string or, piece by piece, to a sink that may stop taking
bytes.
-/
namespace CharTable
namespace Table

def caption (b : UInt8) : String :=
  if 32 ≤ b ∧ b ≤ 126 then "'" ++ String.singleton (Char.ofNat b.toNat) ++ "' "
    else "0x" ++ Hex.byte b

def expression (symbols : List String) : String :=
  if symbols.isEmpty then "0" else " | ".intercalate symbols

def paddedDecimal (b : UInt8) : String := String.ofList ((Nat.toDigits 10 b.toNat).leftpad 3 ' ')

def line (t : Table) (b : UInt8) : String :=
  "  /* " ++ paddedDecimal b ++ ", " ++ caption b ++ " */ " ++ expression (t.sortedSymbols b) ++ ","

def render (t : Table) : String := String.join (allBytes.map fun b => t.line b ++ "\n")

end Table

structure Sink where
  capacity : Nat
  stored : Array UInt8

namespace Sink

def ofCapacity (capacity : Nat) : Sink := ⟨capacity, #[]⟩

def offer (s : Sink) (piece : List UInt8) : Bool × Sink :=
  let room := s.capacity - s.stored.size
  (decide (piece.length ≤ room), { s with stored := s.stored ++ piece.take room })

def offerAll (s : Sink) : List (List UInt8) → Bool × Sink
  | [] => (true, s)
  | piece :: rest =>
    match s.offer piece with
    | (true, s) => s.offerAll rest
    | (false, s) => (false, s)

end Sink

inductive WriteFault where
  | refused
deriving DecidableEq, Repr

def WriteFault.message : WriteFault → String
  | refused => "failed to write whole buffer"

namespace Table

def writeLines (t : Table) : List UInt8 → Sink → Except WriteFault Unit × Sink
  | [], sink => (.ok (), sink)
  | b :: rest, sink =>
    match sink.offerAll [Utf8.encode (t.line b), Utf8.encode "\n"] with
    | (true, sink) => t.writeLines rest sink
    | (false, sink) => (.error .refused, sink)

def write (t : Table) (sink : Sink) : Except WriteFault Unit × Sink := t.writeLines allBytes sink

end Table
end CharTable
