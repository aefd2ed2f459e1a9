import CharTable.Rule
import CharTable.Model
import CharTable.TagSet

/-!
A table gives every byte value a set of atoms, and keeps the symbols that the atoms stand for.
Tables are equal when their symbols are the same list and each byte carries the same set, in
whatever order it grew. A table is filled by rules. Every operation checks its tag and all its bytes
first, so a failing one leaves nothing behind; a program of rules stops at its first failing rule.
-/
namespace CharTable

structure Table where
  entries : Vector TagSet 256
  symbols : Array String

namespace Table

def empty (m : Model) : Table := ⟨Vector.replicate 256 .empty, m.symbols⟩

def entry (t : Table) (b : UInt8) : TagSet :=
  have inside : b.toNat < 256 := b.toNat_lt
  t.entries[b.toNat]

def setEntry (t : Table) (b : UInt8) (s : TagSet) : Table :=
  { t with entries := t.entries.set b.toNat s b.toNat_lt }

def symbol? (t : Table) (a : AtomId) : Option String := t.symbols[a.toNat]?

def symbolsOn (t : Table) (b : UInt8) : List String := (t.entry b).atoms.filterMap t.symbol?

def sortedSymbols (t : Table) (b : UInt8) : List String :=
  (t.symbolsOn b).mergeSort fun s u => decide (s ≤ u)

def hasSymbol (t : Table) (b : UInt8) (symbol : String) : Bool :=
  (t.entry b).atoms.any fun a => t.symbol? a == some symbol

instance : BEq Table := ⟨fun t u => t.entries == u.entries && t.symbols == u.symbols⟩

@[simp] theorem entry_empty (m : Model) (b : UInt8) : (empty m).entry b = .empty := by
  simp [entry, empty]

@[simp] theorem entry_setEntry (t : Table) (b c : UInt8) (s : TagSet) :
    (t.setEntry b s).entry c = if c = b then s else t.entry c := by
  unfold entry setEntry
  by_cases same : c = b
  · subst same; simp
  · have apart : b.toNat ≠ c.toNat := fun equal => same (UInt8.toNat_inj.mp equal.symm)
    simp [apart, same]

@[simp] theorem setEntry_entry (t : Table) (b : UInt8) : t.setEntry b (t.entry b) = t := by
  simp [setEntry, entry]

@[simp] theorem setEntry_setEntry (t : Table) (b : UInt8) (s u : TagSet) :
    (t.setEntry b s).setEntry b u = t.setEntry b u := by
  simp [setEntry]

@[simp] theorem symbols_setEntry (t : Table) (b : UInt8) (s : TagSet) :
    (t.setEntry b s).symbols = t.symbols := rfl

def insertTag (m : Model) (b : UInt8) (id : TagId) (t : Table) : Table :=
  match _tag : m.tag? id with
  | some (.atomic a) => t.setEntry b ((t.entry b).insert a)
  | some (.composite parts) => parts.attach.foldl (fun t p => insertTag m b p.1 t) t
  | none => t
termination_by (⟨id⟩ : m.Node)
decreasing_by exact Model.isPart_of_tag? _tag p.2

theorem insertTag_eq (m : Model) (b : UInt8) (id : TagId) (t : Table) :
    insertTag m b id t = match m.tag? id with
      | some (.atomic a) => t.setEntry b ((t.entry b).insert a)
      | some (.composite parts) => parts.foldl (fun t p => insertTag m b p t) t
      | none => t := by
  rw [insertTag]
  split <;> simp_all

def insertOn (m : Model) (id : TagId) (bytes : List UInt8) (t : Table) : Table :=
  bytes.foldl (fun t b => insertTag m b id t) t

def applyTag (m : Model) (t : Table) (tag : String) (byte : ByteSpec) : Except Fault Table := do
  let id ← m.tagId tag
  let b ← byte.resolve
  return insertTag m b id t

def applyRange (m : Model) (t : Table) (tag : String) (low high : ByteSpec) :
    Except Fault Table := do
  let id ← m.tagId tag
  let lo ← low.resolve
  let hi ← high.resolve
  if hi < lo then .error (.invalidRange lo hi)
  else return insertOn m id (byteInterval lo hi) t

def applyPoints (m : Model) (t : Table) (tag : String) (bytes : List ByteSpec) :
    Except Fault Table := do
  let id ← m.tagId tag
  let resolved ← bytes.mapM ByteSpec.resolve
  return insertOn m id resolved t

def apply (m : Model) (t : Table) : Rule → Except Fault Table
  | .points tag bytes => applyPoints m t tag bytes
  | .range tag low high => applyRange m t tag low high

def applyFrom (m : Model) (index : Nat) (t : Table) : List Rule → Except Fault Table
  | [] => .ok t
  | rule :: rest =>
    match apply m t rule with
    | .error fault => .error (.inRule index rule.text fault)
    | .ok t => applyFrom m (index + 1) t rest

def ofRules (m : Model) (rules : List Rule) : Except Fault Table := applyFrom m 0 (empty m) rules

inductive Edit where
  | tag (tag : String) (byte : ByteSpec)
  | range (tag : String) (low high : ByteSpec)
  | points (tag : String) (bytes : List ByteSpec)
  | rule (rule : Rule)
deriving DecidableEq, Repr

def tryEdit (m : Model) (t : Table) : Edit → Except Fault Table
  | .tag tag byte => applyTag m t tag byte
  | .range tag low high => applyRange m t tag low high
  | .points tag bytes => applyPoints m t tag bytes
  | .rule rule => apply m t rule

def edit (m : Model) (t : Table) (e : Edit) : Option Fault × Table :=
  match tryEdit m t e with
  | .ok t => (none, t)
  | .error fault => (some fault, t)

def run (m : Model) (t : Table) (edits : List Edit) : Table :=
  edits.foldl (fun t e => (edit m t e).2) t

end Table
end CharTable
