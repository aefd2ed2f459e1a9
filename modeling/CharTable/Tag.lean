/-!
Tags before and after their names are resolved. A declaration names a tag and says what it stands
for; a resolved tag refers to symbols and to other tags by 16-bit ids.
-/
namespace CharTable

structure AtomId where
  word : UInt16
deriving DecidableEq, Repr

structure TagId where
  word : UInt16
deriving DecidableEq, Repr

inductive Declaration.Body where
  | atomic (symbol : String)
  | composite (parts : List String)
deriving DecidableEq, Repr

structure Declaration where
  name : String
  body : Declaration.Body
deriving DecidableEq, Repr

def Declaration.atomic (name symbol : String) : Declaration := ⟨name, .atomic symbol⟩
def Declaration.composite (name : String) (parts : List String) : Declaration :=
  ⟨name, .composite parts⟩

@[simp] theorem Declaration.name_atomic (name symbol : String) : (atomic name symbol).name = name :=
  rfl
@[simp] theorem Declaration.name_composite (name : String) (parts : List String) :
    (composite name parts).name = name := rfl

inductive Tag where
  | atomic (atom : AtomId)
  | composite (parts : List TagId)
deriving DecidableEq, Repr

namespace AtomId

def toNat (a : AtomId) : Nat := a.word.toNat
def ofNat (n : Nat) : AtomId := ⟨UInt16.ofNat n⟩

@[simp] theorem ofNat_toNat (a : AtomId) : ofNat a.toNat = a := by
  simp [ofNat, toNat]

theorem toNat_ofNat {n : Nat} (small : n < 65536) : (ofNat n).toNat = n := by
  simpa [ofNat, toNat] using small

end AtomId

namespace TagId

def toNat (t : TagId) : Nat := t.word.toNat
def ofNat (n : Nat) : TagId := ⟨UInt16.ofNat n⟩

@[simp] theorem ofNat_toNat (t : TagId) : ofNat t.toNat = t := by
  simp [ofNat, toNat]

theorem toNat_ofNat {n : Nat} (small : n < 65536) : (ofNat n).toNat = n := by
  simpa [ofNat, toNat] using small

theorem toNat_inj {s t : TagId} (same : s.toNat = t.toNat) : s = t := by
  rw [← ofNat_toNat s, same, ofNat_toNat]

end TagId

namespace Tag

def parts : Tag → List TagId
  | atomic _ => []
  | composite parts => parts

end Tag
end CharTable
