import Std.Data.TreeMap
import CharTable.Fault
import CharTable.Model.Cycle

/-!
A model is the closed set of tags of one grammar, with names resolved to ids and symbols numbered.
No composite leads back to itself, so unfolding a tag into its atoms ends. It is built from
declarations: names are numbered first, so composites may refer forward; symbols are numbered by
first appearance, so names that share a symbol share an atom. The first fault found decides.
-/
namespace CharTable

structure Model where
  names : Array String
  tags : Array Tag
  symbols : Array String
  index : Std.TreeMap String TagId
  descends : WellFounded (IsPart tags)

namespace Model

def tagId (m : Model) (name : String) : Except Fault TagId :=
  match m.index[name]? with
  | some t => .ok t
  | none => .error (.unknownTag name)

def tag? (m : Model) (t : TagId) : Option Tag := m.tags[t.toNat]?
def name? (m : Model) (t : TagId) : Option String := m.names[t.toNat]?
def symbol? (m : Model) (a : AtomId) : Option String := m.symbols[a.toNat]?

structure Node (m : Model) where
  tag : TagId

instance (m : Model) : WellFoundedRelation m.Node where
  rel p t := IsPart m.tags p.tag t.tag
  wf := InvImage.wf Node.tag m.descends

theorem isPart_of_tag? {m : Model} {t p : TagId} {parts : List TagId}
    (found : m.tag? t = some (.composite parts)) (part : p ∈ parts) : IsPart m.tags p t :=
  isPart_iff.mpr ⟨parts, found, part⟩

def expandInto (m : Model) (t : TagId) (found : List AtomId) : List AtomId :=
  match _tag : m.tag? t with
  | some (.atomic a) => if a ∈ found then found else found ++ [a]
  | some (.composite parts) => parts.attach.foldl (fun found p => m.expandInto p.1 found) found
  | none => found
termination_by (⟨t⟩ : m.Node)
decreasing_by exact isPart_of_tag? _tag p.2

def expand (m : Model) (t : TagId) : List AtomId := m.expandInto t []

theorem expandInto_eq (m : Model) (t : TagId) (found : List AtomId) :
    m.expandInto t found = match m.tag? t with
      | some (.atomic a) => if a ∈ found then found else found ++ [a]
      | some (.composite parts) => parts.foldl (fun found p => m.expandInto p found) found
      | none => found := by
  rw [expandInto]
  split <;> simp_all

def maxTags : Nat := 65536

def indexNames (total : Nat) : List Declaration → (next : Nat) → Std.TreeMap String TagId →
    Except Fault (Std.TreeMap String TagId)
  | [], _, index => .ok index
  | d :: rest, next, index =>
    if maxTags ≤ next then .error (.tooManyTags total)
    else if index.contains d.name then .error (.duplicateTag d.name)
    else indexNames total rest (next + 1) (index.insert d.name (.ofNat next))

structure Symbols where
  list : Array String
  atomOf : Std.TreeMap String AtomId

def Symbols.empty : Symbols := ⟨#[], ∅⟩

def Symbols.intern (symbols : Symbols) (symbol : String) : AtomId × Symbols :=
  match symbols.atomOf[symbol]? with
  | some atom => (atom, symbols)
  | none =>
    let atom := AtomId.ofNat symbols.list.size
    (atom, ⟨symbols.list.push symbol, symbols.atomOf.insert symbol atom⟩)

def resolvePart (index : Std.TreeMap String TagId) (part : String) : Except Fault TagId :=
  match index[part]? with
  | some t => .ok t
  | none => .error (.unknownTag part)

def resolveTag (index : Std.TreeMap String TagId) (symbols : Symbols) (d : Declaration) :
    Except Fault (Tag × Symbols) :=
  match d.body with
  | .atomic symbol =>
    let (atom, symbols) := symbols.intern symbol
    .ok (.atomic atom, symbols)
  | .composite parts =>
    if parts.isEmpty then .error (.emptyComposite d.name)
    else match parts.mapM (resolvePart index) with
      | .error fault => .error fault
      | .ok ids => .ok (.composite ids, symbols)

def resolveTags (index : Std.TreeMap String TagId) : List Declaration → Array Tag → Symbols →
    Except Fault (Array Tag × Symbols)
  | [], tags, symbols => .ok (tags, symbols)
  | d :: rest, tags, symbols =>
    match resolveTag index symbols d with
    | .error fault => .error fault
    | .ok (tag, symbols) => resolveTags index rest (tags.push tag) symbols

/-- Names the tags of a cycle; the tag met again gives its name to the fault. -/
def cycleFault (names : Array String) (cycle : List TagId) : Fault :=
  let path := cycle.map fun t => names[t.toNat]?.getD ""
  .cyclicComposite (path.headD "") path

def ofDeclarations (ds : List Declaration) : Except Fault Model := do
  let index ← indexNames ds.length ds 0 ∅
  let (tags, symbols) ← resolveTags index ds #[] .empty
  let names := (ds.map Declaration.name).toArray
  if acyclic : Cycle.cycle? tags = none then
    .ok ⟨names, tags, symbols.list, index, Cycle.wellFounded_of_cycle? acyclic⟩
  else .error (cycleFault names ((Cycle.cycle? tags).getD []))

end Model
end CharTable
