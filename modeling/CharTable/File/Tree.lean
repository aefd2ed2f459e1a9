import CharTable.File.Disk

/-!
Trees of directories and plain files, with the directory that relative paths start from. Entries are
found by their location: the names from the entry outwards. The root is a directory and contains
itself.
-/
namespace CharTable.File

abbrev Location := List String

inductive Entry where
  | dir
  | file (content : List UInt8)
deriving DecidableEq, Repr

structure Tree where
  entries : List (Location × Entry)
  here : Location
deriving DecidableEq, Repr

namespace Tree

def empty : Tree := ⟨[(["here"], .dir)], ["here"]⟩

def entryAt? (t : Tree) (l : Location) : Option Entry :=
  if l = [] then some .dir else (t.entries.find? fun e => e.1 = l).map Prod.snd

def setEntry (t : Tree) (l : Location) (e : Entry) : Tree :=
  ⟨(l, e) :: t.entries.filter fun old => old.1 ≠ l, t.here⟩

theorem entryAt?_setEntry (t : Tree) (l : Location) (e : Entry) (inside : l ≠ []) (k : Location) :
    (t.setEntry l e).entryAt? k = if k = l then some e else t.entryAt? k := by
  unfold entryAt? setEntry
  by_cases same : k = l
  · simp [same, inside]
  · by_cases top : k = []
    · simp [top, Ne.symm inside]
    · have other : l ≠ k := fun h => same h.symm
      simp only [top, same, other, if_false, List.find?_cons, decide_false, List.find?_filter]
      congr 2
      funext old
      by_cases hit : old.1 = k <;> simp [hit, same]

def nameFits (name : String) : Bool := name.utf8ByteSize ≤ 255

def enter (t : Tree) (l : Location) (name : String) : Except DiskFault Location :=
  if name = "." then .ok l
  else if name = ".." then .ok l.tail
  else if !nameFits name then .error .nameTooLong
  else match t.entryAt? (name :: l) with
    | none => .error .missing
    | some .dir => .ok (name :: l)
    | some (.file _) => .error .notDirectory

def walk (t : Tree) (names : List String) : Except DiskFault Location := names.foldlM t.enter t.here

def precheck (p : Path) : Option DiskFault :=
  if p.text.toList.contains '\x00' then some .nulInPath
  else if 4096 ≤ p.text.utf8ByteSize then some .nameTooLong
  else none

def place (t : Tree) (p : Path) : Except DiskFault (Location × String) :=
  match precheck p, p.names.getLast? with
  | some fault, _ => .error fault
  | none, none => .error .missing
  | none, some last => (t.walk p.names.dropLast).map (·, last)

def isDots (name : String) : Bool := name = "." || name = ".."

def dirSite (t : Tree) (p : Path) : Except DiskFault Location := do
  let (l, last) ← t.place p
  if isDots last then .error .exists
  else if !nameFits last then .error .nameTooLong
  else match t.entryAt? (last :: l) with
    | some _ => .error .exists
    | none => .ok (last :: l)

def fileSite (t : Tree) (p : Path) : Except DiskFault Location := do
  let (l, last) ← t.place p
  if isDots last || p.endsOpen then .error .isDirectory
  else if !nameFits last then .error .nameTooLong
  else match t.entryAt? (last :: l) with
    | some .dir => .error .isDirectory
    | _ => .ok (last :: l)

def change (t : Tree) (e : Entry) : Except DiskFault Location → Except DiskFault Unit × Tree
  | .error fault => (.error fault, t)
  | .ok l => (.ok (), t.setEntry l e)

def makeDir (t : Tree) (p : Path) : Except DiskFault Unit × Tree := t.change .dir (t.dirSite p)

def replace (t : Tree) (p : Path) (content : List UInt8) : Except DiskFault Unit × Tree :=
  t.change (.file content) (t.fileSite p)

def isDir (t : Tree) (p : Path) : Bool :=
  precheck p = none && p.names ≠ [] && (t.walk p.names).toBool

def disk : Disk (StateM Tree) where
  makeDir p := fun t => t.makeDir p
  isDir p := fun t => (t.isDir p, t)
  replace p content := fun t => t.replace p content

end Tree
end CharTable.File
