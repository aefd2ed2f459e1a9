import CharTable.Text

/-!
Relative paths, kept as the pieces between the slashes of their text. Empty pieces, and dots after
the first piece, do not count when a path is taken apart; they stay in its text. A file system is
asked to make one directory, to tell whether a path is a directory, and to replace the content of a
file; making all directories of a path is built from the first two.
-/
namespace CharTable.File

structure Path where
  pieces : List String
deriving DecidableEq, Repr

namespace Path

def split : List Char → List (List Char)
  | [] => [[]]
  | c :: rest =>
    if c = '/' then [] :: split rest
    else match split rest with
      | piece :: more => (c :: piece) :: more
      | [] => [[c]]

def ofText (text : String) : Path := ⟨(split text.toList).map String.ofList⟩

def text (p : Path) : String := "/".intercalate p.pieces

def trim : List String → List String
  | [] => []
  | first :: rest =>
    match (rest.reverse.dropWhile fun piece => piece = "" ∨ piece = ".").reverse with
    | [] => if first = "" then [] else [first]
    | kept => first :: kept

def parent (p : Path) : Path := ⟨trim (trim p.pieces).dropLast⟩

theorem length_trim (pieces : List String) : (trim pieces).length ≤ pieces.length := by
  unfold trim
  split
  · simp
  rename_i first rest
  have short : (rest.reverse.dropWhile fun piece => piece = "" ∨ piece = ".").reverse.length ≤
      rest.length := by
    simpa using (List.dropWhile_suffix (l := rest.reverse) fun piece => piece = "" ∨
      piece = ".").length_le
  split
  · split <;> simp
  · simpa using short

/-- The path and the paths it lies in, innermost first, without the empty one. -/
def lineage (p : Path) : List Path :=
  if trim p.pieces = [] then [] else p :: lineage p.parent
termination_by p.pieces.length
decreasing_by
  rename_i some
  have first := length_trim p.pieces
  have second := length_trim (trim p.pieces).dropLast
  have positive := List.length_pos_iff.mpr some
  simp only [parent]
  rw [List.length_dropLast] at second
  omega

def fileName? (p : Path) : Option String :=
  (trim p.pieces).getLast?.filter fun piece => piece ≠ "." ∧ piece ≠ ".."

def extension? (p : Path) : Option String := do
  let name ← p.fileName?
  let reversed := name.toList.reverse
  let stem := (reversed.dropWhile (· ≠ '.')).drop 1
  if stem.isEmpty then none else some (String.ofList (reversed.takeWhile (· ≠ '.')).reverse)

def names (p : Path) : List String := p.pieces.filter (· ≠ "")

def endsOpen (p : Path) : Bool := p.pieces.getLast? = some ""

end Path

inductive DiskFault where
  | missing
  | exists
  | notDirectory
  | isDirectory
  | nameTooLong
  | nulInPath
  | other (text : String)
deriving DecidableEq, Repr

def DiskFault.message : DiskFault → String
  | missing => "No such file or directory (os error 2)"
  | .exists => "File exists (os error 17)"
  | notDirectory => "Not a directory (os error 20)"
  | isDirectory => "Is a directory (os error 21)"
  | nameTooLong => "File name too long (os error 36)"
  | nulInPath => "file name contained an unexpected NUL byte"
  | other text => text

structure Disk (m : Type → Type) where
  makeDir : Path → m (Except DiskFault Unit)
  isDir : Path → m Bool
  replace : Path → List UInt8 → m (Except DiskFault Unit)

namespace Disk
variable {m : Type → Type} [Monad m]

def settle (d : Disk m) (p : Path) (result : Except DiskFault Unit) : m (Except DiskFault Unit) :=
  match result with
  | .ok () => pure (.ok ())
  | .error fault => do if ← d.isDir p then return .ok () else return .error fault

/-- Makes a directory, given with the ones it lies in, innermost first. Those are made only if they
are missing, and then the directory is tried once more. -/
def makeDirs (d : Disk m) : List Path → m (Except DiskFault Unit)
  | [] => pure (.ok ())
  | p :: outer => do
    match ← d.makeDir p with
    | .error .missing =>
      match ← d.makeDirs outer with
      | .error fault => return .error fault
      | .ok () => d.settle p (← d.makeDir p)
    | result => d.settle p result

end Disk

end CharTable.File
