import CharTable.File.Disk
import CharTable.Packed
import CharTable.Packed.Document
import CharTable.Scheme
import CharTable.Table.Initializer

/-!
The generator of the grammar's table. Without a path the printed form goes to the output; with one
the missing directories are made and the file is replaced, in the form that the extension of the
path asks for.
-/
namespace CharTable.Generator
open File

inductive Form where
  | printed
  | document
  | binary
deriving DecidableEq, Repr

def Form.ofExtension? : Option String → Option Form
  | none => some .printed
  | some e =>
    if e = "inc" ∨ e = "h" then some .printed
    else if e = "json" then some .document
    else if e = "bin" then some .binary
    else none

def Form.content (t : Table) : Form → Except Scheme.StageFault (List UInt8)
  | printed => .ok (Utf8.encode t.render)
  | document => (Scheme.pack t).map Packed.Document.write
  | binary => (Scheme.pack t).map Packed.Binary.write

inductive Failure where
  | stage (fault : Scheme.StageFault)
  | directory (path : Path) (fault : DiskFault)
  | extension (name : String)
  | file (form : Form) (path : Path) (fault : DiskFault)

namespace Failure

def headline : Failure → String
  | stage f => f.stage.text
  | directory path _ => "failed to create " ++ path.text
  | extension name => s!"unknown output extension `.{name}` (expected .inc, .json or .bin)"
  | file .printed path _ => "failed to create " ++ path.text
  | file _ path _ => "failed to write " ++ path.text

def cause? : Failure → Option String
  | stage f => some f.fault.message
  | directory _ fault => some fault.message
  | extension _ => none
  | file _ _ fault => some fault.message

def message (f : Failure) : String :=
  "Error: " ++ f.headline ++ (match f.cause? with
    | some cause => "\n\nCaused by:\n    " ++ cause
    | none => "") ++ "\n"

end Failure

/-- Writes a table to a path. The directories are made before the extension is looked at. -/
def store {m : Type → Type} [Monad m] (d : Disk m) (t : Table) (p : Path) :
    m (Except Failure Unit) := do
  match ← d.makeDirs p.parent.lineage with
  | .error fault => return .error (.directory p.parent fault)
  | .ok () =>
    match Form.ofExtension? p.extension? with
    | none => return .error (.extension (p.extension?.getD ""))
    | some form =>
      match form.content t with
      | .error fault => return .error (.stage fault)
      | .ok content => return (← d.replace p content).mapError (.file form p)

structure Outcome where
  code : Nat
  output : String
  log : String
deriving DecidableEq, Repr

def announcement : String := "[gen_char_tab] building scheme char table…\n"

def failed (f : Failure) : Outcome := ⟨1, "", announcement ++ f.message⟩

def run {m : Type → Type} [Monad m] (d : Disk m) (args : List String) : m Outcome := do
  match Scheme.table with
  | .error fault => return failed (.stage fault)
  | .ok t =>
    match args with
    | [] => return ⟨0, t.render, announcement⟩
    | path :: _ =>
      match ← store d t (Path.ofText path) with
      | .error f => return failed f
      | .ok () =>
        return ⟨0, "", announcement ++ "[gen_char_tab] wrote " ++ (Path.ofText path).text ++ "\n"⟩

end CharTable.Generator
