import CharTable.Generator

/-!
The command line of the generator, on the file system of the machine.
-/
namespace CharTable
open File

def faultOf : IO.Error → DiskFault
  | .noFileOrDirectory .. => .missing
  | .alreadyExists .. => .exists
  | .inappropriateType _ code details | .invalidArgument _ code details
      | .permissionDenied _ code details
  | .resourceExhausted _ code details | .noSuchThing _ code details =>
    .other s!"{details} (os error {code})"
  | e => .other (toString e)

def attempt (operation : IO Unit) : IO (Except DiskFault Unit) := do
  match ← operation.toBaseIO with
  | .ok () => return .ok ()
  | .error e => return .error (faultOf e)

def machineDisk : Disk IO where
  makeDir p := attempt (IO.FS.createDir p.text)
  isDir p := (IO.FS.DirEntry.path ⟨p.text, "."⟩).isDir
  replace p content := attempt (IO.FS.writeBinFile p.text ⟨content.toArray⟩)

end CharTable

def main (args : List String) : IO UInt32 := do
  let outcome ← CharTable.Generator.run CharTable.machineDisk args
  IO.eprint outcome.log
  IO.print outcome.output
  return UInt32.ofNat outcome.code
