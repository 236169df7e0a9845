import Defuse.Spec.FileHandles

/-! The file handle table of the musl port. `insert_file_handle`, `remove_file_handle`,
`find_file_handle` and the functions they call are those of libdefuse line by line;
`duplicate_file_handle` has its own body and no `oldfhd`. -/

namespace Defuse.Musl

open CSem FileHandleTable

/-- `duplicate_file_handle`; the result of `remove_file_handle` is not looked at. -/
def duplicateFileHandle (t : FileHandleTable) (fd1 fd2 : ℤ) : Checked (ℤ × FileHandleTable) :=
  if fd1 ≥ MAX_FILES ∨ fd2 ≥ MAX_FILES then return (EBADF, t)
  else do
    let i2 ← index MAX_FILES fd2
    let t ← if t.fileHandles i2 ≠ none then do
        let (_, t) ← t.removeFileHandle fd2
        pure t
      else pure t
    -- the source is tested after the target is gone
    let i1 ← index MAX_FILES fd1
    if (← t.fileHandleUseCountInternal (t.fileHandles i1)) > 0 then
      match t.fileHandles i1 with
      | none => .error .nullDeref
      | some p =>
        let t := t.setFileHandle i2 (some p)
        match t.fileHandles i1 with
        | none => .error .nullDeref
        | some q =>
          let t ← t.addUseCount q 1
          return (0, ← t.linkFileDescriptor fd2)
    else return (0, t)

def exec (t : FileHandleTable) : Call → Checked FileHandleTable
  | .insert fd fhd => do return (← t.insertFileHandle fd fhd).2
  | .remove fd => do return (← t.removeFileHandle fd).2
  | .duplicate fd1 fd2 => do return (← duplicateFileHandle t fd1 fd2).2

end Defuse.Musl
