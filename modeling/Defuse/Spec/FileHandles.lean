import Defuse.Lib.Checked
import Defuse.Spec.Errno
import Mathlib.Algebra.GroupWithZero.Nat

/-! `libdefuse/file_handles.c`: the table that maps kernel descriptors to backend
handles. A record is named by its address; addresses are never reused, and a freed
record has no contents any more, so touching one is a fault. -/

namespace Defuse

open CSem

def MAX_FILES : ℕ := 1024

instance : NeZero MAX_FILES := ⟨by decide⟩

/-- `struct file_handle_data`; a mount is named by its place in the mount array. -/
structure FileHandleData where
  fileHandle : UInt64
  mount : ℕ
  deriving DecidableEq, Repr, Inhabited

structure FileHandleDataInternal where
  fData : FileHandleData
  useCount : ℤ
  deriving DecidableEq, Repr

abbrev RecPtr := ℕ

/-- `struct file_handle_table`, together with the heap its records live in. -/
structure FileHandleTable where
  fileHandles : Fin MAX_FILES → Option RecPtr
  usePosition : Fin MAX_FILES → ℤ
  usedFileDescriptors : Fin MAX_FILES → ℤ
  usedFileDescriptorPos : ℤ
  heap : RecPtr → Option FileHandleDataInternal
  nextRec : RecPtr

namespace FileHandleTable

/-- The zeroed table of `get_instance`. -/
def zeroed : FileHandleTable where
  fileHandles := fun _ => none
  usePosition := fun _ => 0
  usedFileDescriptors := fun _ => 0
  usedFileDescriptorPos := 0
  heap := fun _ => none
  nextRec := 0

def deref (t : FileHandleTable) (p : RecPtr) : Checked FileHandleDataInternal :=
  match t.heap p with
  | some r => .ok r
  | none => .error .useAfterFree

/-- `file_handle_use_count_internal`: a NULL pointer counts as unused. -/
def fileHandleUseCountInternal (t : FileHandleTable) : Option RecPtr → Checked ℤ
  | none => .ok 0
  | some p => do return (← t.deref p).useCount

def fileHandleUseCount (t : FileHandleTable) (p : RecPtr) : Checked ℤ :=
  t.fileHandleUseCountInternal (some p)

def addUseCount (t : FileHandleTable) (p : RecPtr) (d : ℤ) : Checked FileHandleTable := do
  let r ← t.deref p
  return { t with heap := Function.update t.heap p (some { r with useCount := r.useCount + d }) }

def free (t : FileHandleTable) (p : RecPtr) : FileHandleTable :=
  { t with heap := Function.update t.heap p none }

def allocateFileHandle (t : FileHandleTable) (fhd : FileHandleData) : RecPtr × FileHandleTable :=
  (t.nextRec, { t with
    heap := Function.update t.heap t.nextRec (some ⟨fhd, 0⟩)
    nextRec := t.nextRec + 1 })

def setFileHandle (t : FileHandleTable) (i : Fin MAX_FILES) (p : Option RecPtr) :
    FileHandleTable :=
  { t with fileHandles := Function.update t.fileHandles i p }

def linkFileDescriptor (t : FileHandleTable) (fd : ℤ) : Checked FileHandleTable := do
  let i ← index MAX_FILES fd
  let n ← index MAX_FILES t.usedFileDescriptorPos
  return { t with
    usePosition := Function.update t.usePosition i t.usedFileDescriptorPos
    usedFileDescriptors := Function.update t.usedFileDescriptors n fd
    usedFileDescriptorPos := t.usedFileDescriptorPos + 1 }

def unlinkFileDescriptor (t : FileHandleTable) (fd : ℤ) : Checked FileHandleTable := do
  let i ← index MAX_FILES fd
  let t ← if t.usedFileDescriptorPos > 1 then do
      let p ← index MAX_FILES (t.usePosition i)
      let l ← index MAX_FILES (t.usedFileDescriptorPos - 1)
      -- the value stored and the entry of `file_meta` touched are both the last
      -- position, not the descriptor that stands there
      let t := { t with
        usedFileDescriptors :=
          Function.update t.usedFileDescriptors p (t.usedFileDescriptorPos - 1) }
      pure { t with usePosition := Function.update t.usePosition l (t.usePosition i) }
    else pure t
  return { t with
    usedFileDescriptorPos := t.usedFileDescriptorPos - 1
    fileHandles := Function.update t.fileHandles i none }

def insertFileHandle (t : FileHandleTable) (fd : ℤ) (fhd : FileHandleData) :
    Checked (ℤ × FileHandleTable) :=
  if fd ≥ MAX_FILES then return (EBADF, t)
  else do
    let i ← index MAX_FILES fd
    if (← t.fileHandleUseCountInternal (t.fileHandles i)) > 0 then return (EEXIST, t)
    else
      let (p, t) := t.allocateFileHandle fhd
      let t ← (t.setFileHandle i (some p)).addUseCount p 1
      let t ← t.linkFileDescriptor fd
      return (0, t)

def removeFileHandle (t : FileHandleTable) (fd : ℤ) : Checked (ℤ × FileHandleTable) :=
  if fd ≥ MAX_FILES then return (EBADF, t)
  else do
    let i ← index MAX_FILES fd
    if (← t.fileHandleUseCountInternal (t.fileHandles i)) = 0 then return (ENOENT, t)
    else
      match t.fileHandles i with
      | none => .error .nullDeref
      | some p =>
        let t ← t.addUseCount p (-1)
        let t := if (← t.deref p).useCount = 0 then t.free p else t
        let t ← t.unlinkFileDescriptor fd
        return (0, t)

def fileHandleExists (t : FileHandleTable) (fd : ℤ) : Checked Bool :=
  if fd ≥ MAX_FILES then return false
  else do
    let i ← index MAX_FILES fd
    return (← t.fileHandleUseCountInternal (t.fileHandles i)) > 0

/-- `find_file_handle`, once the mounts are loaded; the record is read through the
returned pointer. -/
def findFileHandle (t : FileHandleTable) (fd : ℤ) : Checked (Option FileHandleData) :=
  if fd ≥ MAX_FILES then return none
  else do
    let i ← index MAX_FILES fd
    if (← t.fileHandleUseCountInternal (t.fileHandles i)) = 0 then return none
    else
      match t.fileHandles i with
      | none => .error .nullDeref
      | some p => return some (← t.deref p).fData

/-- `duplicate_file_handle`; the second component is `*oldfhd`, a pointer to the
record that `fd2` named before the call. -/
def duplicateFileHandle (t : FileHandleTable) (fd1 fd2 : ℤ) :
    Checked (ℤ × Option RecPtr × FileHandleTable) :=
  if fd1 ≥ MAX_FILES ∨ fd2 ≥ MAX_FILES then return (EBADF, none, t)
  else do
    let i2 ← index MAX_FILES fd2
    let oldfhd := t.fileHandles i2
    let i1 ← index MAX_FILES fd1
    if (← t.fileHandleUseCountInternal (t.fileHandles i1)) > 0 then
      match t.fileHandles i1 with
      | none => .error .nullDeref
      | some p =>
        let t := t.setFileHandle i2 (some p)
        -- `file_handles[fd1]` is read again after the store to `file_handles[fd2]`
        match t.fileHandles i1 with
        | none => .error .nullDeref
        | some q =>
          let t ← t.addUseCount q 1
          if oldfhd = none then return (0, oldfhd, ← t.linkFileDescriptor fd2)
          else return (0, oldfhd, t)
    else return (0, oldfhd, t)

/-- The pair a descriptor stands for, as the rest of the library reads it. -/
def lookup (t : FileHandleTable) (i : Fin MAX_FILES) : Option FileHandleData :=
  (t.fileHandles i).bind fun p => (t.heap p).map (·.fData)

end FileHandleTable

inductive Call
  | insert (fd : ℤ) (fhd : FileHandleData)
  | remove (fd : ℤ)
  | duplicate (fd1 fd2 : ℤ)
  deriving DecidableEq, Repr

def Call.InRange : Call → Prop
  | .insert fd _ => 0 ≤ fd ∧ fd < MAX_FILES
  | .remove fd => 0 ≤ fd ∧ fd < MAX_FILES
  | .duplicate fd1 fd2 => (0 ≤ fd1 ∧ fd1 < MAX_FILES) ∧ 0 ≤ fd2 ∧ fd2 < MAX_FILES

instance (c : Call) : Decidable c.InRange := by
  cases c <;> unfold Call.InRange <;> infer_instance

/-- One call with its result and what `*oldfhd` points to after it. -/
def Call.perform (t : FileHandleTable) :
    Call → Checked ((ℤ × Option FileHandleData) × FileHandleTable)
  | .insert fd fhd => do
    let (rv, t) ← t.insertFileHandle fd fhd
    return ((rv, none), t)
  | .remove fd => do
    let (rv, t) ← t.removeFileHandle fd
    return ((rv, none), t)
  | .duplicate fd1 fd2 => do
    let (rv, oldfhd, t) ← t.duplicateFileHandle fd1 fd2
    match oldfhd with
    | none => return ((rv, none), t)
    | some p => return ((rv, some (← t.deref p).fData), t)

def Call.exec (t : FileHandleTable) : Call → Checked FileHandleTable
  | .insert fd fhd => do return (← t.insertFileHandle fd fhd).2
  | .remove fd => do return (← t.removeFileHandle fd).2
  | .duplicate fd1 fd2 => do return (← t.duplicateFileHandle fd1 fd2).2.2

end Defuse
