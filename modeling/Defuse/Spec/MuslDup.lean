import Defuse.Spec.MuslFileHandles

/-! `musl/src/defuse/dup.c`, with the part of the kernel it acts on: the open file
behind each descriptor. -/

namespace Defuse.Musl

open CSem FileHandleTable

/-- The table of the library and the descriptors of the kernel; open files are numbered. -/
structure Process where
  table : FileHandleTable
  kernel : ℤ → Option ℕ

/-- `close`: musl's own, which is the system call and does not look at the table. -/
def Process.close (p : Process) (fd : ℤ) : Option ℤ × Process :=
  if p.kernel fd = none then (some EBADF, p)
  else (none, { p with kernel := Function.update p.kernel fd none })

/-- `real_dup3`: the result, the error and the descriptors after it. `refuse` is the error
of a call that the kernel turns down for another reason than its descriptors. -/
def realDup3 (kernel : ℤ → Option ℕ) (oldfd newfd flags : ℤ) (refuse : ℤ → Option ℤ) :
    ℤ × Option ℤ × (ℤ → Option ℕ) :=
  if oldfd = newfd then (-1, some EINVAL, kernel)
  else if kernel oldfd = none ∨ newfd < 0 then (-1, some EBADF, kernel)
  else match refuse flags with
    | some e => (-1, some e, kernel)
    | none => (newfd, none, Function.update kernel newfd (kernel oldfd))

/-- `dup_common`: `errno` where it was set, and the process after the call. The function ends
behind `DEBUG_EXIT(ret)` without a `return`, so that what its callers take for its result is
not specified. -/
def dupCommon (p : Process) (oldfd newfd flags : ℤ) (doRealDup : Bool)
    (refuse : ℤ → Option ℤ) : Checked (Option ℤ × Process) := do
  let oldFhd ← p.table.findFileHandle oldfd
  let newFhd ← if doRealDup then p.table.findFileHandle newfd else pure none
  -- the overwritten descriptor is closed before it is known whether the dup succeeds
  let (closeErrno, p) := if newFhd ≠ none then p.close newfd else (none, p)
  let (ret, errno, kernel) :=
    if doRealDup then realDup3 p.kernel oldfd newfd flags refuse else (newfd, none, p.kernel)
  let errno := errno <|> closeErrno
  let p := { p with kernel := kernel }
  if oldFhd ≠ none ∧ ret ≠ -1 then do
    let (dupRet, t) ← duplicateFileHandle p.table oldfd newfd
    let p := { p with table := t }
    if dupRet ≠ 0 then return (some dupRet, p) else return (errno, p)
  else return (errno, p)

/-- `real_dup`; `got` is the free descriptor the kernel gives out, if any. -/
def realDup (kernel : ℤ → Option ℕ) (oldfd : ℤ) (got : Option ℤ) :
    ℤ × Option ℤ × (ℤ → Option ℕ) :=
  match kernel oldfd, got with
  | none, _ => (-1, some EBADF, kernel)
  | some _, none => (-1, some EMFILE, kernel)
  | some file, some fd => (fd, none, Function.update kernel fd (some file))

/-- What a call leaves; a result that comes from `dup_common` is `none`, any value. -/
structure DupOutcome where
  result : Option ℤ
  errno : Option ℤ
  process : Process

def defuseDup (p : Process) (oldfd : ℤ) (got : Option ℤ) : Checked DupOutcome :=
  let (newfd, errno, kernel) := realDup p.kernel oldfd got
  let p := { p with kernel := kernel }
  if newfd ≠ -1 then do
    let (errno, p) ← dupCommon p oldfd newfd 0 false fun _ => none
    return ⟨none, errno, p⟩
  else return ⟨some newfd, errno, p⟩

def defuseDup2 (p : Process) (oldfd newfd : ℤ) (refuse : ℤ → Option ℤ) : Checked DupOutcome := do
  let (errno, p) ← dupCommon p oldfd newfd 0 true refuse
  return ⟨none, errno, p⟩

def defuseDup3 (p : Process) (oldfd newfd flags : ℤ) (refuse : ℤ → Option ℤ) :
    Checked DupOutcome := do
  let (errno, p) ← dupCommon p oldfd newfd flags true refuse
  return ⟨none, errno, p⟩

end Defuse.Musl
