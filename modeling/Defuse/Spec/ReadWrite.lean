import Defuse.Lib.Words
import Defuse.Spec.Errno

/-! `libdefuse/read.c` and `libdefuse/write.c`: the steps of `defuse_read` and
`defuse_write` on a descriptor, one system call or backend call each. The two functions
differ only in the backend function they call. -/

namespace Defuse

open CSem

def OFF_MAX : ℕ := 2 ^ 63 - 1

/-- The offset after `lseek(fd, offset, SEEK_SET)`: a sum that is too large is not taken. -/
def lseekSet (current offset : ℕ) : ℕ :=
  if offset % 2 ^ 64 ≤ OFF_MAX then offset % 2 ^ 64 else current

theorem lseekSet_of_le {current offset : ℕ} (h : offset ≤ OFF_MAX) :
    lseekSet current offset = offset := by
  have hmod : offset % 2 ^ 64 = offset := Nat.mod_eq_of_lt (by unfold OFF_MAX at h; omega)
  unfold lseekSet
  rw [hmod, if_pos h]

inductive LockType
  | rdlck
  | wrlck
  deriving DecidableEq, Repr

/-- The advisory locks on the first byte of a file, by process. -/
abbrev Locks := List (ℕ × LockType)

/-- A lock of another process stands in the way, unless both are read locks. -/
def Locks.conflicts (locks : Locks) (pid : ℕ) (type : LockType) : Bool :=
  locks.any fun l => l.1 ≠ pid ∧ ¬ (l.2 = .rdlck ∧ type = .rdlck)

def Locks.release (locks : Locks) (pid : ℕ) : Locks := locks.filter (·.1 ≠ pid)

def Locks.acquire (locks : Locks) (pid : ℕ) (type : LockType) : Locks :=
  (pid, type) :: locks.release pid

/-- The open file description, with the locks of its file. -/
structure OpenFile where
  offset : ℕ
  locks : Locks
  deriving DecidableEq, Repr

/-- The next step of a call, with what it has read so far, or how the call ended. -/
inductive Pc
  | lock
  | seekCur
  | transfer (offset : ℕ)
  | seekSet (offset n : ℕ)
  | unlock (offset n : ℕ)
  | returned (offset n : ℕ)
  | failed (rv errno : ℤ)
  deriving DecidableEq, Repr

inductive IoOp
  | read
  | write
  deriving DecidableEq, Repr

/-- A call of `defuse_read` or `defuse_write` by process `pid`. -/
structure IoCall where
  op : IoOp
  pid : ℕ
  count : ℕ
  pc : Pc
  deriving DecidableEq, Repr

structure Reply where
  err : ℤ
  n : ℕ
  deriving DecidableEq, Repr

def IoCall.advance (file : OpenFile) (c : IoCall) (r : Reply) : OpenFile × IoCall :=
  match c.pc with
  | .lock =>
    if r.err ≠ 0 then (file, { c with pc := .failed 0 r.err })
    else if file.locks.conflicts c.pid .rdlck then (file, { c with pc := .failed 0 EAGAIN })
    else ({ file with locks := file.locks.acquire c.pid .rdlck }, { c with pc := .seekCur })
  | .seekCur =>
    if r.err ≠ 0 then (file, { c with pc := .failed 0 r.err })
    else (file, { c with pc := .transfer file.offset })
  | .transfer offset =>
    if r.err ≠ 0 then (file, { c with pc := .failed (-1) r.err })
    else (file, { c with pc := .seekSet offset r.n })
  | .seekSet offset n =>
    -- the result of this `lseek` is not looked at
    ({ file with offset := lseekSet file.offset (offset + n) },
      { c with pc := .unlock offset n })
  | .unlock offset n =>
    ({ file with locks := file.locks.release c.pid }, { c with pc := .returned offset n })
  | .returned _ _ => (file, c)
  | .failed _ _ => (file, c)

def Pc.result : Pc → Option (ℤ × ℤ)
  | .returned _ n => some (asI64 n, 0)
  | .failed rv errno => some (rv, errno)
  | _ => none

/-- A call by itself, from its first step to its last, with the outcomes of the lock
request, of the `lseek` that reads the offset and of the backend function. -/
def IoOp.call (op : IoOp) (file : OpenFile) (pid count : ℕ) (lock seek transfer : Reply) :
    OpenFile × IoCall :=
  [lock, seek, transfer, ⟨0, 0⟩, ⟨0, 0⟩].foldl (fun s r => s.2.advance s.1 r)
    (file, ⟨op, pid, count, .lock⟩)

structure Shared where
  file : OpenFile
  calls : List IoCall
  deriving DecidableEq, Repr

inductive Move
  | start (op : IoOp) (pid count : ℕ)
  | step (i : ℕ) (r : Reply)
  deriving DecidableEq, Repr

/-- A call begins, or call `i` makes its next step. -/
def Shared.move (s : Shared) : Move → Checked Shared
  | .start op pid count => return { s with calls := s.calls ++ [⟨op, pid, count, .lock⟩] }
  | .step i r =>
    match s.calls[i]? with
    | none => return s
    | some c =>
      let (file, c) := c.advance s.file r
      return ⟨file, s.calls.set i c⟩

def Shared.fresh (offset : ℕ) (locks : Locks) : Shared := ⟨⟨offset, locks⟩, []⟩

end Defuse
