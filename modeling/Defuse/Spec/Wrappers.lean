import Defuse.Spec.ReadWrite
import Defuse.Spec.SshfsCache
import Defuse.Spec.UsfsWrap

/-! The interface of the wrappers `usfs_wrap.c`, `hdfs_wrap.c` and `sshfs_wrap.c` to
`libdefuse`: how each of them passes on the result of the operation below it. -/

namespace Defuse

open CSem

abbrev Errno := { e : ℤ // 0 < e ∧ e ≤ INT_MAX }

/-- A system call that transfers bytes or fails; `stale` is what `errno` was before. -/
def sysRet (stale : ℤ) : Except Errno ℕ → SysRet
  | .ok n => ⟨n, stale⟩
  | .error e => ⟨-1, e⟩

/-- `int rc = ..`: a function that returns bytes or a negative error number. -/
def opRc : Except Errno ℕ → ℤ
  | .ok n => asInt n
  | .error e => -e

namespace HdfsWrap

/-- `usfs_read` and `usfs_write` from the result of `hadoop_fuse_read` or
`hadoop_fuse_write` and the count before the call. -/
def transfer (rc : ℤ) (bytes : ℕ) : Checked (ℤ × ℕ) :=
  if rc < 0 then do return (← negInt rc, bytes) else return (0, asU64 rc)

def usfsRead : ℤ → ℕ → Checked (ℤ × ℕ) := transfer

def usfsWrite : ℤ → ℕ → Checked (ℤ × ℕ) := transfer

def usfsFsync : ℤ → Checked ℤ := negInt

def usfsTruncate : ℤ → Checked ℤ := negInt

def usfsFtruncate : ℤ → Checked ℤ := negInt

def usfsUnlink : ℤ → Checked ℤ := negInt

def usfsClose : ℤ := 0

end HdfsWrap

namespace SshfsWrap

/-- `return -rc` of `usfs_read` and `usfs_write`, which do not set the count. -/
def transfer (rc : ℤ) (bytes : ℕ) : Checked (ℤ × ℕ) := do return (← negInt rc, bytes)

/-- A function whose operation takes the handle, which all look at the connection first. -/
def withHandle {α : Type} (result : Checked α) : Checked α := do
  loadConnver handleSize
  result

def usfsRead (rc : ℤ) (bytes : ℕ) : Checked (ℤ × ℕ) := withHandle (transfer rc bytes)

def usfsWrite (rc : ℤ) (bytes : ℕ) : Checked (ℤ × ℕ) := withHandle (transfer rc bytes)

def usfsFsync (rc : ℤ) : Checked ℤ := withHandle (negInt rc)

def usfsTruncate : ℤ → Checked ℤ := negInt

def usfsFtruncate (rc : ℤ) : Checked ℤ := withHandle (negInt rc)

def usfsUnlink : ℤ → Checked ℤ := negInt

/-- `sshfs_release` ignores the errors of `sshfs_flush` and of the request to close. -/
def sshfsRelease (_err : ℤ) : ℤ := 0

def usfsClose (err : ℤ) : Checked ℤ := withHandle (negInt (sshfsRelease err))

end SshfsWrap

inductive Wrapper
  | usfs (backend : List UInt8)
  | hdfs
  | sshfs
  deriving DecidableEq, Repr

inductive FileOp
  | fsync
  | truncate (path : List UInt8) (length : ℤ)
  | ftruncate
  | unlink (path : List UInt8)
  | close
  deriving DecidableEq, Repr

/-- `usfs_read` and `usfs_write` of each wrapper: the result and the count, which is 0
before the call. -/
def Wrapper.transfer (stale : ℤ) (o : Except Errno ℕ) : Wrapper → IoOp → Checked (ℤ × ℕ)
  | .usfs _, .read => return usfsRead (sysRet stale o)
  | .usfs _, .write => return usfsWrite (sysRet stale o)
  | .hdfs, .read => HdfsWrap.usfsRead (opRc o) 0
  | .hdfs, .write => HdfsWrap.usfsWrite (opRc o) 0
  | .sshfs, .read => SshfsWrap.usfsRead (opRc o) 0
  | .sshfs, .write => SshfsWrap.usfsWrite (opRc o) 0

/-- The other operations of each wrapper, where success is the result 0 of the operation
below. -/
def Wrapper.fileOp (stale : ℤ) (o : Except Errno Unit) : Wrapper → FileOp → Checked ℤ
  | .usfs _, .fsync => return usfsFsync (sysRet stale (o.map fun _ => 0))
  | .usfs backend, .truncate path length =>
    return (usfsTruncate backend path length).ret (sysRet stale (o.map fun _ => 0))
  | .usfs _, .ftruncate => return usfsFtruncate (sysRet stale (o.map fun _ => 0))
  | .usfs backend, .unlink path =>
    return (usfsUnlink backend path).ret (sysRet stale (o.map fun _ => 0))
  | .usfs _, .close => return usfsClose (sysRet stale (o.map fun _ => 0))
  | .hdfs, .fsync => HdfsWrap.usfsFsync (opRc (o.map fun _ => 0))
  | .hdfs, .truncate _ _ => HdfsWrap.usfsTruncate (opRc (o.map fun _ => 0))
  | .hdfs, .ftruncate => HdfsWrap.usfsFtruncate (opRc (o.map fun _ => 0))
  | .hdfs, .unlink _ => HdfsWrap.usfsUnlink (opRc (o.map fun _ => 0))
  | .hdfs, .close => return HdfsWrap.usfsClose
  | .sshfs, .fsync => SshfsWrap.usfsFsync (opRc (o.map fun _ => 0))
  | .sshfs, .truncate _ _ => SshfsWrap.usfsTruncate (opRc (o.map fun _ => 0))
  | .sshfs, .ftruncate => SshfsWrap.usfsFtruncate (opRc (o.map fun _ => 0))
  | .sshfs, .unlink _ => SshfsWrap.usfsUnlink (opRc (o.map fun _ => 0))
  | .sshfs, .close => SshfsWrap.usfsClose (opRc (o.map fun _ => 0))

end Defuse
