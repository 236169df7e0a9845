import Defuse.Lib.Words
import Defuse.Spec.Util

/-! `usfs_wrap/usfs_wrap.c`. An operation that takes a path builds the path of the file in
the backend directory; each operation makes one system call, whose result is an `int`. -/

namespace Defuse

open CSem

def AT_SYMLINK_NOFOLLOW : UInt32 := 0x100

/-- `snprintf(.., PATH_MAX, "%s/%s", backend, path)`. -/
def backendFile (backend path : List UInt8) : List UInt8 :=
  (backend ++ slash :: path).take (PATH_MAX - 1)

inductive Syscall
  | open (path : List UInt8) (flags mode : UInt32)
  | truncate (path : List UInt8) (length : ℤ)
  | stat (path : List UInt8)
  | lstat (path : List UInt8)
  | unlink (path : List UInt8)
  | access (path : List UInt8) (mode : UInt32)
  | readlink (path : List UInt8) (bufsize : ℕ)
  deriving DecidableEq, Repr

def Syscall.path : Syscall → List UInt8
  | .open path _ _ => path
  | .truncate path _ => path
  | .stat path => path
  | .lstat path => path
  | .unlink path => path
  | .access path _ => path
  | .readlink path _ => path

/-- What a system call returns, and `errno` after it. -/
structure SysRet where
  rv : ℤ
  errno : ℤ
  deriving DecidableEq, Repr

structure OneCall (α : Type) where
  call : Syscall
  ret : SysRet → α

def SysRet.orErrno (r : SysRet) : ℤ := if r.rv = -1 then r.errno else r.rv

/-- `usfs_open`; the second component is `*ret_fh`, when it is set. -/
def usfsOpen (backend path : List UInt8) (flags mode : UInt32) : OneCall (ℤ × Option UInt64) where
  call := .open (backendFile backend path) flags mode
  ret := fun r => if r.rv > 0 then (0, some (UInt64.ofInt r.rv)) else (r.errno, none)

def usfsTruncate (backend path : List UInt8) (length : ℤ) : OneCall ℤ where
  call := .truncate (backendFile backend path) length
  ret := SysRet.orErrno

def usfsGetattr (backend path : List UInt8) (flags : UInt32) : OneCall ℤ where
  call :=
    if flags &&& AT_SYMLINK_NOFOLLOW ≠ 0 then .lstat (backendFile backend path)
    else .stat (backendFile backend path)
  ret := SysRet.orErrno

def usfsUnlink (backend path : List UInt8) : OneCall ℤ where
  call := .unlink (backendFile backend path)
  ret := SysRet.orErrno

def usfsAccess (backend path : List UInt8) (mode : UInt32) : OneCall ℤ where
  call := .access (backendFile backend path) mode
  ret := SysRet.orErrno

/-- `usfs_readlink`; the second component is `*bytes_written`. -/
def usfsReadlink (backend path : List UInt8) (bufsize : ℕ) : OneCall (ℤ × ℤ) where
  call := .readlink (backendFile backend path) bufsize
  ret := fun r => if r.rv = -1 then (r.errno, 0) else (0, r.rv)

/-- The count of a transfer as `*bytes_read` or `*bytes_written`, which are `size_t`. -/
def SysRet.transferred (r : SysRet) : ℤ × ℕ :=
  if asInt r.rv = -1 then (r.errno, 0) else (0, asU64 (asInt r.rv))

def usfsRead : SysRet → ℤ × ℕ := SysRet.transferred

def usfsWrite : SysRet → ℤ × ℕ := SysRet.transferred

/-- `usfs_fsync`, with `SYS_fdatasync` or `SYS_fsync`. -/
def usfsFsync : SysRet → ℤ := SysRet.orErrno

def usfsFtruncate : SysRet → ℤ := SysRet.orErrno

/-- `usfs_close` returns what the system call returns. -/
def usfsClose (r : SysRet) : ℤ := asInt r.rv

inductive PathOp
  | open (flags mode : UInt32)
  | truncate (length : ℤ)
  | getattr (flags : UInt32)
  | unlink
  | access (mode : UInt32)
  | readlink (bufsize : ℕ)
  deriving DecidableEq, Repr

def PathOp.call (backend path : List UInt8) : PathOp → Syscall
  | .open flags mode => (usfsOpen backend path flags mode).call
  | .truncate length => (usfsTruncate backend path length).call
  | .getattr flags => (usfsGetattr backend path flags).call
  | .unlink => (usfsUnlink backend path).call
  | .access mode => (usfsAccess backend path mode).call
  | .readlink bufsize => (usfsReadlink backend path bufsize).call

end Defuse
