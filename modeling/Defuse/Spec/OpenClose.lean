import Defuse.Spec.FileHandles

/-! `libdefuse/open.c` and `libdefuse/close.c`: the calls that open and close backend
handles, with what they do outside the table written down in order. -/

namespace Defuse

open CSem FileHandleTable

/-- What a call does besides changing the table. -/
inductive Effect
  | backendOpen (mount : ℕ) (fh : UInt64)
  | backendClose (mount : ℕ) (fh : UInt64)
  | realOpen (fd : ℤ)
  | realClose (fd : ℤ)
  | errno (e : ℤ)
  deriving DecidableEq, Repr

/-- What `defuse_open` meets: the result of the mount's `open` with the handle it
returns, and the descriptor `real_open` returns (or its error, when that is negative). -/
structure OpenOutcome where
  backendRv : ℤ
  fh : UInt64
  realFd : ℤ
  realErrno : ℤ
  deriving DecidableEq, Repr

def defuseOpen (t : FileHandleTable) (mp : ℕ) (o : OpenOutcome) :
    Checked (ℤ × List Effect × FileHandleTable) :=
  if o.backendRv = 0 then
    if o.realFd ≥ 0 then do
      let (rv, t) ← t.insertFileHandle o.realFd ⟨o.fh, mp⟩
      if rv ≠ 0 then
        return (-1, [.backendOpen mp o.fh, .realOpen o.realFd, .backendClose mp o.fh, .errno rv], t)
      else return (o.realFd, [.backendOpen mp o.fh, .realOpen o.realFd], t)
    else
      return (o.realFd, [.backendOpen mp o.fh, .errno o.realErrno, .backendClose mp o.fh], t)
  else return (-1, [.errno o.backendRv], t)

/-- `defuse_close`, with the results of the mount's `close` and of `real_close`. The
backend handle is closed before the table is asked who else uses the record. -/
def defuseClose (t : FileHandleTable) (fhd : FileHandleData) (fd closeRv realRv : ℤ) :
    Checked (ℤ × List Effect × FileHandleTable) :=
  if closeRv ≠ 0 then return (-1, [.backendClose fhd.mount fhd.fileHandle, .errno closeRv], t)
  else do
    let (rv, t) ← t.removeFileHandle fd
    if rv = 0 then return (realRv, [.backendClose fhd.mount fhd.fileHandle, .realClose fd], t)
    else return (-1, [.backendClose fhd.mount fhd.fileHandle, .errno rv], t)

/-- The interposed `close`: `DEFUSE_FD_OP(close, fd, fd)`, then the real one. -/
def close (t : FileHandleTable) (fd closeRv realRv : ℤ) :
    Checked (ℤ × List Effect × FileHandleTable) := do
  match ← t.findFileHandle fd with
  | some fhd => defuseClose t fhd fd closeRv realRv
  | none => return (realRv, [.realClose fd], t)

/-- The calls that create, share and drop backend handles; every backend close succeeds. -/
inductive HandleOp
  | open (mp : ℕ) (o : OpenOutcome)
  | close (fd realRv : ℤ)
  | duplicate (fd1 fd2 : ℤ)
  deriving DecidableEq, Repr

structure Ledger where
  table : FileHandleTable
  trace : List Effect

def Ledger.step (s : Ledger) : HandleOp → Checked Ledger
  | .open mp o => do
    let (_, effects, t) ← defuseOpen s.table mp o
    return ⟨t, s.trace ++ effects⟩
  | .close fd realRv => do
    let (_, effects, t) ← close s.table fd 0 realRv
    return ⟨t, s.trace ++ effects⟩
  | .duplicate fd1 fd2 => do
    let (_, _, t) ← s.table.duplicateFileHandle fd1 fd2
    return ⟨t, s.trace⟩

def Ledger.start : Ledger := ⟨zeroed, []⟩

end Defuse
