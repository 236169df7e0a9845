import Defuse.Spec.FileHandles
import Defuse.Spec.ReadWrite

/-! `libdefuse/seek.c` and the `lseek` of `lddefuse/unistd.c`. The kernel keeps the offset
of the descriptor, on a file that has nothing to do with the size the backend reports. -/

namespace Defuse

open CSem FileHandleTable

def SEEK_SET : ℤ := 0
def SEEK_CUR : ℤ := 1
def SEEK_END : ℤ := 2
def SEEK_DATA : ℤ := 3
def SEEK_HOLE : ℤ := 4

/-- What a call returns, `errno` where it was set, and the kernel's offset after it. -/
structure SeekResult where
  value : ℤ
  errno : Option ℤ
  offset : ℕ
  deriving DecidableEq, Repr

def SeekResult.fail (errno : ℤ) (current : ℕ) : SeekResult := ⟨-1, some errno, current⟩

/-- The kernel takes an offset that is not negative and fits; `eover` is its error for one
that does not fit. -/
def setPos (eover : ℤ) (current : ℕ) (target : ℤ) : SeekResult :=
  if target < 0 then .fail EINVAL current
  else if target > OFF_MAX then .fail eover current
  else ⟨target, none, target.toNat⟩

/-- `lseek` of Linux on a regular file of `size` bytes of data. -/
def linuxLseek (eover : ℤ) (size current : ℕ) (offset whence : ℤ) : SeekResult :=
  if whence = SEEK_SET then setPos eover current offset
  else if whence = SEEK_CUR then setPos eover current (current + offset)
  else if whence = SEEK_END then setPos eover current (size + offset)
  else if whence = SEEK_DATA then
    if offset < 0 ∨ offset ≥ size then .fail ENXIO current else setPos eover current offset
  else if whence = SEEK_HOLE then
    if offset < 0 ∨ offset ≥ size then .fail ENXIO current else setPos eover current size
  else .fail EINVAL current

def addOff (a b : ℤ) : Checked ℤ :=
  if -2 ^ 63 ≤ a + b ∧ a + b ≤ OFF_MAX then .ok (a + b) else .error .intOverflow

/-- `rv = real_lseek(..)`: the result goes through an `int`. -/
def SeekResult.throughInt (r : SeekResult) : SeekResult := { r with value := asInt r.value }

/-- What the call meets outside the library: the kernel's error for an offset that does
not fit, the size of the file behind the descriptor, and what the mount's `fgetattr`
returns and stores in `st_size`. -/
structure SeekWorld where
  eover : ℤ
  realSize : ℕ
  getattrRv : ℤ
  stSize : ℤ
  deriving DecidableEq, Repr

def SeekWorld.realLseek (w : SeekWorld) (current : ℕ) (offset whence : ℤ) : SeekResult :=
  linuxLseek w.eover w.realSize current offset whence

def defuseLseek (w : SeekWorld) (current : ℕ) (offset whence : ℤ) : Checked SeekResult :=
  if whence = SEEK_CUR ∨ whence = SEEK_SET then
    return (w.realLseek current offset whence).throughInt
  else if w.getattrRv ≠ 0 then return .fail w.getattrRv current
  else if whence = SEEK_HOLE then
    if offset ≥ w.stSize then return .fail ENXIO current
    else return (w.realLseek current w.stSize SEEK_SET).throughInt
  else if whence = SEEK_DATA then
    if offset ≥ w.stSize then return .fail ENXIO current
    else return (w.realLseek current offset SEEK_SET).throughInt
  else if whence = SEEK_END then do
    let offset ← addOff offset w.stSize
    return (w.realLseek current offset SEEK_SET).throughInt
  -- any other value of `whence` leaves the switch with the offset as it is
  else return (w.realLseek current offset SEEK_SET).throughInt

/-- The interposed `lseek`: `DEFUSE_FD_OP(lseek, fd, fd, offset, whence)`, then the real one. -/
def lseek (t : FileHandleTable) (w : SeekWorld) (fd : ℤ) (current : ℕ) (offset whence : ℤ) :
    Checked SeekResult := do
  match ← t.findFileHandle fd with
  | some _ => defuseLseek w current offset whence
  | none => return w.realLseek current offset whence

end Defuse
