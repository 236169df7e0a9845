import Defuse.Lib.Strings
import Mathlib.Data.Int.Notation
import Mathlib.Data.List.Nodup

/-! `libdefuse/mount_points.c`: the mount array and the two searches in it. -/

namespace Defuse

open CSem

/-- The fields of `struct mount_point_data` that are not backend functions. -/
structure MountPointData where
  index : ℤ
  mountPath : List UInt8
  backendPath : List UInt8
  libraryPath : List UInt8
  deriving DecidableEq, Repr

/-- The mount array as the rest of the library relies on it: each mount knows its place,
and the mount paths are distinct non-empty strings. -/
structure Mounted (mounts : List MountPointData) : Prop where
  index_eq : ∀ (k : ℕ) (mp : MountPointData), mounts[k]? = some mp → mp.index = k
  distinct : (mounts.map (·.mountPath)).Nodup
  nonempty : ∀ mp ∈ mounts, mp.mountPath ≠ []
  text : ∀ mp ∈ mounts, 0 ∉ mp.mountPath

/-- `find_mount_from_path`: the first mount whose path `strstr` finds at the start. -/
def findMountFromPath (mounts : List MountPointData) (path : List UInt8) : Option ℕ :=
  mounts.findIdx? fun m => strstr path m.mountPath = some 0

/-- What `find_mount_and_strip_path` leaves in `path` for the mount it returns. -/
def stripPath (mountPath path : List UInt8) : List UInt8 :=
  if path.drop mountPath.length = [] then [0x2f] else path.drop mountPath.length

/-- `find_mount_and_strip_path`: the place of the mount and the rewritten path. A match
is passed over when the path is a single character. -/
def findMountAndStripPath (mounts : List MountPointData) (path : List UInt8) :
    Option (ℕ × List UInt8) := do
  let i ← mounts.findIdx? fun m => strstr path m.mountPath = some 0 ∧ path.length > 1
  let m ← mounts[i]?
  return (i, stripPath m.mountPath path)

end Defuse
