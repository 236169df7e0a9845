import Defuse.Lib.Words
import Defuse.Spec.FileHandles
import Defuse.Spec.MountPoints

/-! `save_file_handles_to_shared_space` and `restore_file_handles_from_shared_space`:
how the table passes from one process image to the next. The writer emits the bytes in
order; the reader walks a memory in which every access is checked. The backends' own
`save` and `restore` hooks see only the handle value and change nothing here. -/

namespace Defuse

open CSem

/-- One `struct shared_space_mount_point_data`, the path and its terminator. The length
of the path passes through an `int`. -/
def saveMount (mp : MountPointData) : Checked (List UInt8) :=
  let mpPathLen := asInt mp.mountPath.length
  if mpPathLen = INT_MAX then .error .intOverflow
  else if mpPathLen < 0 then .error .outOfBounds
  else .ok (leBytes 8 (asU64 mp.index) ++ leBytes 8 (asU64 (mpPathLen + 1)) ++
    mp.mountPath.take mpPathLen.toNat ++ [0])

/-- One `struct shared_space_file_data`, for the descriptor at position `k` of the list. -/
def saveFile (mounts : List MountPointData) (t : FileHandleTable) (k : ℕ) :
    Checked (List UInt8) := do
  let k ← index MAX_FILES k
  let fd := t.usedFileDescriptors k
  let i ← index MAX_FILES fd
  match t.fileHandles i with
  | none => .error .nullDeref
  | some p =>
    let fhd := (← t.deref p).fData
    match mounts[fhd.mount]? with
    | none => .error .outOfBounds
    | some mp =>
      return leBytes 8 fhd.fileHandle.toNat ++ leBytes 8 (asU64 fd) ++ leBytes 8 (asU64 mp.index)

/-- The size of the mount point section: the terminators of the paths are not counted. -/
def mountPointFileSize (mounts : List MountPointData) : ℕ :=
  8 + (mounts.map fun mp => 16 + mp.mountPath.length).sum

def sharedSpaceSize (mounts : List MountPointData) (t : FileHandleTable) : ℤ :=
  asInt (mountPointFileSize mounts + 8 + asU64 t.usedFileDescriptorPos * 24)

/-- Everything `save_file_handles_to_shared_space` copies, in order. -/
def savedBytes (mounts : List MountPointData) (t : FileHandleTable) : Checked (List UInt8) := do
  let ms ← mounts.mapM saveMount
  let fs ← (List.range t.usedFileDescriptorPos.toNat).mapM (saveFile mounts t)
  return leBytes 8 mounts.length ++ ms.flatten ++
    (leBytes 8 (asU64 t.usedFileDescriptorPos) ++ fs.flatten)

/-- `save_file_handles_to_shared_space`, given the room behind the pointer that
`init_shared_space` returns (`none` for NULL): the return value and what was written. -/
def saveFileHandlesToSharedSpace (mounts : List MountPointData) (t : FileHandleTable)
    (room : Option ℕ) : Checked (ℤ × Option (List UInt8)) :=
  if asU64 t.usedFileDescriptorPos > 0 then
    match room with
    | none => return (-1, none)
    | some n => do
      let bytes ← savedBytes mounts t
      if bytes.length ≤ n then return (0, some bytes) else .error .outOfBounds
  else return (0, none)

/-- The cells of the array `malloc(count * sizeof(char*))` returns. -/
def mountPathCells (count : ℕ) : ℕ :=
  if count * 8 % 2 ^ 64 < 2 ^ 63 then count * 8 % 2 ^ 64 / 8 else 0

/-- The loop over the mount records: `mount_paths` so far, as offsets, and `current_ptr`. -/
def restoreMounts (mem : List UInt8) (cells : ℕ) :
    ℕ → List ℕ → ℕ → Checked (List ℕ × ℕ)
  | 0, paths, ptr => .ok (paths, ptr)
  | todo + 1, paths, ptr =>
    if cells ≤ paths.length then .error .outOfBounds
    else do
      let path := (ptr + 16) % 2 ^ 64
      let length ← load64 mem ((ptr + 8) % 2 ^ 64)
      if (paths.length : ℤ) = INT_MAX then .error .intOverflow
      else restoreMounts mem cells todo (paths ++ [path]) ((path + length) % 2 ^ 64)

/-- One iteration of the loop over the file records. The words of a record are read without a
wrap: the first record follows a word that was read, and each of the others one whose last word
was read. -/
def restoreFile (mounts : List MountPointData) (mem : List UInt8) (count : ℕ)
    (paths : List ℕ) (ptr : ℕ) (t : FileHandleTable) : Checked FileHandleTable := do
  let mountPointIndex ← load64 mem (ptr + 16)
  if mountPointIndex < count then
    match paths[mountPointIndex]? with
    | none => .error .outOfBounds
    | some path =>
      match findMountFromPath mounts (← loadString mem path) with
      | none => return t
      | some mountPoint =>
        let realFd := asInt (← load64 mem (ptr + 8))
        if ← t.fileHandleExists realFd then return t
        else
          let fh ← load64 mem ptr
          return (← t.insertFileHandle realFd ⟨UInt64.ofNat fh, mountPoint⟩).2
  else return t

/-- The loop over the file records, with its `int` counter `i`. -/
def restoreFiles (mounts : List MountPointData) (mem : List UInt8) (count : ℕ)
    (paths : List ℕ) : ℕ → ℕ → ℕ → FileHandleTable → Checked FileHandleTable
  | 0, _, _, t => .ok t
  | todo + 1, i, ptr, t => do
    let t ← restoreFile mounts mem count paths ptr t
    if (i : ℤ) = INT_MAX then .error .intOverflow
    else restoreFiles mounts mem count paths todo (i + 1) ((ptr + 24) % 2 ^ 64) t

/-- `restore_file_handles_from_shared_space`, given the memory `get_shared_space` maps
(`none` for NULL). The C function falls off its end, so it has no return value. -/
def restoreFileHandlesFromSharedSpace (mounts : List MountPointData)
    (space : Option (List UInt8)) (t : FileHandleTable) : Checked FileHandleTable :=
  match space with
  | none => return t
  | some mem => do
    let count ← load64 mem 0
    let (paths, ptr) ← restoreMounts mem (mountPathCells count) count [] 8
    let fileCount ← load64 mem ptr
    restoreFiles mounts mem count paths fileCount 0 ((ptr + 8) % 2 ^ 64) t

end Defuse
