import Defuse.Lib.Scan
import Defuse.Spec.MountOptions
import Defuse.Spec.MountPoints

/-! `libdefuse/mount_points.c`: how the mount array is filled from the mounts file. -/

namespace Defuse

open CSem

def MAX_MOUNTS : ℕ := 16

def BUFFER_SIZE : ℕ := 512

/-- `read_line`: the bytes stored, whether a newline ended them, and the rest of the file;
`none` when the file ends before the newline. -/
def readLine : ℕ → List UInt8 → Option (List UInt8 × Bool × List UInt8)
  | 0, file => some ([], false, file)
  | _ + 1, [] => none
  | size + 1, c :: cs =>
    if c = newline then some ([], true, cs)
    else (readLine size cs).map fun (line, ended, rest) => (c :: line, ended, rest)

/-- `load_mount`; `loads` tells which libraries can be loaded with all required functions. -/
def loadMount (loads : List UInt8 → Bool) (mountPath backendPath libraryPath : List UInt8) :
    Option MountPointData :=
  if loads libraryPath then some ⟨0, mountPath, backendPath, libraryPath⟩ else none

/-- The calls of `print_error_and_exit`, with the strings they print. -/
inductive LoadError
  | noMountPoint (buffer : List UInt8)
  | noBackend (buffer : List UInt8)
  | noLibrary (buffer : List UInt8)
  | notLoaded (mountPoint backend library : List UInt8)
  deriving DecidableEq, Repr

/-- The variables of `load_mounts_from_file` that outlive a line; `none` is an array that was
never written. -/
structure LoadState where
  mounts : List MountPointData := []
  backend : Option (List UInt8) := none
  library : Option (List UInt8) := none
  deriving DecidableEq, Repr

/-- `strstr(buffer, key)` and `sscanf(p, "key%[^, ]", value)`; `none` when the process exits.
At the end of the input `sscanf` returns `EOF`, which passes the test and stores nothing. -/
def readOption (key text : List UInt8) (value : Option (List UInt8)) :
    Option (Option (List UInt8)) := do
  let k ← strstr text key
  match scanUntil [comma, space] (text.drop (k + key.length)) with
  | .eof => some value
  | .mismatch => none
  | .assigned v => some (some v)

/-- A line of type `defuse`. -/
def loadLine (loads : List UInt8 → Bool) (buffer : List UInt8) (st : LoadState) :
    Checked (Except LoadError LoadState) := do
  let text ← loadString buffer 0
  match scanWord (text.drop mountType.length),
    readOption backendKey text st.backend, readOption libraryKey text st.library with
  | none, _, _ => return .error (.noMountPoint text)
  | _, none, _ => return .error (.noBackend text)
  | _, _, none => return .error (.noLibrary text)
  | some mountPoint, some (some backend), some (some library) =>
    match loadMount loads mountPoint backend library with
    | none => return .error (.notLoaded mountPoint backend library)
    | some mp =>
      if st.mounts.length < MAX_MOUNTS then
        let mounts := st.mounts ++ [{ mp with index := st.mounts.length }]
        return .ok ⟨mounts, some backend, some library⟩
      else .error .outOfBounds
  | _, _, _ => .error .uninitialised

/-- The loop of `load_mounts_from_file`, which an empty line ends as well. -/
def loadLines (loads : List UInt8 → Bool) :
    ℕ → List UInt8 → LoadState → Checked (Except LoadError (List MountPointData))
  | 0, _, _ => .error .stepLimit
  | limit + 1, file, st =>
    match readLine BUFFER_SIZE file with
    | none => return .ok st.mounts
    | some (line, ended, rest) =>
      if line = [] then return .ok st.mounts
      else if mountType.length < line.length ∧ mountType <+: line then do
        -- only a line that was ended has its terminator in the array
        match ← loadLine loads (if ended then line ++ [0] else line) st with
        | .error e => return .error e
        | .ok st => loadLines loads limit rest st
      else loadLines loads limit rest st

def loadMountsFromFile (loads : List UInt8 → Bool) (file : List UInt8) :
    Checked (Except LoadError (List MountPointData)) :=
  loadLines loads (file.length + 1) file {}

end Defuse
