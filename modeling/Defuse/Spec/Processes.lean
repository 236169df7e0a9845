import Defuse.Spec.SharedSpace

/-! `libdefuse/shared_space.c`, the exec wrappers and the start-up constructor of
`lddefuse`: process images, known by their pid, and the files `/tmp/defuse_<pid>` they
leave for their successors. A mapping covers whole pages; what is stored behind the end
of the file is lost, and reads there give zeros. -/

namespace Defuse

open CSem FileHandleTable

def pageRound (n : ℕ) : ℕ := (n + 4095) / 4096 * 4096

/-- How the system calls of `init_shared_space` come out. -/
inductive InitOutcome
  | openFails
  | ftruncateFails
  | mmapFails
  | mapped
  deriving DecidableEq, Repr

def resize (n : ℕ) (file : List UInt8) : List UInt8 :=
  file.take n ++ List.replicate (n - file.length) 0

/-- `init_shared_space(size)`: the file afterwards, and the room behind the pointer
returned. The file is opened without `O_TRUNC`; a negative size is refused by `ftruncate`
and an empty one by `mmap`. -/
def initSharedSpace (file : Option (List UInt8)) (size : ℤ) :
    InitOutcome → Option (List UInt8) × Option ℕ
  | .openFails => (file, none)
  | .ftruncateFails => (some (file.getD []), none)
  | .mmapFails => (some (if size < 0 then file.getD [] else resize size.toNat (file.getD [])), none)
  | .mapped =>
    (some (if size < 0 then file.getD [] else resize size.toNat (file.getD [])),
      if size ≤ 0 then none else some (pageRound size.toNat))

/-- `get_shared_space`: the mapped file, or NULL when there is none or it is empty. -/
def getSharedSpace : Option (List UInt8) → Option (List UInt8)
  | none => none
  | some file => if file = [] then none else some (resize (pageRound file.length) file)

def storeBytes (bytes file : List UInt8) : List UInt8 :=
  bytes.take file.length ++ file.drop bytes.length

/-- The effect of `save_file_handles_to_shared_space` on the file of the process. -/
def saveToFile (mounts : List MountPointData) (t : FileHandleTable) (file : Option (List UInt8))
    (o : InitOutcome) : Checked (Option (List UInt8)) := do
  let (file', room) := initSharedSpace file (sharedSpaceSize mounts t) o
  match ← saveFileHandlesToSharedSpace mounts t room with
  | (_, some bytes) => return file'.map (storeBytes bytes)
  | (_, none) => return if asU64 t.usedFileDescriptorPos > 0 then file' else file

/-- The table of an image after its constructor has run `load_mounts`. -/
def startImage (mounts : List MountPointData) (file : Option (List UInt8)) :
    Checked FileHandleTable :=
  restoreFileHandlesFromSharedSpace mounts (getSharedSpace file) zeroed

structure World where
  files : ℕ → Option (List UInt8)
  images : ℕ → Option FileHandleTable

namespace World

def empty : World := ⟨fun _ => none, fun _ => none⟩

def setFile (w : World) (pid : ℕ) (file : Option (List UInt8)) : World :=
  { w with files := Function.update w.files pid file }

def setImage (w : World) (pid : ℕ) (image : Option FileHandleTable) : World :=
  { w with images := Function.update w.images pid image }

end World

/-- What can happen to processes: a fresh start, a call on the table, one of the exec
wrappers (`replaced` tells whether the real exec succeeded), an exit and a fork. -/
inductive Event
  | start (pid : ℕ)
  | call (pid : ℕ) (c : Call)
  | exec (pid : ℕ) (o : InitOutcome) (replaced : Bool)
  | exit (pid : ℕ)
  | fork (pid child : ℕ)
  deriving DecidableEq, Repr

/-- One event; one that the kernel cannot produce in this state changes nothing. -/
def World.step (mounts : List MountPointData) (w : World) : Event → Checked World
  | .start pid =>
    match w.images pid with
    | some _ => .ok w
    | none => do return w.setImage pid (some (← startImage mounts (w.files pid)))
  | .call pid c =>
    match w.images pid with
    | none => .ok w
    | some t => do return w.setImage pid (some (← c.exec t))
  | .exec pid o replaced =>
    match w.images pid with
    | none => .ok w
    | some t => do
      let file ← saveToFile mounts t (w.files pid) o
      if replaced then
        return (w.setFile pid file).setImage pid (some (← startImage mounts file))
      else return w.setFile pid file
  | .exit pid => .ok (w.setImage pid none)
  | .fork pid child =>
    match w.images pid, w.images child with
    | some t, none => .ok (w.setImage child (some t))
    | _, _ => .ok w

end Defuse
