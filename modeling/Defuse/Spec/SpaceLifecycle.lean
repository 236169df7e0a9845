import Defuse.Lib.Runs

/-! `libdefuse/shared_space.c`: the one `struct shared_space` of a process with the
descriptors and mappings that its functions create. Each descriptor and each mapping has
a number of its own, in the order in which they are created. -/

namespace Defuse

open CSem

/-- The values `space_ptr` takes. -/
inductive SpacePtr
  | null
  | failed
  | mapping (id : ℕ)
  deriving DecidableEq, Repr

/-- `struct shared_space`; no descriptor is the -1 of the source. -/
structure SharedSpace where
  fd : Option ℕ
  size : ℕ
  spacePtr : SpacePtr
  deriving DecidableEq, Repr

/-- What the last call was: a pointer it returned, or a release. -/
inductive SpaceReply
  | returned (p : SpacePtr)
  | released
  deriving DecidableEq, Repr

/-- The record and the kernel's side of it: the descriptors opened so far and the closed
ones, the mappings made so far and the live ones with their sizes. -/
structure SpaceProcess where
  space : SharedSpace
  opened : ℕ
  closed : List ℕ
  mapped : ℕ
  live : List (ℕ × ℕ)
  last : SpaceReply
  deriving DecidableEq, Repr

namespace SpaceProcess

def start : SpaceProcess := ⟨⟨none, 0, .null⟩, 0, [], 0, [], .returned .null⟩

/-- `munmap(space->space_ptr, space->size)`: a mapping goes when the size covers it. -/
def munmap (s : SpaceProcess) : SpaceProcess :=
  { s with live := s.live.filter fun m =>
      ¬ (s.space.spacePtr = .mapping m.1 ∧ m.2 ≤ s.space.size) }

def openFile (s : SpaceProcess) (opens : Bool) : SpaceProcess :=
  if opens then
    { s with space := { s.space with fd := some s.opened }, opened := s.opened + 1 }
  else { s with space := { s.space with fd := none } }

def setSize (s : SpaceProcess) (size : ℕ) : SpaceProcess :=
  { s with space := { s.space with size := size } }

/-- `space->space_ptr = real_mmap(NULL, space->size, ..)`; a length of 0 is refused. -/
def mapFile (s : SpaceProcess) (maps : Bool) : SpaceProcess :=
  if maps ∧ 0 < s.space.size then
    { s with
      space := { s.space with spacePtr := .mapping s.mapped }
      mapped := s.mapped + 1
      live := (s.mapped, s.space.size) :: s.live }
  else { s with space := { s.space with spacePtr := .failed } }

def reply (s : SpaceProcess) (r : SpaceReply) : SpaceProcess := { s with last := r }

/-- The pointer returned behind an `mmap`: NULL in place of MAP_FAILED. -/
def replyMapped (s : SpaceProcess) : SpaceProcess :=
  s.reply (.returned (if s.space.spacePtr ≠ .failed then s.space.spacePtr else .null))

/-- `get_shared_space`, with what `open`, the size query and `mmap` do. -/
def getSharedSpaceCall (s : SpaceProcess) (opens : Bool) (fileSize : ℕ) (maps : Bool) :
    SpaceProcess :=
  if s.space.fd = none then
    let s := s.openFile opens
    if s.space.fd = none then s.reply (.returned .null)
    else ((s.setSize fileSize).mapFile maps).replyMapped
  -- the pointer is returned as it is, MAP_FAILED included
  else s.reply (.returned s.space.spacePtr)

/-- `init_shared_space`, with what `open`, `ftruncate` and `mmap` do. -/
def initSharedSpaceCall (s : SpaceProcess) (size : ℕ) (opens truncates maps : Bool) :
    SpaceProcess :=
  -- the old descriptor is not closed
  let s := if s.space.fd ≠ none then s.munmap else s
  let s := s.openFile opens
  if s.space.fd = none then s.reply (.returned .null)
  else
    let s := s.setSize size
    if truncates then (s.mapFile maps).replyMapped else s.reply (.returned .null)

def releaseSharedSpace (s : SpaceProcess) : SpaceProcess :=
  match s.space.fd with
  | none => s.reply .released
  | some fd =>
    let s := s.munmap
    { s with space := { s.space with fd := none }, closed := fd :: s.closed, last := .released }

end SpaceProcess

/-- A call with the outcomes of the system calls it makes. -/
inductive SpaceCall
  | get (opens : Bool) (fileSize : ℕ) (maps : Bool)
  | init (size : ℕ) (opens truncates maps : Bool)
  | release
  deriving DecidableEq, Repr

def SpaceCall.exec (s : SpaceProcess) : SpaceCall → Checked SpaceProcess
  | .get opens fileSize maps => return s.getSharedSpaceCall opens fileSize maps
  | .init size opens truncates maps => return s.initSharedSpaceCall size opens truncates maps
  | .release => return s.releaseSharedSpace

end Defuse
