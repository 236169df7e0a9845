import Defuse.Lib.Overlay
import Defuse.Lib.Words
import Defuse.Spec.SftpRequests
import Defuse.Spec.SshfsCache

/-! Of `usfs_wrap/sshfs/sshfs_wrap.c`: reading from an open file and writing to it. One thread
uses the file. A request is taken together with its reply; what the server answers is a
parameter. Nobody wants the reply to a read, so that the receiver does not get past one that it
still finds in the table when the connection is lost, and keeps `sshfs.lock`. The thread has to
wait for the lock at the latest when it wants the chunk of the request, or with the call that
follows the loss. -/

namespace Defuse.Sshfs

open CSem

def SSH_FXP_DATA : UInt8 := 103

/-- `sshfs.max_read` and `sshfs.max_write` after `usfs_init`. -/
def maxRead : ℕ := 32768
def maxWrite : ℕ := 32768

def bufCheckGet (buf : SftpBuffer) (len : ℕ) : Bool := (buf.len + len) % 2 ^ 64 ≤ buf.size

/-- `res` of a request after a reply of type `SSH_FXP_STATUS`. -/
def readEndStatus (reply : SftpBuffer) : Checked ℤ := do
  match ← bufGetUint32 reply with
  | (.ok serr, _) => return if serr = SSH_FX_EOF then 0 else -sftpErrorToErrno serr
  | (.error _, _) => return - EIO

/-- `res` and `data` of a request after a reply of type `SSH_FXP_DATA`. -/
def readEndData (size : ℕ) (reply : SftpBuffer) : Checked (ℤ × SftpBuffer) := do
  match ← bufGetUint32 reply with
  | (.ok retsize, reply) =>
    if retsize.toNat > size then return (- EIO, bufInit 0)
    else if bufCheckGet reply retsize.toNat then return (retsize.toNat, reply)
    else return (- EIO, bufInit 0)
  | (.error _, _) => return (- EIO, bufInit 0)

/-- `sshfs_read_end`: `res` and `data` of the request. -/
def sshfsReadEnd (size : ℕ) : Outcome → Checked (ℤ × SftpBuffer)
  | .unsent | .lost => .ok (- EIO, bufInit 0)
  | .reply type reply =>
    if type = SSH_FXP_STATUS then do return (← readEndStatus reply, bufInit 0)
    else if type = SSH_FXP_DATA then readEndData size reply
    else .ok (- EIO, bufInit 0)

structure ReadReq where
  size : ℕ
  res : ℤ
  data : SftpBuffer
  deriving DecidableEq

/-- `struct read_chunk`; the oldest request first. `numReqs` is `sio.num_reqs` when all replies
that come have come. -/
structure ReadChunk where
  offset : ℕ
  size : ℕ
  reqs : List ReadReq
  numReqs : ℕ := 0
  refs : ℤ := 1
  modifver : ℕ := 0
  error : ℤ := 0
  deriving DecidableEq

/-- The loop of `sshfs_send_read`, of at most `limit` rounds: the requests, and how many of them
get no reply. -/
def sendLoop (answer : ℕ → ℕ → Outcome) : ℕ → ℕ → ℕ → Checked (List ReadReq × ℕ)
  | _, 0, _ => .ok ([], 0)
  | 0, _ + 1, _ => .error .stepLimit
  | limit + 1, size + 1, offset =>
    let bsize := min (size + 1) maxRead
    match answer offset bsize with
    | .lost => do
      let (rest, numReqs) ← sendLoop answer limit (size + 1 - bsize) (offset + bsize)
      return (⟨bsize, 0, bufInit 0⟩ :: rest, numReqs + 1)
    | .unsent => do
      let (res, data) ← sshfsReadEnd bsize .unsent
      return ([⟨bsize, res, data⟩], 0)
    | .reply type reply => do
      let (res, data) ← sshfsReadEnd bsize (.reply type reply)
      let (rest, numReqs) ← sendLoop answer limit (size + 1 - bsize) (offset + bsize)
      return (⟨bsize, res, data⟩ :: rest, numReqs)

/-- The loop of `wait_chunk`: the bytes that are put into the buffer, the requests that are left,
and `sio.error`. -/
def waitLoop : List ReadReq → ℕ → Checked (List UInt8 × List ReadReq × ℤ)
  | [], _ => .ok ([], [], 0)
  | rreq :: reqs, size =>
    if size = 0 then .ok ([], rreq :: reqs, 0)
    else if rreq.res < 0 then .ok ([], rreq :: reqs, rreq.res)
    else if rreq.res = 0 then .ok ([], rreq :: reqs, MY_EOF)
    else if (size : ℤ) < rreq.res then do
      match ← bufGetMem size rreq.data with
      | (.ok bytes, data) =>
        return (bytes, { rreq with size := rreq.size - size, res := rreq.res - size, data } :: reqs, 0)
      | (.error _, _) => .error .uninitialised
    else do
      match ← bufGetMem rreq.res.toNat rreq.data with
      | (.ok bytes, data) =>
        if rreq.res < rreq.size then return (bytes, { rreq with data } :: reqs, MY_EOF)
        else
          let (more, reqs, error) ← waitLoop reqs (size - rreq.res.toNat)
          return (bytes ++ more, reqs, error)
      | (.error _, _) => .error .uninitialised

/-- `wait_chunk` without the release of the chunk: the result, what is put into the buffer, and
the chunk. -/
def ReadChunk.wait (ch : ReadChunk) (size : ℕ) : Checked (ℤ × List UInt8 × ReadChunk) :=
  if ch.error ≠ 0 then .ok (if ch.error ≠ MY_EOF then ch.error else 0, [], ch)
  else do
    let (bytes, reqs, error) ← waitLoop ch.reqs size
    let res := asInt bytes.length
    let ch := { ch with reqs, error }
    if res > 0 then
      return (res, bytes, { ch with offset := ch.offset + res.toNat, size := ch.size - res.toNat })
    else return (res, bytes, ch)

/-- `connver` of a file and of its connection, and whether the receiver keeps `sshfs.lock`. -/
structure Link where
  fileConnver : ℕ
  connver : ℕ
  locked : Bool
  deriving DecidableEq

/-- An open file: of `struct sshfs_file` the fields for reading and whether it is allocated,
`sshfs.modifver`, the chunks by their number, the contents of the file at the server, and how many
requests are in the table that get no reply. -/
structure OpenFile where
  readahead : Option ℕ
  nextPos : ℕ
  isSeq : Bool
  fileModifver : ℤ
  modifver : ℕ
  chunks : ℕ → Option ReadChunk
  next : ℕ
  contents : List UInt8
  link : Link
  pending : ℕ
  live : Bool

/-- What `sshfs_open_common` sets up for a file with the contents `contents`. -/
def OpenFile.opened (modifver connver : ℕ) (contents : List UInt8) : OpenFile where
  readahead := none
  nextPos := 0
  isSeq := false
  fileModifver := asInt modifver
  modifver := modifver
  chunks := fun _ => none
  next := 0
  contents := contents
  link := ⟨connver, connver, false⟩
  pending := 0
  live := true

inductive Blocked
  | waiting
  deriving DecidableEq

abbrev FileProc := Proc OpenFile Blocked

def OpenFile.hangup (s : OpenFile) : OpenFile :=
  if s.pending = 0 then { s with link := { s.link with connver := s.link.connver + 1 } }
  else { s with link := { s.link with locked := true } }

/-- `sshfs_file_is_conn`, where `get_sshfs_file` has given an object of `object` bytes. -/
def sshfsFileIsConn (object : ℕ) : FileProc Bool := fun s =>
  if s.link.locked then .ok (.error .waiting, s)
  else do
    loadConnver object
    return (.ok (s.link.fileConnver = s.link.connver), s)

def getChunk (p : ℕ) : FileProc ReadChunk := fun s =>
  match s.chunks p with
  | some ch => .ok (.ok ch, s)
  | none => .error .useAfterFree

def OpenFile.withChunk (s : OpenFile) (p : ℕ) (ch : Option ReadChunk) : OpenFile :=
  { s with chunks := Function.update s.chunks p ch }

def setChunk (p : ℕ) (ch : Option ReadChunk) : FileProc Unit :=
  Proc.update fun s => s.withChunk p ch

/-- `g_new0` of a chunk, and its requests that stay in the table. -/
def OpenFile.newChunk (s : OpenFile) (ch : ReadChunk) : OpenFile :=
  { s with
    chunks := Function.update s.chunks s.next (some ch)
    next := s.next + 1
    pending := s.pending + ch.numReqs }

/-- A chunk with a reference less; without any it is freed. -/
def ReadChunk.put (ch : ReadChunk) : Option ReadChunk :=
  if ch.refs - 1 = 0 then none else some { ch with refs := ch.refs - 1 }

def chunkPut : Option ℕ → FileProc Unit
  | none => pure ()
  | some p => do
    let ch ← getChunk p
    setChunk p ch.put

section Reading

variable (answer : List UInt8 → ℕ → ℕ → Outcome)

def sshfsSendRead (size offset : ℕ) : FileProc ℕ := fun s =>
  match sendLoop (answer s.contents) size size offset with
  | .ok (reqs, numReqs) => .ok (.ok s.next, s.newChunk { offset, size, reqs, numReqs })
  | .error fault => .error fault

def waitChunk (p size : ℕ) : FileProc (ℤ × List UInt8) := do
  let ch ← getChunk p
  if ch.numReqs ≠ 0 then Proc.fail .waiting
  else
    match ch.wait size with
    | .error fault => Proc.stop fault
    | .ok (res, bytes, ch) =>
      setChunk p (some ch)
      chunkPut (some p)
      return (res, bytes)

def sshfsSyncRead (size offset : ℕ) : FileProc (ℤ × List UInt8) := do
  let chunk ← sshfsSendRead answer size offset
  waitChunk chunk size

/-- `submit_read` with the old value of `*chunkp`; the new one is returned. -/
def submitRead (size offset : ℕ) (chunkp : Option ℕ) : FileProc ℕ := do
  let chunk ← sshfsSendRead answer size offset
  let modifver ← Proc.read OpenFile.modifver
  let ch ← getChunk chunk
  setChunk chunk (some { ch with modifver })
  chunkPut chunkp
  let ch ← getChunk chunk
  setChunk chunk (some { ch with refs := ch.refs + 1 })
  return chunk

def searchReadChunk (offset : ℕ) : FileProc (Option ℕ) := do
  match ← Proc.read OpenFile.readahead with
  | none => return none
  | some p =>
    let ch ← getChunk p
    let modifver ← Proc.read OpenFile.modifver
    if ch.offset = offset ∧ ch.modifver = modifver then
      setChunk p (some { ch with refs := ch.refs + 1 })
      return some p
    else return none

/-- The chunks that `sshfs_async_read` waits for: `chunk_prev` with its size, `chunk`, and what is
left of `size` for it. -/
structure Awaited where
  prev : Option (ℕ × ℕ)
  chunk : ℕ
  size : ℕ

/-- The part of `sshfs_async_read` that finds the chunks. -/
def chooseChunks (size offset : ℕ) : FileProc Awaited := do
  match ← searchReadChunk offset with
  | none =>
    let chunk ← submitRead answer size offset none
    return ⟨none, chunk, size⟩
  | some p =>
    let ch ← getChunk p
    if ch.size < size then
      let chunk ← submitRead answer (size - ch.size) (offset + ch.size) none
      return ⟨some (p, ch.size), chunk, size - ch.size⟩
    else return ⟨none, p, size⟩

/-- The part of `sshfs_async_read` that reads ahead. -/
def readAhead (currIsSeq : Bool) (size offset : ℕ) (awaited : Awaited) : FileProc Unit := do
  let ch ← getChunk awaited.chunk
  if currIsSeq ∧ ch.size ≤ awaited.size then
    let readahead ← Proc.read OpenFile.readahead
    let chunk ← submitRead answer size (offset + size) readahead
    Proc.update fun s => { s with readahead := some chunk }
  else return ()

/-- The part of `sshfs_async_read` that waits for the chunks. -/
def awaitChunks (awaited : Awaited) : FileProc (ℤ × List UInt8) :=
  match awaited.prev with
  | none => waitChunk awaited.chunk awaited.size
  | some (prev, prevSize) => do
    let (res, bytes) ← waitChunk prev prevSize
    if res < asInt prevSize then
      chunkPut (some awaited.chunk)
      return (res, bytes)
    else
      let (res', more) ← waitChunk awaited.chunk awaited.size
      if res' < 0 then return (res', bytes ++ more)
      else return (asInt (res + res'), bytes ++ more)

/-- What `sshfs_async_read` notes of the reads. -/
def OpenFile.noteRead (size offset : ℕ) (s : OpenFile) : OpenFile :=
  { s with
    isSeq := s.nextPos = offset ∧ s.fileModifver = s.modifver
    nextPos := offset + size
    fileModifver := asInt s.modifver }

/-- `sshfs_async_read`: the result, and what is put into the buffer. -/
def sshfsAsyncRead (size offset : ℕ) : FileProc (ℤ × List UInt8) := do
  let currIsSeq ← Proc.read OpenFile.isSeq
  Proc.update (OpenFile.noteRead size offset)
  let awaited ← chooseChunks answer size offset
  readAhead answer currIsSeq size offset awaited
  awaitChunks awaited

/-- `sshfs_read`; `syncRead` is `sshfs.sync_read`, and `fi` points to `object` bytes. -/
def sshfsRead (object : ℕ) (syncRead : Bool) (size offset : ℕ) : FileProc (ℤ × List UInt8) := do
  let connected ← sshfsFileIsConn object
  if connected then
    if syncRead then sshfsSyncRead answer size offset else sshfsAsyncRead answer size offset
  else return (- EIO, [])

end Reading

/-- The loop of `sshfs_async_write` and of `sshfs_sync_write`, of at most `limit` rounds, with a
server that does what the requests ask. -/
def writeLoop : ℕ → List UInt8 → ℕ → List UInt8 → Checked (List UInt8)
  | _, [], _, contents => .ok contents
  | 0, _ :: _, _, _ => .error .stepLimit
  | limit + 1, wbuf, offset, contents =>
    let piece := wbuf.take maxWrite
    writeLoop limit (wbuf.drop maxWrite) (offset + piece.length) (overlay contents offset piece)

/-- `sshfs_inc_modifver` and the requests of `sshfs_write`. -/
def writeFile (wbuf : List UInt8) (offset : ℕ) : FileProc ℤ := fun s =>
  match writeLoop wbuf.length wbuf offset s.contents with
  | .ok contents => .ok (.ok (asInt wbuf.length), { s with modifver := s.modifver + 1, contents })
  | .error fault => .error fault

def sshfsWrite (object : ℕ) (wbuf : List UInt8) (offset : ℕ) : FileProc ℤ := do
  let connected ← sshfsFileIsConn object
  if connected then writeFile wbuf offset else return - EIO

/-- `sshfs_release`. With every write answered `sshfs_flush` does not wait, and nothing waits for
the answer to `SSH_FXP_CLOSE`. -/
def sshfsRelease (object : ℕ) (path : Option (List UInt8)) : FileProc Unit := do
  let _ ← sshfsFileIsConn object
  match path with
  | none => return ()
  | some _ =>
    let readahead ← Proc.read OpenFile.readahead
    chunkPut readahead
    Proc.update fun s => { s with live := false }

/-- A call of the application, with what the server answers during it, or the loss of the
connection between two calls. -/
inductive FileCall
  | read (server : List UInt8 → ℕ → ℕ → Outcome) (size offset : ℕ)
  | write (wbuf : List UInt8) (offset : ℕ)
  | hangup

def FileCall.perform (object : ℕ) (syncRead : Bool) :
    FileCall → FileProc (Option (ℤ × List UInt8))
  | .read server size offset => do return some (← sshfsRead server object syncRead size offset)
  | .write wbuf offset => do return some (← sshfsWrite object wbuf offset, [])
  | .hangup => do
    Proc.update OpenFile.hangup
    return none

end Defuse.Sshfs
