import Defuse.Lib.Runs
import Defuse.Spec.SftpBuffer

/-! Of `usfs_wrap/sshfs/sshfs_wrap.c`: `sftp_send_iov`, in which the threads of the application
write their messages to one connection. An event is one operation of one thread, with what the
kernel answers; an operation that cannot be done yet changes nothing. -/

namespace Defuse.Sshfs

open CSem

abbrev Iov := List (List UInt8)

def iovLength (iov : Iov) : ℕ := (iov.map List.length).sum

/-- The inner loop of `do_write`: `res` bytes have been written. -/
def skipWritten : ℕ → Iov → Iov
  | _, [] => []
  | res, bytes :: iov =>
    if res < bytes.length then bytes.drop res :: iov else skipWritten (res - bytes.length) iov

/-- The point of a thread in `sftp_send_iov`. -/
inductive Sending
  /-- `pthread_mutex_lock`, with what is to be written -/
  | locking (iovout : Iov)
  /-- `writev` in `do_write`, with what is left to write -/
  | writing (iov : Iov)
  /-- `pthread_mutex_unlock`, with the result of `do_write` -/
  | unlocking (res : ℤ)
  | returned (res : ℤ)
  deriving DecidableEq, Repr

/-- What `do_write` does next: it returns when nothing is left to write. -/
def doWrite : Iov → Sending
  | [] => .unlocking 0
  | iov => .writing iov

/-- A round of the loop of `do_write` for a `writev` that returned `res`. -/
def doWriteRound (iov : Iov) (res : ℤ) : Sending :=
  if res = -1 ∨ res = 0 then .unlocking (-1) else doWrite (skipWritten res.toNat iov)

structure SftpMessage where
  type : UInt8
  id : UInt32
  iov : Iov
  deriving DecidableEq, Repr

/-- The turn of a thread at the connection: its message, what has been written of it, and the
result of `do_write`. -/
structure Turn where
  thread : Thread
  message : SftpMessage
  written : List UInt8
  res : Option ℤ
  deriving DecidableEq, Repr

/-- The connection: the bytes written to it, `lock_write`, the threads with the messages that they
are sending, and the turns that there have been. -/
structure SendState where
  wire : List UInt8
  lockWrite : Option Thread
  threads : Thread → Option (SftpMessage × Sending)
  turns : List Turn

def SendState.idle : SendState := ⟨[], none, fun _ => none, []⟩

def SendState.goto (s : SendState) (t : Thread) (m : SftpMessage) (p : Sending) : SendState :=
  { s with threads := Function.update s.threads t (some (m, p)) }

/-- The last turn after a `writev`. -/
def SendState.wrote (s : SendState) (bytes : List UInt8) (res : Option ℤ) : SendState :=
  { s with
    wire := s.wire ++ bytes
    turns := s.turns.dropLast ++
      (s.turns.getLast?.map fun turn => { turn with written := turn.written ++ bytes, res }).toList }

inductive SendEvent
  | call (t : Thread) (m : SftpMessage)
  | proceed (t : Thread) (res : ℤ)
  deriving DecidableEq, Repr

def SFTP_MAX_IOV : ℕ := 3

/-- The buffer that `sftp_send_iov` puts before a message. -/
def sendHead (m : SftpMessage) : Checked (List UInt8) := do
  let buf := bufInit 9
  let buf ← bufAddUint32 buf (UInt32.ofNat (iovLength m.iov + 5))
  let buf ← bufAddUint8 buf m.type
  let buf ← bufAddUint32 buf m.id
  buf.p.load 0 buf.len

/-- The call of `sftp_send_iov`, up to the lock. The assertion on the number of buffers ends the
process. -/
def SendState.call (s : SendState) (t : Thread) (m : SftpMessage) : Checked SendState := do
  if m.iov.length ≤ SFTP_MAX_IOV - 1 then
    match s.threads t with
    | none | some (_, .returned _) =>
      let head ← sendHead m
      return s.goto t m (.locking (head :: m.iov))
    | some _ => return s
  else return s

def Sending.result : Sending → Option ℤ
  | .unlocking res | .returned res => some res
  | .locking _ | .writing _ => none

/-- `pthread_mutex_lock`, when nobody holds the lock: the turn of the thread begins. -/
def SendState.lock (s : SendState) (t : Thread) (m : SftpMessage) (iovout : Iov) : SendState :=
  { s.goto t m (doWrite iovout) with
    lockWrite := some t
    turns := s.turns ++ [Turn.mk t m [] (doWrite iovout).result] }

def SendState.write (s : SendState) (t : Thread) (m : SftpMessage) (iov : Iov) (res : ℤ) :
    SendState :=
  (s.wrote (iov.flatten.take res.toNat) (doWriteRound iov res).result).goto t m
    (doWriteRound iov res)

def SendState.unlock (s : SendState) (t : Thread) (m : SftpMessage) (res : ℤ) : SendState :=
  { s.goto t m (.returned res) with lockWrite := none }

/-- The next operation of a thread in `sftp_send_iov`. The kernel writes at most what it is
given. -/
def SendState.proceed (s : SendState) (t : Thread) (res : ℤ) : SendState :=
  match s.threads t with
  | some (m, .locking iovout) =>
    match s.lockWrite with
    | some _ => s
    | none => s.lock t m iovout
  | some (m, .writing iov) =>
    if -1 ≤ res ∧ res ≤ iovLength iov then s.write t m iov res else s
  | some (m, .unlocking res) => s.unlock t m res
  | some (_, .returned _) | none => s

def SendState.step (s : SendState) : SendEvent → Checked SendState
  | .call t m => s.call t m
  | .proceed t res => .ok (s.proceed t res)

end Defuse.Sshfs
