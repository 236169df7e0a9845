import Defuse.Spec.SftpBuffer
import Mathlib.Data.List.Perm.Basic

/-! Of `usfs_wrap/sshfs/sshfs_wrap.c`: the requests that the threads of the application have sent
over one connection, and the thread that receives the replies. An event is what one thread does
while it holds `sshfs.lock`, or between two points at which others can see it; an operation that
cannot be done yet changes nothing. The limit on `outstanding_len` is left out: `usfs_init` sets
it to the largest value. -/

namespace Defuse.Sshfs

open CSem

def SSH_FXP_READ : UInt8 := 5
def SSH_FXP_READDIR : UInt8 := 12
def SSH_FXP_RMDIR : UInt8 := 15
def SSH_FXP_STATUS : UInt8 := 101
def SSH_FXP_NAME : UInt8 := 104

def SSH_FX_OK : UInt32 := 0
def SSH_FX_EOF : UInt32 := 1
def SSH_FX_NO_SUCH_FILE : UInt32 := 2
def SSH_FX_PERMISSION_DENIED : UInt32 := 3
def SSH_FX_FAILURE : UInt32 := 4
def SSH_FX_BAD_MESSAGE : UInt32 := 5
def SSH_FX_NO_CONNECTION : UInt32 := 6
def SSH_FX_CONNECTION_LOST : UInt32 := 7
def SSH_FX_OP_UNSUPPORTED : UInt32 := 8

def MY_EOF : ℤ := 1

def sftpErrorToErrno (error : UInt32) : ℤ :=
  if error = SSH_FX_OK then 0
  else if error = SSH_FX_NO_SUCH_FILE then ENOENT
  else if error = SSH_FX_PERMISSION_DENIED then EACCES
  else if error = SSH_FX_FAILURE then EPERM
  else if error = SSH_FX_BAD_MESSAGE then EBADMSG
  else if error = SSH_FX_NO_CONNECTION then ENOTCONN
  else if error = SSH_FX_CONNECTION_LOST then ECONNABORTED
  else if error = SSH_FX_OP_UNSUPPORTED then EOPNOTSUPP
  else EIO

/-- The result of `sftp_request_wait` for a status. -/
def statusError (type expectType : UInt8) (serr : UInt32) : ℤ :=
  if serr = SSH_FX_OK then if expectType = SSH_FXP_STATUS then 0 else - EIO
  else if serr = SSH_FX_EOF then
    if type = SSH_FXP_READ ∨ type = SSH_FXP_READDIR then MY_EOF else - EIO
  else if serr = SSH_FX_FAILURE then if type = SSH_FXP_RMDIR then -ENOTEMPTY else -EPERM
  else -sftpErrorToErrno serr

/-- The result of `sftp_request_wait` for a reply, and what it puts into `outbuf`. -/
def replyResult (type expectType replyType : UInt8) (reply : SftpBuffer) :
    Checked (ℤ × Option (List UInt8)) := do
  if replyType ≠ expectType ∧ replyType ≠ SSH_FXP_STATUS then return (- EIO, none)
  else if replyType = SSH_FXP_STATUS then
    match ← bufGetUint32 reply with
    | (.error _, _) => return (- EIO, none)
    | (.ok serr, _) => return (statusError type expectType serr, none)
  else
    let (outbuf, _) ← bufGetMem (reply.size - reply.len) reply
    return (0, outbuf.toOption)

/-- What becomes of a request, for the one who made it. -/
inductive Outcome
  /-- `sftp_request_send` fails -/
  | unsent
  /-- the connection is lost -/
  | lost
  | reply (type : UInt8) (buf : SftpBuffer)
  deriving DecidableEq

/-- `struct request`, with the value of the semaphore. -/
structure Request where
  id : UInt32
  wantReply : Bool
  ready : ℕ := 0
  error : ℤ := 0
  replyType : UInt8 := 0
  reply : SftpBuffer := bufInit 0

inductive CallerPoint
  /-- in `sftp_send_iov` -/
  | sending (id : UInt32)
  /-- the whole message has been written, and `sftp_send_iov` returns 0 -/
  | written
  /-- `sftp_request_send` has returned 0 and its caller has the request -/
  | holding
  /-- `sftp_request_send` has returned an error and its caller has the request -/
  | refused
  /-- at `out` in `sftp_request_wait` -/
  | leaving (err : ℤ) (outbuf : Option (List UInt8))
  | returned (err : ℤ) (outbuf : Option (List UInt8))
  /-- `sftp_readdir_async` has gone on without the reply -/
  | dropped
  /-- `sftp_readdir_async` has gone on without the request, which nobody frees -/
  | forgotten
  deriving DecidableEq

/-- A thread that makes a request. The argument `want_reply` of `sftp_request_send` is the type
of the expected reply, and 0 where no reply is waited for. -/
structure Caller where
  type : UInt8
  expectType : UInt8
  point : CallerPoint
  deriving DecidableEq

/-- The point of the thread in `process_requests`. -/
inductive Receiver
  /-- there is no such thread, and no connection -/
  | off
  /-- `sftp_read` -/
  | reading
  /-- `process_one_request` has returned -1 -/
  | closing
  /-- a reply has been read and its request taken from the table -/
  | completing (req : ℕ) (type : UInt8) (buf : SftpBuffer)
  /-- `request_free` waits for `sshfs.lock`, which the thread holds itself -/
  | stuck (req : ℕ)
  deriving DecidableEq

/-- The requests by their number, the table of those that wait for a reply, and the threads. Of
the server there are the messages that it has got and not answered; `replies` and `ended` are
the replies read and the requests for which `end_func` was called. -/
structure Requests where
  heap : ℕ → Option Request
  next : ℕ
  idctr : UInt32
  reqtab : List (UInt32 × ℕ)
  receiver : Receiver
  callers : ℕ → Option Caller
  outstanding : List UInt32
  replies : List (UInt32 × UInt8 × SftpBuffer)
  ended : List ℕ

def Requests.idle : Requests := ⟨fun _ => none, 0, 0, [], .off, fun _ => none, [], [], []⟩

namespace Requests

def get (s : Requests) (req : ℕ) : Checked Request :=
  match s.heap req with
  | some r => .ok r
  | none => .error .useAfterFree

def put (s : Requests) (req : ℕ) (r : Option Request) : Requests :=
  { s with heap := Function.update s.heap req r }

def goto (s : Requests) (req : ℕ) (c : Caller) (point : CallerPoint) : Requests :=
  { s with callers := Function.update s.callers req (some { c with point }) }

/-- Nobody can take `sshfs.lock` any more. -/
def locked (s : Requests) : Bool :=
  match s.receiver with
  | .stuck _ => true
  | _ => false

/-- `end_func` and `request_free`. -/
def free (s : Requests) (req : ℕ) : Requests :=
  { s.put req none with ended := s.ended ++ [req] }

def remove (s : Requests) (id : UInt32) : Requests :=
  { s with reqtab := s.reqtab.filter (·.1 ≠ id) }

/-- `out` in `sftp_request_send`. -/
def sendFailed (s : Requests) (req : ℕ) (c : Caller) : Checked Requests := do
  let r ← s.get req
  let s := s.put req (some { r with error := - EIO })
  if c.expectType = 0 then return s.goto req c (.leaving (- EIO) none)
  else return s.goto req c .refused

def create (s : Requests) (expectType : UInt8) : Requests :=
  { s.put s.next (some { id := s.idctr, wantReply := expectType ≠ 0 }) with
    next := s.next + 1
    idctr := s.idctr + 1 }

def insert (s : Requests) (id : UInt32) (req : ℕ) : Requests :=
  { s with reqtab := (id, req) :: (s.remove id).reqtab }

/-- `sftp_request_send` up to `sftp_send_iov`; `connects` tells whether
`start_processing_thread` succeeds where there is no such thread. -/
def send (s : Requests) (type expectType : UInt8) (connects : Bool) : Checked Requests :=
  if s.locked then .ok s
  else
    let c : Caller := ⟨type, expectType, .sending s.idctr⟩
    let inserted := (s.create expectType).insert s.idctr s.next
    if s.receiver = .off then
      if connects then
        .ok ({ inserted with receiver := .reading, outstanding := [] }.goto s.next c c.point)
      else (s.create expectType).sendFailed s.next c
    else .ok (inserted.goto s.next c c.point)

/-- The last byte of a message reaches the server. -/
def write (s : Requests) (req : ℕ) (c : Caller) : Requests :=
  match c.point with
  | .sending id =>
    if s.receiver = .off ∨ s.locked then s
    else { s with outstanding := id :: s.outstanding }.goto req c .written
  | _ => s

/-- `sftp_send_iov` returns 0. -/
def sent (s : Requests) (req : ℕ) (c : Caller) : Requests :=
  match c.point with
  | .written => s.goto req c (if c.expectType = 0 then .returned 0 none else .holding)
  | _ => s

/-- `sftp_send_iov` returns -1. -/
def unsent (s : Requests) (req : ℕ) (c : Caller) : Checked Requests :=
  match c.point with
  | .sending id =>
    if s.locked then .ok s
    else
      let rmed := (s.reqtab.lookup id).isSome
      let s := s.remove id
      if ¬ rmed ∧ c.expectType = 0 then .ok (s.goto req c (.returned (- EIO) none))
      else s.sendFailed req c
  | _ => .ok s

/-- What `sftp_readdir_async` does with a request once it is done. -/
def drop (s : Requests) (req : ℕ) (c : Caller) : Checked Requests :=
  match c.point with
  | .holding =>
    if s.locked then .ok s
    else do
      let r ← s.get req
      if (s.reqtab.lookup r.id).isSome then
        return (s.put req (some { r with wantReply := false })).goto req c .dropped
      else return s
  | _ => .ok s

/-- What `sftp_readdir_async` does when `sftp_readdir_send` fails. -/
def forget (s : Requests) (req : ℕ) (c : Caller) : Requests :=
  match c.point with
  | .refused => if c.type = SSH_FXP_READDIR then s.goto req c .forgotten else s
  | _ => s

/-- `sftp_request_wait` up to `out`. -/
def sftpRequestWait (s : Requests) (req : ℕ) (c : Caller) : Checked Requests := do
  let r ← s.get req
  if r.error ≠ 0 then return s.goto req c (.leaving r.error none)
  else if r.ready = 0 then return s
  else
    let s := s.put req (some { r with ready := r.ready - 1 })
    let (err, outbuf) ← replyResult c.type c.expectType r.replyType r.reply
    return s.goto req c (.leaving err outbuf)

def wait (s : Requests) (req : ℕ) (c : Caller) : Checked Requests :=
  match c.point with
  | .holding | .refused => s.sftpRequestWait req c
  | _ => .ok s

/-- `sftp_request_wait` behind `out`. -/
def leave (s : Requests) (req : ℕ) (c : Caller) : Checked Requests :=
  match c.point with
  | .leaving err outbuf =>
    if s.locked then .ok s
    else do
      let _ ← s.get req
      return (s.free req).goto req c (.returned err outbuf)
  | _ => .ok s

/-- `g_hash_table_foreach_remove` with `clean_req`. -/
def cleanLoop : List (UInt32 × ℕ) → Requests → Checked Requests
  | [], s => .ok { s with receiver := .off, outstanding := [] }
  | (id, req) :: entries, s => do
    let r ← s.get req
    if r.wantReply then
      let s := s.put req (some { r with error := - EIO, ready := r.ready + 1 })
      cleanLoop entries (s.remove id)
    else
      let s := s.put req (some { r with error := - EIO })
      return { s with receiver := .stuck req, ended := s.ended ++ [req] }

/-- The end of `process_requests`; `order` is the order in which the table is gone through. -/
def hangup (s : Requests) (order : List (UInt32 × ℕ)) : Checked Requests :=
  if (s.receiver = .reading ∨ s.receiver = .closing) ∧ order.Perm s.reqtab then cleanLoop order s
  else .ok s

def answer (s : Requests) (id : UInt32) (type : UInt8) (buf : SftpBuffer) : Requests :=
  { s with outstanding := s.outstanding.erase id, replies := s.replies ++ [(id, type, buf)] }

/-- The part of `process_one_request` under `sshfs.lock`. -/
def take (s : Requests) (id : UInt32) (type : UInt8) (buf : SftpBuffer) : Checked Requests :=
  match s.reqtab.lookup id with
  | none => .ok s
  | some req => do
    let _ ← s.get req
    return { s.remove id with receiver := .completing req type buf }

/-- `process_one_request` for a reply that `sftp_read` has read, up to the unlock. -/
def receive (s : Requests) (type : UInt8) (bytes : List UInt8) : Checked Requests :=
  match s.receiver with
  | .reading => do
    match ← bufGetUint32 (.filled bytes) with
    | (.error _, _) => return { s with receiver := .closing }
    | (.ok id, buf) => (s.answer id type buf).take id type buf
  | _ => .ok s

/-- The rest of `process_one_request`. -/
def complete (s : Requests) : Checked Requests :=
  match s.receiver with
  | .completing req type buf => do
    let r ← s.get req
    let s := { s with receiver := .reading }
    if r.wantReply then
      return s.put req (some { r with reply := buf, replyType := type, ready := r.ready + 1 })
    else return s.free req
  | _ => .ok s

end Requests

inductive CallerStep
  | write
  | sent
  | unsent
  | drop
  | forget
  | wait
  | leave
  deriving DecidableEq

def Requests.callerStep (s : Requests) (req : ℕ) (c : Caller) : CallerStep → Checked Requests
  | .write => .ok (s.write req c)
  | .sent => .ok (s.sent req c)
  | .unsent => s.unsent req c
  | .drop => s.drop req c
  | .forget => .ok (s.forget req c)
  | .wait => s.wait req c
  | .leave => s.leave req c

inductive RequestEvent
  | send (type expectType : UInt8) (connects : Bool)
  | caller (req : ℕ) (step : CallerStep)
  | receive (type : UInt8) (bytes : List UInt8)
  | complete
  | hangup (order : List (UInt32 × ℕ))
  deriving DecidableEq

def Requests.step (s : Requests) : RequestEvent → Checked Requests
  | .send type expectType connects => s.send type expectType connects
  | .caller req step =>
    match s.callers req with
    | some c => s.callerStep req c step
    | none => .ok s
  | .receive type bytes => s.receive type bytes
  | .complete => s.complete
  | .hangup order => s.hangup order

end Defuse.Sshfs
