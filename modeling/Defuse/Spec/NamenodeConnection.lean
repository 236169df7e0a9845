import Defuse.Lib.Runs
import Defuse.Spec.Errno
import Mathlib.Data.Nat.Notation
import Mathlib.Logic.Function.Basic

/-! `usfs_wrap/hdfs/hadooprpc.c`: the connection to the name node and the threads that share it,
those of the application and the worker that renews the lease. An event is one operation of one
thread, with what the kernel or the name node answers. The contents of the messages are left
out, except for the status of a reply. -/

namespace Defuse

open CSem (Thread)

/-- `RpcErrorCodeProto`, as far as it is told apart. -/
inductive ErrorDetail
  | fatalUnauthorized
  | fatalVersionMismatch
  | errorRpcVersionMismatch
  | fatalInvalidRpcHeader
  | errorRpcServer
  | other
  deriving DecidableEq, Repr

inductive RpcStatus
  | success
  | error
  | fatal
  deriving DecidableEq, Repr

structure RpcReply where
  status : RpcStatus
  errordetail : Option ErrorDetail
  deriving DecidableEq, Repr

/-- `res` for a reply other than `SUCCESS`. -/
def RpcReply.failure (r : RpcReply) : ℤ :=
  match r.errordetail with
  | some .fatalUnauthorized => - EACCES
  | some .fatalVersionMismatch | some .errorRpcVersionMismatch => - EPROTONOSUPPORT
  | some .fatalInvalidRpcHeader | some .errorRpcServer => - EBADR
  | some .other | none => - EINVAL

inductive Job
  | callNamenode
  | connectNamenode
  deriving DecidableEq, Repr

inductive Point
  /-- outside of both functions; the worker is asleep here -/
  | outside
  /-- `pthread_mutex_lock` -/
  | locking (job : Job)
  /-- `socket` -/
  | creating
  /-- `connect` and `setsockopt` -/
  | connecting
  /-- one of the sends of `hadoop_rpc_connect_namenode`, with those behind it -/
  | greeting (left : ℕ)
  /-- `pthread_create` -/
  | spawning
  /-- one of the sends of `hadoop_rpc_call_namenode_withlock`, with those behind it -/
  | sending (job : Job) (left : ℕ)
  | receivingLength (job : Job)
  | receivingReply (job : Job)
  /-- `hadoop_rpc_disconnect` after a fatal reply -/
  | closing (job : Job) (res : ℤ)
  | cancelling (job : Job) (res : ℤ)
  /-- the end of `hadoop_rpc_call_namenode_withlock` -/
  | leaving (job : Job) (res : ℤ)
  /-- `pthread_mutex_unlock` of a connect that failed, and what it does then -/
  | failing (error : ℤ)
  | cleaning (error : ℤ)
  | cleaned (error : ℤ)
  /-- a thread that was cancelled -/
  | ended
  deriving DecidableEq, Repr

/-- The points at which a thread that was cancelled ends. -/
def Point.cancellation : Point → Bool
  | .outside | .connecting | .greeting _ | .sending _ _ => true
  | .receivingLength _ | .receivingReply _ | .closing _ _ | .cleaning _ => true
  | _ => false

/-- A send or a receive: the descriptor, and whether it was closed after it was stored. -/
structure SocketUse where
  sockfd : ℤ
  closed : Bool
  deriving DecidableEq, Repr

/-- The end of a call: whether it took the mutex while the stored descriptor was closed, and its
result. -/
structure CallEnd where
  between : Bool
  res : ℤ
  deriving DecidableEq, Repr

/-- `struct namenode_state`, the threads, and what has been done to the socket. `closed` holds
from the `close` of the stored descriptor until a new one is stored. -/
structure Connection where
  sockfd : ℤ
  isconnected : Bool
  closed : Bool
  holder : Option Thread
  worker : Option Thread
  cancelled : Thread → Bool
  point : Thread → Point
  between : Bool
  uses : List SocketUse
  ends : List CallEnd

/-- What an operation gets: the result of a system call, the reply, the new thread. -/
structure OpAnswer where
  res : ℤ
  reply : RpcReply
  thread : Thread
  deriving DecidableEq, Repr

namespace Connection

def zeroed : Connection where
  sockfd := 0
  isconnected := false
  closed := false
  holder := none
  worker := none
  cancelled := fun _ => false
  point := fun _ => .outside
  between := false
  uses := []
  ends := []

def goto (t : Thread) (p : Point) (c : Connection) : Connection :=
  { c with point := Function.update c.point t p }

def used (c : Connection) : Connection := { c with uses := c.uses ++ [⟨c.sockfd, c.closed⟩] }

def disconnect (c : Connection) : Connection := { c with closed := true, isconnected := false }

def cancelWorker (c : Connection) : Connection :=
  match c.worker with
  | none => c
  | some w => { c with cancelled := Function.update c.cancelled w true }

/-- `pthread_create`: a failure is positive, so that it goes unnoticed. -/
def spawn (a : OpAnswer) (c : Connection) : Connection :=
  if a.res = 0 then
    { c with worker := some a.thread, cancelled := Function.update c.cancelled a.thread false }
  else c

/-- `pthread_mutex_lock`, when nobody holds the mutex. -/
def lock (t : Thread) (job : Job) (c : Connection) : Connection :=
  let c := { c with holder := some t, between := c.closed }
  match job with
  | .callNamenode => c.goto t (.sending .callNamenode 3)
  | .connectNamenode => c.goto t .creating

/-- The end of `hadoop_rpc_call_namenode`, and of `hadoop_rpc_connect_namenode` behind its
call. -/
def leave (t : Thread) (job : Job) (res : ℤ) (c : Connection) : Connection :=
  match job with
  | .callNamenode =>
    goto t .outside { c with holder := none, ends := c.ends ++ [⟨c.between, res⟩] }
  | .connectNamenode =>
    if res < 0 then c.goto t (.failing res)
    else goto t .outside { c with isconnected := true, holder := none }

def advance (t : Thread) (a : OpAnswer) (c : Connection) : Connection :=
  match c.point t with
  | .outside | .ended => c
  | .locking job =>
    match c.holder with
    | some _ => c
    | none => c.lock t job
  | .creating => goto t .connecting { c with sockfd := a.res, closed := false }
  | .connecting => if a.res < 0 then c.goto t (.failing a.res) else c.goto t (.greeting 3)
  | .greeting left =>
    if a.res < 0 then c.used.goto t (.failing a.res)
    else
      match left with
      | 0 => c.used.goto t .spawning
      | left + 1 => c.used.goto t (.greeting left)
  | .spawning =>
    if a.res < 0 then c.goto t (.failing a.res)
    else (c.spawn a).goto t (.sending .connectNamenode 3)
  | .sending job 0 => c.used.goto t (.receivingLength job)
  | .sending job (left + 1) => c.used.goto t (.sending job left)
  | .receivingLength job =>
    if a.res < 0 then c.used.goto t (.leaving job a.res) else c.used.goto t (.receivingReply job)
  | .receivingReply job =>
    if a.res < 0 then c.used.goto t (.leaving job a.res)
    else
      match a.reply.status with
      | .success => c.used.goto t (.leaving job 0)
      | .error => c.used.goto t (.leaving job a.reply.failure)
      | .fatal => c.used.goto t (.closing job a.reply.failure)
  | .closing job res => c.disconnect.goto t (.cancelling job res)
  | .cancelling job res => c.cancelWorker.goto t (.leaving job res)
  | .leaving job res => c.leave t job res
  | .failing error => goto t (.cleaning error) { c with holder := none }
  | .cleaning error => c.disconnect.goto t (.cleaned error)
  | .cleaned _ => c.cancelWorker.goto t .outside

inductive Event
  | start (t : Thread) (job : Job)
  | proceed (t : Thread) (a : OpAnswer)
  deriving DecidableEq, Repr

def step (c : Connection) : Event → Connection
  | .start t job =>
    if c.point t = .outside ∧ c.cancelled t = false then c.goto t (.locking job) else c
  | .proceed t a =>
    if c.cancelled t ∧ (c.point t).cancellation then c.goto t .ended else c.advance t a

end Connection

end Defuse
