import Defuse.Spec.SftpRequests

/-! Of `usfs_wrap/sshfs/sshfs_wrap.c`: listing a directory. What becomes of the requests, in the
order in which they are sent, is a parameter. -/

namespace Defuse.Sshfs

open CSem

def READDIR_START : ℕ := 2
def READDIR_MAX : ℕ := 32

/-- `sftp_request_wait` for a request of type `SSH_FXP_READDIR`. -/
def readdirWait : Outcome → Checked (ℤ × Option (List UInt8))
  | .unsent | .lost => .ok (- EIO, none)
  | .reply type reply => replyResult SSH_FXP_READDIR SSH_FXP_NAME type reply

/-- `buf_get_entries` on what `sftp_request_wait` has put into `name`: the result and the calls of
`filler`. -/
def fillEntries (ids : SftpIds) : Option (List UInt8) → Checked (ℤ × List Filled)
  | none => .error .uninitialised
  | some name => do
    let (err, filled, _) ← bufGetEntries ids (.filled name)
    return (err, filled)

section Readdir

variable (ids : SftpIds) (outcome : ℕ → Outcome)

/-- The loop of `sftp_readdir_sync` from request `i` on, of at most `limit` rounds: the result and
the calls of `filler`. -/
def syncLoop : ℕ → ℕ → Checked (ℤ × List Filled)
  | 0, _ => .error .stepLimit
  | limit + 1, i => do
    let (err, name) ← readdirWait (outcome i)
    if err ≠ 0 then return (if err = MY_EOF then 0 else err, [])
    else
      let (err, filled) ← fillEntries ids name
      if err ≠ 0 then return (if err = MY_EOF then 0 else err, filled)
      else
        let (err, more) ← syncLoop limit (i + 1)
        return (err, filled ++ more)

def sftpReaddirSync (limit : ℕ) : Checked (ℤ × List Filled) := syncLoop ids outcome limit 0

/-- The variables of `sftp_readdir_async`, the number of requests that have been sent, and what has
become of those that are no longer in `list`: it waited for the reply, or gave it up. -/
structure Readdir where
  list : List ℕ := []
  outstanding : ℕ := 0
  max : ℕ := READDIR_START
  done : Bool := false
  err : ℤ := 0
  filled : List Filled := []
  sent : ℕ := 0
  waited : List ℕ := []
  dropped : List ℕ := []

def Readdir.append (s : Readdir) : Readdir :=
  { s with list := s.list ++ [s.sent], outstanding := s.outstanding + 1, sent := s.sent + 1 }

/-- The inner loop, of at most `limit` rounds. -/
def sendRequests : ℕ → Readdir → Checked Readdir
  | 0, s => if s.done = false ∧ s.outstanding < s.max then .error .stepLimit else .ok s
  | limit + 1, s =>
    if s.done = false ∧ s.outstanding < s.max then
      if outcome s.sent = .unsent then .ok { s with err := - EIO, done := true }
      else sendRequests limit s.append
    else .ok s

def Readdir.takeReply (s : Readdir) (outcome : Outcome) : Checked Readdir := do
  let (tmperr, name) ← readdirWait outcome
  if s.done then return s
  else if tmperr ≠ 0 then return { s with err := if tmperr = MY_EOF then 0 else tmperr, done := true }
  else
    let (err, filled) ← fillEntries ids name
    return { s with
      err
      filled := s.filled ++ filled
      max := if s.max < READDIR_MAX then s.max + 1 else s.max
      done := err ≠ 0 }

/-- The part of a round behind the inner loop. `pending` tells whether the reply to a request is
still awaited when `sshfs_req_pending` looks. -/
def Readdir.next (pending : ℕ → Bool) (s : Readdir) : Checked Readdir :=
  if s.outstanding = 0 then .ok s
  else
    match s.list with
    | [] => .error .nullDeref
    | req :: list =>
      let s := { s with list, outstanding := s.outstanding - 1 }
      if s.done ∧ pending req then .ok { s with dropped := s.dropped ++ [req] }
      else Readdir.takeReply ids { s with waited := s.waited ++ [req] } (outcome req)

/-- The outer loop, of at most `limit` rounds. -/
def asyncLoop (pending : ℕ → Bool) : ℕ → Readdir → Checked Readdir
  | 0, s => if s.done ∧ s.outstanding = 0 then .ok s else .error .stepLimit
  | limit + 1, s =>
    if s.done ∧ s.outstanding = 0 then .ok s
    else do
      let s ← sendRequests outcome s.max s
      let s ← s.next ids outcome pending
      asyncLoop pending limit s

/-- `sftp_readdir_async`, with its variables at the end. -/
def sftpReaddirAsync (pending : ℕ → Bool) (limit : ℕ) : Checked Readdir :=
  asyncLoop ids outcome pending limit {}

end Readdir

end Defuse.Sshfs
