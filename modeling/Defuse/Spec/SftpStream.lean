import Defuse.Spec.SftpBuffer

/-! Of `usfs_wrap/sshfs/sshfs_wrap.c`: what is read from the connection to the SFTP server. -/

namespace Defuse.Sshfs

open CSem

/-- The fields of `struct sshfs` that the version reply of a server sets. -/
structure Features where
  extPosixRename : Bool := false
  renameWorkaround : Bool := false
  extStatvfs : Bool := false
  extHardlink : Bool := false
  extFsync : Bool := false
  deriving DecidableEq, Repr

/-- A connection: what it delivers until it ends or fails, in the pieces that `read` sees. The
other end has disconnected where a piece is empty. -/
structure SftpConn where
  incoming : List (List UInt8)
  features : Features := {}
  deriving DecidableEq, Repr

/-- The loop of `do_read` for `size` bytes: a `read` returns at most what is left to read, and
bytes of one piece only. -/
def readLoop : List (List UInt8) → ℕ → Except ℤ (List UInt8) × List (List UInt8)
  | incoming, 0 => (.ok [], incoming)
  | [], _ + 1 => (.error (-1), [])
  | [] :: incoming, _ + 1 => (.error (-1), incoming)
  | piece :: incoming, size + 1 =>
    if size + 1 < piece.length then (.ok (piece.take (size + 1)), piece.drop (size + 1) :: incoming)
    else
      let (res, incoming) := readLoop incoming (size + 1 - piece.length)
      (res.map (piece ++ ·), incoming)

/-- `do_read` into a buffer of `size` bytes, with what it puts there. -/
def doRead (size : ℕ) : Proc SftpConn ℤ (List UInt8) := fun conn =>
  let (res, incoming) := readLoop conn.incoming size
  .ok (res, { conn with incoming })

def within {α : Type} (get : Proc SftpBuffer ℤ α) (buf : SftpBuffer) :
    Proc SftpConn ℤ (α × SftpBuffer) := fun conn =>
  (get buf).map fun r => (r.1.map fun a => (a, r.2), conn)

def MAX_REPLY_LEN : UInt32 := 1 <<< (17 : UInt32)

/-- `sftp_read`: the type and the reply. -/
def sftpRead : Proc SftpConn ℤ (UInt8 × SftpBuffer) := do
  let head ← doRead 5
  let (len, buf2) ← within bufGetUint32 (.filled head)
  if len > MAX_REPLY_LEN then Proc.fail (-1)
  else
    let (type, _) ← within bufGetUint8 buf2
    let bytes ← doRead (len - 1).toNat
    return (type, .filled bytes)

def SSH_FXP_VERSION : UInt8 := 2

def SFTP_EXT_POSIX_RENAME : List UInt8 := "posix-rename@openssh.com".toUTF8.toList
def SFTP_EXT_STATVFS : List UInt8 := "statvfs@openssh.com".toUTF8.toList
def SFTP_EXT_HARDLINK : List UInt8 := "hardlink@openssh.com".toUTF8.toList
def SFTP_EXT_FSYNC : List UInt8 := "fsync@openssh.com".toUTF8.toList

/-- What `sftp_init_reply_ok` notes of an extension and its data. -/
def Features.note (features : Features) (ext extdata : List UInt8) : Features :=
  let features := if ext = SFTP_EXT_POSIX_RENAME ∧ extdata = [0x31] then
    { features with extPosixRename := true, renameWorkaround := false } else features
  let features := if ext = SFTP_EXT_STATVFS ∧ extdata = [0x32] then
    { features with extStatvfs := true } else features
  let features := if ext = SFTP_EXT_HARDLINK ∧ extdata = [0x31] then
    { features with extHardlink := true } else features
  if ext = SFTP_EXT_FSYNC ∧ extdata = [0x31] then { features with extFsync := true } else features

def asText {σ : Type} (str : Cells) : Proc σ ℤ (List UInt8) :=
  match str.text with
  | .ok s => pure s
  | .error fault => Proc.stop fault

/-- The loop of `sftp_init_reply_ok` over the extensions in `buf2`, of at most `limit` rounds. -/
def extensionLoop : ℕ → SftpBuffer → Proc SftpConn ℤ Unit
  | 0, _ => Proc.stop .stepLimit
  | limit + 1, buf2 => do
    let (ext, buf2) ← within bufGetString buf2
    let (extdata, buf2) ← within bufGetString buf2
    let ext ← asText ext
    let extdata ← asText extdata
    Proc.update fun conn : SftpConn => { conn with features := conn.features.note ext extdata }
    if buf2.len < buf2.size then extensionLoop limit buf2 else return ()

/-- `sftp_init_reply_ok`. It returns 0 with a version, 1 when there is none in the buffer, and -1
when the reply breaks off. -/
def sftpInitReplyOk (buf : SftpBuffer) : Proc SftpConn ℤ (Option UInt32) := do
  let (len, buf) ← within bufGetUint32 buf
  if len < 5 ∨ len > MAX_REPLY_LEN then return none
  else
    let (type, buf) ← within bufGetUint8 buf
    if type ≠ SSH_FXP_VERSION then return none
    else
      let (version, _) ← within bufGetUint32 buf
      if len > 5 then do
        let buf2 ← doRead (len - 5).toNat
        extensionLoop buf2.length (.filled buf2)
        return some version
      else return some version

/-- The loop of `sftp_find_init_reply`: the nine bytes in `buf` are moved on by one until they
begin the version reply. It has at most `limit` rounds. -/
def findLoop : ℕ → List UInt8 → Proc SftpConn ℤ UInt32
  | 0, _ => Proc.stop .stepLimit
  | limit + 1, buf => do
    match ← sftpInitReplyOk (.filled buf) with
    | some version => return version
    | none =>
      let byte ← doRead 1
      findLoop limit (buf.drop 1 ++ byte)

/-- `sftp_find_init_reply`: a round for every byte that can still come, and one more. -/
def sftpFindInitReply : Proc SftpConn ℤ UInt32 := do
  let buf ← doRead 9
  let limit ← Proc.read fun conn : SftpConn => conn.incoming.flatten.length + 1
  findLoop limit buf

end Defuse.Sshfs
