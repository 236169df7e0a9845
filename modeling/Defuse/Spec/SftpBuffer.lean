import Defuse.Lib.Cells
import Defuse.Lib.Decoders
import Defuse.Spec.Errno

/-! Of `usfs_wrap/sshfs/sshfs_wrap.c`: the buffers in which SFTP messages are put together and
taken apart. The program aborts when there is no memory; here there always is. -/

namespace Defuse.Sshfs

open CSem

/-- `struct buffer`; `p` is the memory it points to. -/
structure SftpBuffer where
  p : Cells
  len : ℕ
  size : ℕ
  deriving DecidableEq, Repr

def bufInit (size : ℕ) : SftpBuffer := ⟨List.replicate size none, 0, size⟩

def SftpBuffer.filled (bytes : List UInt8) : SftpBuffer := ⟨bytes.map some, 0, bytes.length⟩

def bufResize (buf : SftpBuffer) (len : ℕ) : SftpBuffer :=
  let size := (buf.len + len + 63) % 2 ^ 64 / 32 * 32
  { buf with p := buf.p.resize size, size }

def bufCheckAdd (buf : SftpBuffer) (len : ℕ) : SftpBuffer :=
  if (buf.len + len) % 2 ^ 64 > buf.size then bufResize buf len else buf

def bufAddMem (buf : SftpBuffer) (data : List UInt8) : Checked SftpBuffer := do
  let buf := bufCheckAdd buf data.length
  let p ← buf.p.store buf.len data
  return { buf with p, len := (buf.len + data.length) % 2 ^ 64 }

def bufAddUint8 (buf : SftpBuffer) (val : UInt8) : Checked SftpBuffer := bufAddMem buf [val]

def bufAddUint32 (buf : SftpBuffer) (val : UInt32) : Checked SftpBuffer :=
  bufAddMem buf (beBytes 4 val.toNat)

/-- `buf_check_get` and `buf_get_mem`. -/
def bufGetMem (len : ℕ) : Proc SftpBuffer ℤ (List UInt8) := fun buf =>
  if (buf.len + len) % 2 ^ 64 > buf.size then .ok (.error (-1), buf)
  else do
    let data ← buf.p.load buf.len len
    return (.ok data, { buf with len := (buf.len + len) % 2 ^ 64 })

def bufGetUint8 : Proc SftpBuffer ℤ UInt8 := do
  let val ← bufGetMem 1
  return UInt8.ofNat (beNat val)

def bufGetUint32 : Proc SftpBuffer ℤ UInt32 := do
  let nval ← bufGetMem 4
  return UInt32.ofNat (beNat nval)

def bufGetUint64 : Proc SftpBuffer ℤ UInt64 := do
  let val1 ← bufGetUint32
  let val2 ← bufGetUint32
  return (val1.toUInt64 <<< 32) + val2.toUInt64

/-- `buf_get_data`. The size of the new allocation is computed in 32 bits. -/
def bufGetData : Proc SftpBuffer ℤ SftpBuffer := do
  let len ← bufGetUint32
  let left ← Proc.read fun buf : SftpBuffer => (buf.size + 2 ^ 64 - buf.len) % 2 ^ 64
  if len.toNat > left then Proc.fail (-1)
  else
    let bytes ← bufGetMem len.toNat
    match (bufInit (len + 1).toNat).p.store 0 bytes with
    | .ok p => return { p, len := 0, size := len.toNat }
    | .error fault => Proc.stop fault

/-- `buf_get_string`, with the memory that `*str` points to. -/
def bufGetString : Proc SftpBuffer ℤ Cells := do
  let data ← bufGetData
  match data.p.store data.size [0] with
  | .ok p => return p
  | .error fault => Proc.stop fault

def SSH_FILEXFER_ATTR_SIZE : UInt32 := 0x00000001
def SSH_FILEXFER_ATTR_UIDGID : UInt32 := 0x00000002
def SSH_FILEXFER_ATTR_PERMISSIONS : UInt32 := 0x00000004
def SSH_FILEXFER_ATTR_ACMODTIME : UInt32 := 0x00000008
def SSH_FILEXFER_ATTR_EXTENDED : UInt32 := 0x80000000

/-- The variables of `buf_get_attrs`. -/
structure SftpAttrs where
  flags : UInt32
  size : UInt64
  uid : UInt32
  gid : UInt32
  mode : UInt32
  atime : UInt32
  mtime : UInt32
  deriving DecidableEq, Repr

def defaultMode : UInt32 := 0o100777

def bufGetPair : Proc SftpBuffer ℤ (UInt32 × UInt32) := do
  let val1 ← bufGetUint32
  let val2 ← bufGetUint32
  return (val1, val2)

/-- The name and the value of an extension, which are freed at once. -/
def skipExtension : Proc SftpBuffer ℤ Unit := do
  let _ ← bufGetData
  let _ ← bufGetData
  return ()

def skipExtensions : Proc SftpBuffer ℤ Unit := do
  let extcount ← bufGetUint32
  let _ ← times skipExtension extcount.toNat
  return ()

/-- The part of `buf_get_attrs` that reads. -/
def bufGetFields : Proc SftpBuffer ℤ SftpAttrs := do
  let flags ← bufGetUint32
  let size ← readIf (flags &&& SSH_FILEXFER_ATTR_SIZE ≠ 0) bufGetUint64 0
  let ids ← readIf (flags &&& SSH_FILEXFER_ATTR_UIDGID ≠ 0) bufGetPair (0, 0)
  let mode ← readIf (flags &&& SSH_FILEXFER_ATTR_PERMISSIONS ≠ 0) bufGetUint32 defaultMode
  let acmod ← readIf (flags &&& SSH_FILEXFER_ATTR_ACMODTIME ≠ 0) bufGetPair (0, 0)
  readIf (flags &&& SSH_FILEXFER_ATTR_EXTENDED ≠ 0) skipExtensions ()
  return ⟨flags, size, ids.1, ids.2, mode, acmod.1, acmod.2⟩

inductive Nomap
  | ignore
  | error
  deriving DecidableEq, Repr

inductive Idmap
  | none
  | user
  | file
  deriving DecidableEq, Repr

/-- The fields of `struct sshfs` that `buf_get_attrs` and `buf_get_entries` use. A hash table is
the partial function that it stores. -/
structure SftpIds where
  remoteUidDetected : Bool
  remoteUid : UInt32
  localUid : UInt32
  remoteGid : UInt32
  localGid : UInt32
  idmap : Idmap
  uidMap : Option (UInt32 → Option UInt32)
  gidMap : Option (UInt32 → Option UInt32)
  nomap : Nomap
  blksize : UInt32
  followSymlinks : Bool

/-- What `usfs_init` leaves in these fields when `IDMAP_DEFAULT` is `"none"`. -/
def SftpIds.mounted : SftpIds where
  remoteUidDetected := false
  remoteUid := 0
  localUid := 0
  remoteGid := 0
  localGid := 0
  idmap := .none
  uidMap := none
  gidMap := none
  nomap := .error
  blksize := 4096
  followSymlinks := false

/-- `translate_id`; `none` is -1. -/
def translateId (nomap : Nomap) (map : UInt32 → Option UInt32) (id : UInt32) : Option UInt32 :=
  match map id, nomap with
  | some id', _ => some id'
  | none, .error => none
  | none, .ignore => some id

/-- The fields of `struct stat` that `buf_get_attrs` sets; the others are zero. -/
structure SftpStat where
  stMode : UInt32
  stNlink : ℕ
  stSize : Int64
  stBlksize : UInt32
  stBlocks : UInt64
  stUid : UInt32
  stGid : UInt32
  stAtime : UInt32
  stMtime : UInt32
  stCtime : UInt32
  deriving DecidableEq

def SftpIds.localIds (ids : SftpIds) (uid gid : UInt32) : Option (UInt32 × UInt32) := do
  let uid := if ids.remoteUidDetected ∧ uid = ids.remoteUid then ids.localUid else uid
  let gid := if ids.remoteUidDetected ∧ gid = ids.remoteGid then ids.localGid else gid
  let uid ← match ids.idmap, ids.uidMap with
    | .file, some map => translateId ids.nomap map uid
    | _, _ => some uid
  let gid ← match ids.idmap, ids.gidMap with
    | .file, some map => translateId ids.nomap map gid
    | _, _ => some gid
  return (uid, gid)

/-- What `buf_get_attrs` puts into `stbuf`. -/
def SftpIds.stat (ids : SftpIds) (attrs : SftpAttrs) (uid gid : UInt32) : SftpStat where
  stMode := attrs.mode
  stNlink := 1
  stSize := attrs.size.toInt64
  stBlksize := ids.blksize
  stBlocks :=
    if ids.blksize ≠ 0 then
      ((attrs.size + ids.blksize.toUInt64 - 1) &&& ~~~(ids.blksize.toUInt64 - 1)) >>> 9
    else 0
  stUid := uid
  stGid := gid
  stAtime := attrs.atime
  stMtime := attrs.mtime
  stCtime := attrs.mtime

/-- `buf_get_attrs`, with `*flagsp`. -/
def bufGetAttrs (ids : SftpIds) : Proc SftpBuffer ℤ (SftpStat × UInt32) := do
  let attrs ← orFail bufGetFields (- EIO)
  match ids.localIds attrs.uid attrs.gid with
  | none => Proc.fail (-EPERM)
  | some (uid, gid) => return (ids.stat attrs uid gid, attrs.flags)

def S_IFMT : UInt32 := 0o170000
def S_IFLNK : UInt32 := 0o120000

/-- A call of `filler`: the name and the stat. -/
structure Filled where
  name : List UInt8
  stat : SftpStat
  deriving DecidableEq

/-- What one round of the loop of `buf_get_entries` gives to `filler`. -/
def bufGetEntry (ids : SftpIds) : Proc SftpBuffer ℤ Filled := do
  let name ← orFail bufGetString (- EIO)
  let _ ← bufGetString
  let (stat, _) ← bufGetAttrs ids
  let stat := if ids.followSymlinks ∧ stat.stMode &&& S_IFMT = S_IFLNK
    then { stat with stMode := 0 } else stat
  match name.text with
  | .ok name => return { name, stat }
  | .error fault => Proc.stop fault

/-- The loop of `buf_get_entries`: its result and the calls of `filler`. -/
def entriesLoop (ids : SftpIds) : ℕ → SftpBuffer → Checked (ℤ × List Filled × SftpBuffer)
  | 0, buf => .ok (0, [], buf)
  | n + 1, buf => do
    match ← bufGetEntry ids buf with
    | (.error err, buf) => return (err, [], buf)
    | (.ok filled, buf) =>
      let (err, more, buf) ← entriesLoop ids n buf
      return (err, filled :: more, buf)

def bufGetEntries (ids : SftpIds) (buf : SftpBuffer) : Checked (ℤ × List Filled × SftpBuffer) := do
  match ← bufGetUint32 buf with
  | (.error _, buf) => return (- EIO, [], buf)
  | (.ok count, buf) => entriesLoop ids count.toNat buf

end Defuse.Sshfs
