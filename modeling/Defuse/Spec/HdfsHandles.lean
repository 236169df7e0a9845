import Defuse.Spec.HdfsWrite
import Defuse.Spec.Util
import Mathlib.Logic.Function.Basic

/-! `usfs_wrap/hdfs/hdfs_wrap.c`: `usfs_open` and the calls on a handle or a path. A handle is
the address of a `struct Hadoop_Fuse_FileHandle`, as an integer. The functions behind the calls
get a pointer to that integer, or NULL, and take it for a pointer to the structure: what they
find as `fileid` is the handle itself, and as `blocksize` the word of the stack behind it. -/

namespace Defuse

open CSem

/-- A path, with its NUL shorter than `PATH_MAX`. -/
abbrev HdfsPath := { p : List UInt8 // p.length < PATH_MAX }

structure NameFile where
  blocks : List StoredBlock
  underconstruction : Bool
  fileid : ℕ
  blocksize : ℕ
  deriving DecidableEq, Repr

structure HandleRecord where
  fh : FileHandle
  filePath : HdfsPath
  deriving DecidableEq, Repr

/-- A message as it was sent: the number the file had then, the block size recorded when the
file was opened, and the one the function had. -/
structure SentRequest where
  fileid : ℕ
  recorded : ℕ
  blocksize : ℕ
  request : Request
  deriving DecidableEq, Repr

/-- The namespace, the block size for new files, the allocated structures by address and the
messages sent so far. -/
structure Client where
  files : HdfsPath → Option NameFile
  fresh : ℕ
  blocksize : ℕ
  records : ℕ → Option HandleRecord
  sent : List SentRequest

/-- What ends the process: a structure is looked for where there is none, or another fault. -/
inductive Stop
  | badHandle
  | fault (e : Fault)
  deriving DecidableEq, Repr

structure OpenFlags where
  creat : Bool
  excl : Bool
  trunc : Bool
  deriving DecidableEq, Repr

/-- The number of the file, the next one that is unused, and the one that `fi` points to. -/
structure Ids where
  file : ℕ
  fresh : ℕ
  handle : ℕ
  deriving DecidableEq, Repr

def Hdfs.ids (s : Hdfs) : Ids := ⟨s.fileid, s.fresh, s.fh.fileid⟩

def Request.renumber : Request → Ids → Ids
  | .create, ids => ⟨ids.fresh, ids.fresh + 1, ids.fresh⟩
  | .updateBlockForPipeline _, ids => { ids with fresh := ids.fresh + 1 }
  | .addBlock _ _, ids => { ids with fresh := ids.fresh + 1 }
  | _, ids => ids

def Net.renumber (net : Net) (n : ℕ) (req : Request) (ids : Ids) : Ids :=
  match net.fails n with
  | some _ => ids
  | none => req.renumber ids

def Net.stamped (net : Net) : ℕ → Ids → List Request → List (Ids × Request)
  | _, _, [] => []
  | n, ids, req :: reqs => (ids, req) :: net.stamped (n + 1) (net.renumber n req ids) reqs

namespace Client

/-- One file, as the functions that work on it see it; `fh` is what `fi` points to. -/
def view (c : Client) (file : NameFile) (fh : FileHandle) : Hdfs where
  blocks := file.blocks
  underconstruction := file.underconstruction
  fileid := file.fileid
  blocksize := file.blocksize
  fresh := c.fresh
  fh := fh
  log := c.sent.map SentRequest.request

/-- The file at a path after a call that found `s` and left `s'`. -/
def after (net : Net) (path : HdfsPath) (recorded : ℕ) (s s' : Hdfs) (c : Client) : Client :=
  { c with
    files := Function.update c.files path
      (some ⟨s'.blocks, s'.underconstruction, s'.fileid, s'.blocksize⟩)
    fresh := s'.fresh
    sent := c.sent ++ (net.stamped s.log.length s.ids (s'.log.drop s.log.length)).map fun e =>
      ⟨e.1.file, recorded, s.fh.blocksize, e.2⟩ }

/-- A structure from `calloc`, with the fields that `hadoop_fuse_open` sets. -/
def allocated (addr : ℕ) (fh : FileHandle) (c : Client) : Client :=
  { c with
    records := Function.update c.records addr (some ⟨fh, ⟨[], show 0 < PATH_MAX by decide⟩⟩) }

def asked (path : HdfsPath) (req : Request) (c : Client) : Client :=
  { c with sent := c.sent ++ [⟨((c.files path).map NameFile.fileid).getD 0, 0, 0, req⟩] }

end Client

namespace HdfsClient

variable (net : Net) (nn : NamenodeState) (refusal : Failure) (depth : ℕ)

/-- `hadoop_fuse_write` or `hadoop_fuse_ftruncate` on a path: a missing file shows in the answer
to their first request. What `fi` points to afterwards is the second part of the result. -/
def onPath (path : HdfsPath) (fh : FileHandle) (recorded : ℕ)
    (call : Hdfs → Except Stop (ℤ × Hdfs)) (c : Client) : Except Stop (ℤ × ℕ × Client) :=
  match c.files path with
  | none =>
    let res := match net.fails c.sent.length with
      | some e => e
      | none => - ENOENT
    return (res, fh.fileid, c.asked path (.getBlockLocations 0 (2 ^ 63 - 1)))
  | some file => do
    let (res, s) ← call (c.view file fh)
    return (res, s.fh.fileid, c.after net path recorded (c.view file fh) s)

/-- `hadoop_fuse_createemptyfile`. `refusal` is what becomes of the answer for a path that
exists. -/
def hadoopFuseCreateemptyfile (path : HdfsPath) (c : Client) : Except ℤ ℕ × Client :=
  match net.fails c.sent.length, c.files path with
  | some e, _ => (.error e, c.asked path .create)
  | none, some _ => (.error refusal, c.asked path .create)
  | none, none =>
    let file : NameFile := ⟨[], true, c.fresh, c.blocksize⟩
    let c := { c.asked path .create with
      files := Function.update c.files path (some file)
      fresh := c.fresh + 1 }
    -- the number is in the answer, not behind a handle
    let s := c.view file ⟨file.fileid, 0⟩
    let (res, s') := hadoopFuseComplete net file.fileid none s
    (if res < 0 then .error res else .ok file.fileid, c.after net path 0 s s')

/-- `hadoop_fuse_open` from the allocation on, which returns `addr`. -/
def openRecord (path : HdfsPath) (flags : OpenFlags) (addr word fileid blocksize : ℕ)
    (c : Client) : Except Stop (Except ℤ ℕ × Client) := do
  let c := c.allocated addr ⟨fileid, blocksize⟩
  if flags.trunc then
    let (res, fi, c) ← onPath net path ⟨addr, word⟩ blocksize
      (fun s => (hadoopFuseFtruncate net nn depth 0 s).mapError .fault) c
    return (if res < 0 then .error res else .ok fi, c)
  else return (.ok addr, c)

/-- `hadoop_fuse_open`: an error, or what `fi` points to. -/
def hadoopFuseOpen (path : HdfsPath) (flags : OpenFlags) (addr word : ℕ) (c : Client) :
    Except Stop (Except ℤ ℕ × Client) :=
  let answered := c.asked path .getFileInfo
  match net.fails c.sent.length with
  | some e => return (.error e, answered)
  | none =>
    match c.files path with
    | some file =>
      if flags.excl then return (.error (- EEXIST), answered)
      else
        let blocksize := if file.blocksize ≠ 0 then file.blocksize else c.blocksize
        openRecord net nn depth path flags addr word file.fileid blocksize answered
    | none =>
      if flags.creat then
        match hadoopFuseCreateemptyfile net refusal path answered with
        | (.error res, c) => return (.error res, c)
        | (.ok fileid, c) => openRecord net nn depth path flags addr word fileid c.blocksize c
      else return (.error (- ENOENT), answered)

/-- `usfs_open`: an error number, or the handle. -/
def usfsOpen (path : HdfsPath) (flags : OpenFlags) (addr word : ℕ) (c : Client) :
    Except Stop (Except ℤ ℕ × Client) := do
  let (made, c) :=
    if flags.creat then hadoopFuseCreateemptyfile net refusal path c else (.ok 0, c)
  match made with
  | .error rc => return (.error (- rc), c)
  | .ok _ =>
    match ← hadoopFuseOpen net nn refusal depth path flags addr word c with
    | (.error rc, c) => return (.error (- rc), c)
    | (.ok fi, c) =>
      match c.records fi with
      | none => .error .badHandle
      | some fh =>
        let fh := { fh with filePath := path }
        return (.ok fi, { c with records := Function.update c.records fi (some fh) })

/-- `usfs_write`: an error number, or `*bytes_written`. -/
def usfsWrite (fhi : ℕ) (data : FuseBuffer) (offset word : ℕ) (c : Client) :
    Except Stop (Except ℤ ℤ × Client) :=
  match c.records fhi with
  | none => .error .badHandle
  | some fh => do
    let (rc, _, c) ← onPath net fh.filePath ⟨fhi, word⟩ fh.fh.blocksize
      (fun s => (hadoopFuseWrite net nn depth data offset s).mapError .fault) c
    return (if rc < 0 then .error (- rc) else .ok rc, c)

def usfsFtruncate (fhi length word : ℕ) (c : Client) : Except Stop (ℤ × Client) :=
  match c.records fhi with
  | none => .error .badHandle
  | some fh => do
    let (rc, _, c) ← onPath net fh.filePath ⟨fhi, word⟩ fh.fh.blocksize
      (fun s => (hadoopFuseFtruncate net nn depth length s).mapError .fault) c
    return (- rc, c)

/-- `hadoop_fuse_ftruncate` with NULL, up to the first use of the handle. The zeros that make a
file longer go to its end, behind every block. -/
def hadoopFuseTruncate (newlength : ℕ) (s : Hdfs) : Except Stop (ℤ × Hdfs) :=
  match net.getBlockLocations s with
  | (.error res, s) => return (res, s)
  | (.ok located, s) =>
    if newlength > located.filelength then
      match net.getBlockLocations s with
      | (.error res, s) => return (res, s)
      | (.ok _, s) =>
        match hadoopFuseLock net none s with
        | (.error res, s) => return (res, s)
        | (.ok _, _) => .error .badHandle
    else if newlength = located.filelength then return (0, s)
    else do
      let (lastkeptblock, cut) := shrinkScan newlength located.blocks 0 located.blocks.length
      match ← (readCut net newlength cut s).mapError Stop.fault with
      | (.error res, s) => return (res, s)
      | (.ok _, s) =>
        match dropBlocks net located.blocks lastkeptblock s with
        | (.error res, s) => return (res, s)
        | (.ok _, _) => .error .badHandle

def usfsTruncate (path : HdfsPath) (length : ℕ) (c : Client) : Except Stop (ℤ × Client) := do
  let (rc, _, c) ← onPath net path ⟨0, 0⟩ 0 (hadoopFuseTruncate net length) c
  return (- rc, c)

/-- `usfs_close`, which leaves the structure allocated. -/
def usfsClose (_retFh : ℕ) (c : Client) : ℤ × Client := (0, c)

/-- The calls, with what the process finds at run time: the address `calloc` returns, and the
word behind the integer that `fi` points to. -/
inductive HdfsCall
  | openFile (path : HdfsPath) (flags : OpenFlags) (addr word : ℕ)
  | write (fhi : ℕ) (data : FuseBuffer) (offset word : ℕ)
  | ftruncate (fhi length word : ℕ)
  | truncate (path : HdfsPath) (length : ℕ)
  | close (fhi : ℕ)

def HdfsCall.exec (c : Client) : HdfsCall → Except Stop Client
  | .openFile path flags addr word =>
    (usfsOpen net nn refusal depth path flags addr word c).map Prod.snd
  | .write fhi data offset word => (usfsWrite net nn depth fhi data offset word c).map Prod.snd
  | .ftruncate fhi length word => (usfsFtruncate net nn depth fhi length word c).map Prod.snd
  | .truncate path length => (usfsTruncate net path length c).map Prod.snd
  | .close fhi => .ok (usfsClose fhi c).2

end HdfsClient

end Defuse
