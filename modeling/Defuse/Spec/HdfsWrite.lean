import Defuse.Spec.Cluster

/-! `usfs_wrap/hdfs/hdfs_wrap.c`: `hadoop_fuse_do_write`, `hadoop_fuse_write` and
`hadoop_fuse_ftruncate`, with the functions they call. Allocation never fails. -/

namespace Defuse

open CSem

def FuseBuffer.zeros (len : ℕ) : FuseBuffer := ⟨none, len, by simp⟩

def FuseBuffer.ofBytes (bytes : List UInt8) : FuseBuffer := ⟨some bytes, bytes.length, by simp⟩

section Requests

variable (net : Net)

/-- `hadoop_fuse_read`, as the functions below call it. -/
def readInto (size offset : ℕ) (buf : List UInt8) (s : Hdfs) :
    Checked (Except ℤ (List UInt8) × Hdfs) :=
  match net.request (.getBlockLocations offset size)
    (fun s => (some (net.locate s offset size), s)) s with
  | (response, s) => do
    let (res, buf) ← hadoopFuseRead response size offset buf
    return (if res < 0 then .error res else .ok buf, s)

/-- A buffer for bytes of the file that are written back later. -/
def saveBytes (len offset : ℕ) (s : Hdfs) : Checked (Except ℤ FuseBuffer × Hdfs) :=
  if len > 0 then do
    let (r, s) ← readInto net len offset (net.malloc s.log.length len) s
    return (r.map FuseBuffer.ofBytes, s)
  else return (.ok (.zeros 0), s)

/-- The loop of `hadoop_fuse_complete`, for the number of times the answer is false. -/
def completeLoop (fileid : ℕ) (last : Option ExtendedBlock) : ℕ → Hdfs → ℤ × Hdfs
  | 0, s =>
    match net.completeRequest fileid last s with
    | (.error res, s) => (res, s)
    | (.ok _, s) => (0, s)
  | n + 1, s =>
    match net.request (.complete fileid last) (fun s => ((), s)) s with
    | (.error res, s) => (res, s)
    | (.ok _, s) => completeLoop fileid last n s

def hadoopFuseComplete (fileid : ℕ) (last : Option ExtendedBlock) (s : Hdfs) : ℤ × Hdfs :=
  completeLoop net fileid last (net.unready s.log.length) s

/-- `hadoop_fuse_lock`: `last` changes when the answer names a block. -/
def hadoopFuseLock (last : Option ExtendedBlock) (s : Hdfs) :
    Except ℤ (Option ExtendedBlock) × Hdfs :=
  match net.append s with
  | (.error res, s) => (.error res, s)
  | (.ok block, s) => (.ok (block.or last), s)

end Requests

def bytestowrite (pos : BufferPos) (blockoffset blocksize : ℕ) : ℕ :=
  min (asU64 ((blocksize : ℤ) - blockoffset)) (asU64 ((pos.len : ℤ) - pos.bufferoffset))

section DoWrite

variable (net : Net) (nn : NamenodeState)

/-- The loop of `hadoop_fuse_do_write` that adds blocks: `res`, `*last` and the cluster. -/
def doWriteLoop :
    ℕ → ℤ → BufferPos → Option ExtendedBlock → Hdfs → Checked (ℤ × Option ExtendedBlock × Hdfs)
  | 0, _, _, _, _ => .error .stepLimit
  | limit + 1, res, pos, last, s =>
    if pos.bufferoffset < pos.len then
      match net.addBlock last s.fh.fileid s with
      | (.error res, s) => return (res, last, s)
      | (.ok block, s) => do
        let (r, s) ← net.writeBlock nn pos (bytestowrite pos 0 s.fh.blocksize) 0 block block s
        if r.res < 0 then return (r.res, last, (net.abandonBlock r.newblock s).2)
        else doWriteLoop limit r.res r.pos (some r.newblock) s
    else return (res, last, s)

/-- The block that `hadoop_fuse_do_write` writes to before it adds any. -/
def openBlock (lastlocation : Option Located) (offsetintofile blocksize : ℕ) : Option Located :=
  lastlocation.filter fun l =>
    offsetintofile < asU64 (l.offset + blocksize) ∧ l.offset ≤ offsetintofile

/-- `hadoop_fuse_do_write`. A block is added for at least one byte each time. -/
def doWrite (pos : BufferPos) (offsetintofile : ℕ) (lastlocation : Option Located)
    (last : Option ExtendedBlock) (s : Hdfs) : Checked (ℤ × Option ExtendedBlock × Hdfs) :=
  match openBlock lastlocation offsetintofile s.fh.blocksize with
  | none => doWriteLoop net nn (pos.len + 1) 0 pos last s
  | some l =>
    match net.updateBlockForPipeline l.b s with
    | (.error res, s) => return (res, last, s)
    | (.ok newblock, s) => do
      let blockoffset := offsetintofile - l.offset
      let (r, s) ← net.writeBlock nn pos (bytestowrite pos blockoffset s.fh.blocksize) blockoffset
        l.b newblock s
      if r.res < 0 then return (r.res, last, s)
      else
        match net.updatePipeline l.b r.newblock s with
        | (.error res, s) => return (res, last, s)
        | (.ok _, s) => doWriteLoop net nn (pos.len + 1) 0 r.pos (some r.newblock) s

end DoWrite

def Located.blockend (l : Located) : ℕ := l.offset + l.b.numbytes.getD 0

section Truncate

/-- The loop of `hadoop_fuse_ftruncate` over the blocks: `lastkeptblock`, and the block of
which a part is kept. -/
def shrinkScan (newlength : ℕ) : List Located → ℕ → ℕ → ℕ × Option Located
  | [], _, lastkeptblock => (lastkeptblock, none)
  | l :: ls, b, lastkeptblock =>
    if l.blockend ≤ newlength then shrinkScan newlength ls (b + 1) b
    else (lastkeptblock, if l.offset < newlength then some l else none)

variable (net : Net) (nn : NamenodeState)

def abandonBlocks : List Located → Hdfs → ℤ × Hdfs
  | [], s => (0, s)
  | l :: ls, s =>
    match net.abandonBlock l.b s with
    | (.error res, s) => (res, s)
    | (.ok _, s) => abandonBlocks ls s

/-- The blocks behind `lastkeptblock` are dropped: with all of them the file is created
again, under a new number. -/
def dropBlocks (blocks : List Located) (lastkeptblock : ℕ) (s : Hdfs) :
    Except ℤ (Option ExtendedBlock) × Hdfs :=
  if lastkeptblock = blocks.length then
    match net.getFileInfo s with
    | (.error res, s) => (.error res, s)
    | (.ok _, s) =>
      match net.create s with
      | (.error res, s) => (.error res, s)
      | (.ok fileid, s) => (.ok none, { s with fh := { s.fh with fileid := fileid } })
  else
    match hadoopFuseLock net none s with
    | (.error res, s) => (.error res, s)
    | (.ok _, s) =>
      match abandonBlocks net (blocks.drop (lastkeptblock + 1)).reverse s with
      | (res, s) =>
        if res < 0 then (.error res, s)
        else (.ok ((blocks[lastkeptblock]?).map Located.b), s)

/-- `byteskept`, NULL when no block is cut. -/
def readCut (newlength : ℕ) (cut : Option Located) (s : Hdfs) :
    Checked (Except ℤ (Option FuseBuffer) × Hdfs) :=
  match cut with
  | none => return (.ok none, s)
  | some l => do
    let (r, s) ← saveBytes net (newlength - l.offset) l.offset s
    return (r.map some, s)

/-- The kept part of the block that was cut is written to a block of its own. -/
def writeCut (kept : Option FuseBuffer) (bytesoffset : ℕ) (last : Option ExtendedBlock)
    (s : Hdfs) : Checked (ℤ × Option ExtendedBlock × Hdfs) :=
  match kept with
  | none => return (0, last, s)
  | some buffer => doWrite net nn ⟨[buffer], 0, buffer.len⟩ bytesoffset none last s

/-- `hadoop_fuse_ftruncate` to a smaller length. -/
def shrink (located : LocatedFile) (newlength : ℕ) (s : Hdfs) : Checked (ℤ × Hdfs) := do
  let (lastkeptblock, cut) := shrinkScan newlength located.blocks 0 located.blocks.length
  match ← readCut net newlength cut s with
  | (.error res, s) => return (res, s)
  | (.ok kept, s) =>
    match dropBlocks net located.blocks lastkeptblock s with
    | (.error res, s) => return (res, s)
    | (.ok last, s) =>
      let (res, last, s) ← writeCut net nn kept ((cut.map Located.offset).getD 0) last s
      if res < 0 then return (res, s)
      else
        let (res, s) := hadoopFuseComplete net s.fh.fileid last s
        return (if res < 0 then res else 0, s)

end Truncate

/-- What a write has prepared when it takes the lock: the buffers around the data, where
they start in the file, and the blocks that are left before them. -/
structure WritePlan where
  kept : FuseBuffer
  trailing : FuseBuffer
  offsetintofile : ℕ
  nBlocks : ℕ
  last : Option ExtendedBlock

section Write

/-- The loop of `hadoop_fuse_write` over the blocks: `truncateto`, which is not set when
the first block is already the one to rewrite, and that block with its place. -/
def rewriteScan (offsetintofile : ℕ) :
    List Located → ℕ → Option ℕ → Option ℕ × Option (ℕ × Located)
  | [], _, truncateto => (truncateto, none)
  | l :: ls, b, truncateto =>
    if l.blockend < offsetintofile then rewriteScan offsetintofile ls (b + 1) (some l.blockend)
    else (truncateto, some (b, l))

variable (net : Net) (nn : NamenodeState)

def saveAround (located : LocatedFile) (len offsetintofile : ℕ) (s : Hdfs) :
    Checked (Except ℤ (Option ℕ × WritePlan) × Hdfs) := do
  let behind := asU64 (offsetintofile + len)
  match ← saveBytes net (located.filelength - min located.filelength behind) behind s with
  | (.error res, s) => return (.error res, s)
  | (.ok trailing, s) =>
    match rewriteScan offsetintofile located.blocks 0 none with
    | (truncateto, none) =>
      return (.ok (truncateto,
        ⟨.zeros 0, trailing, offsetintofile, located.blocks.length, none⟩), s)
    | (truncateto, some (b, block)) =>
      match ← saveBytes net (offsetintofile - block.offset) block.offset s with
      | (.error res, s) => return (.error res, s)
      | (.ok kept, s) =>
        let last := if b = 0 then none else (located.blocks[b - 1]?).map Located.b
        return (.ok (truncateto, ⟨kept, trailing, offsetintofile - kept.len, b, last⟩), s)

/-- `hadoop_fuse_write` from the lock on. -/
def writeBuffers (located : LocatedFile) (plan : WritePlan) (padding : ℕ) (data : FuseBuffer)
    (s : Hdfs) : Checked (ℤ × Hdfs) :=
  match hadoopFuseLock net plan.last s with
  | (.error res, s) => return (res, s)
  | (.ok last, s) => do
    let buffers := [plan.kept, .zeros padding, data, plan.trailing]
    let pos : BufferPos :=
      ⟨buffers, 0, asU64 (plan.kept.len + padding + data.len + plan.trailing.len)⟩
    let lastlocation := if plan.nBlocks = 0 then none else located.blocks[plan.nBlocks - 1]?
    let (res, last, s) ← doWrite net nn pos plan.offsetintofile lastlocation last s
    let (complete, s) := hadoopFuseComplete net s.fh.fileid last s
    return (if 0 ≤ res ∧ complete < 0 then complete else res, s)

/-- The part of `hadoop_fuse_write` for an offset before the last block. -/
def rewriteBlocks (ftruncate : ℕ → Hdfs → Checked (ℤ × Hdfs)) (located : LocatedFile)
    (padding : ℕ) (data : FuseBuffer) (offsetintofile : ℕ) (s : Hdfs) : Checked (ℤ × Hdfs) := do
  match ← saveAround net located data.len offsetintofile s with
  | (.error res, s) => return (res, s)
  | (.ok (none, _), _) => .error .uninitialised
  | (.ok (some truncateto, plan), s) =>
    let (res, s) ← ftruncate truncateto s
    if res < 0 then return (res, s) else writeBuffers net nn located plan padding data s

/-- `hadoop_fuse_write` behind its first request; the padding is the difference the wrong
way round. -/
def writeLocated (ftruncate : ℕ → Hdfs → Checked (ℤ × Hdfs)) (located : LocatedFile)
    (data : FuseBuffer) (offset : ℕ) (s : Hdfs) : Checked (ℤ × Hdfs) :=
  let padding :=
    if offset > located.filelength then asU64 ((located.filelength : ℤ) - offset) else 0
  let offsetintofile := min offset located.filelength
  let lastblockoffset := (located.blocks.getLast?.map Located.offset).getD 0
  if offsetintofile < lastblockoffset then
    rewriteBlocks net nn ftruncate located padding data offsetintofile s
  else
    writeBuffers net nn located
      ⟨.zeros 0, .zeros 0, offsetintofile, located.blocks.length, none⟩ padding data s

mutual

/-- `hadoop_fuse_write`, with a limit on the depth of its calls. -/
def hadoopFuseWrite : ℕ → FuseBuffer → ℕ → Hdfs → Checked (ℤ × Hdfs)
  | 0, _, _, _ => .error .stepLimit
  | depth + 1, data, offset, s =>
    match net.getBlockLocations s with
    | (.error res, s) => return (res, s)
    | (.ok located, s) => do
      let (res, s) ← writeLocated net nn (hadoopFuseFtruncate depth) located data offset s
      return (if res < 0 then res else asInt data.len, s)

def hadoopFuseFtruncate : ℕ → ℕ → Hdfs → Checked (ℤ × Hdfs)
  | 0, _, _ => .error .stepLimit
  | depth + 1, newlength, s =>
    match net.getBlockLocations s with
    | (.error res, s) => return (res, s)
    | (.ok located, s) =>
      if newlength > located.filelength then do
        let (res, s) ← hadoopFuseWrite depth (.zeros (newlength - located.filelength))
          located.filelength s
        return (if res < 0 then res else 0, s)
      else if newlength = located.filelength then return (0, s)
      else shrink net nn located newlength s

end

end Write

end Defuse
