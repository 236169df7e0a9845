import Defuse.Spec.HdfsRead
import Defuse.Spec.HdfsSend

/-! The cluster behind `usfs_wrap/hdfs`: a file as the name node and the data nodes hold it,
and what the requests of the client do to it. Which requests fail, and how the data nodes
behave, is given as data. -/

namespace Defuse

open CSem

/-- A block of the file: what the name node has recorded of it, and the bytes its data
nodes hold. -/
structure StoredBlock where
  blockid : ℕ
  generationstamp : ℕ
  numbytes : ℕ
  bytes : List UInt8
  deriving DecidableEq, Repr

def StoredBlock.extended (b : StoredBlock) : ExtendedBlock :=
  ⟨b.blockid, b.generationstamp, some b.numbytes⟩

/-- The messages to the name node, with the fields the client fills in, and the transfers
to data nodes. -/
inductive Request
  | getBlockLocations (offset length : ℕ)
  | getFileInfo
  | create
  | append
  | updateBlockForPipeline (block : ExtendedBlock)
  | updatePipeline (oldblock newblock : ExtendedBlock)
  | addBlock (previous : Option ExtendedBlock) (fileid : ℕ)
  | abandonBlock (b : ExtendedBlock)
  | complete (fileid : ℕ) (last : Option ExtendedBlock)
  | writeBlock (block newblock : ExtendedBlock) (blockoffset len : ℕ)
  deriving DecidableEq, Repr

structure FileHandle where
  fileid : ℕ
  blocksize : ℕ
  deriving DecidableEq, Repr

/-- The file, with its number and block size at the name node, the handle it is open through
and the requests made so far. `fresh` has not been used as the number of a block, a file or
a generation. -/
structure Hdfs where
  blocks : List StoredBlock
  underconstruction : Bool
  fileid : ℕ
  blocksize : ℕ
  fresh : ℕ
  fh : FileHandle
  log : List Request
  deriving DecidableEq, Repr

/-- How the servers behave, by the number of the request, and what `malloc` returns. A
name node that is not ready yet answers `complete` with false. -/
structure Net where
  fails : ℕ → Option Failure
  unready : ℕ → ℕ
  readLocs : ℕ → ℕ → List Location
  writeLocs : ℕ → List (WriteOp → WriteReply)
  malloc : ℕ → ℕ → List UInt8
  malloc_length : ∀ k n, (malloc k n).length = n

namespace Hdfs

def content (s : Hdfs) : List UInt8 := s.blocks.flatMap fun b => b.bytes.take b.numbytes

def filelength (s : Hdfs) : ℕ := (s.blocks.map StoredBlock.numbytes).sum

def logged (s : Hdfs) (req : Request) : Hdfs := { s with log := s.log ++ [req] }

end Hdfs

def placeBlocks : ℕ → List StoredBlock → List (ℕ × StoredBlock)
  | _, [] => []
  | start, b :: bs => (start, b) :: placeBlocks (start + b.numbytes) bs

def Hdfs.inRange (s : Hdfs) (offset length : ℕ) : List (ℕ × StoredBlock) :=
  (placeBlocks 0 s.blocks).filter fun pb =>
    max pb.1 offset < min (pb.1 + pb.2.numbytes) (offset + length)

def updateBlock (id : ℕ) (f : StoredBlock → StoredBlock) (blocks : List StoredBlock) :
    List StoredBlock := blocks.map fun b => if b.blockid = id then f b else b

def StoredBlock.commit (b : ExtendedBlock) (x : StoredBlock) : StoredBlock :=
  { x with generationstamp := b.generationstamp, numbytes := b.numbytes.getD x.numbytes }

def Hdfs.commit (s : Hdfs) : Option ExtendedBlock → Hdfs
  | none => s
  | some b => { s with blocks := updateBlock b.blockid (StoredBlock.commit b) s.blocks }

structure Located where
  offset : ℕ
  b : ExtendedBlock
  deriving DecidableEq, Repr

structure LocatedFile where
  filelength : ℕ
  blocks : List Located
  deriving DecidableEq, Repr

namespace Net

variable (net : Net)

/-- A request is logged, and fails or has its effect. -/
def request {α : Type} (req : Request) (effect : Hdfs → α × Hdfs) (s : Hdfs) :
    Except ℤ α × Hdfs :=
  match net.fails s.log.length with
  | some e => (.error e, s.logged req)
  | none => (.ok (effect (s.logged req)).1, (effect (s.logged req)).2)

def locate (s : Hdfs) (offset length : ℕ) : LocatedBlocks :=
  ⟨s.underconstruction, (s.inRange offset length).mapIdx fun i pb =>
    ⟨pb.1, pb.2.numbytes, false,
      (net.readLocs s.log.length i).map fun l => l.reply pb.2.bytes⟩⟩

def getBlockLocations : Hdfs → Except ℤ LocatedFile × Hdfs :=
  net.request (.getBlockLocations 0 (2 ^ 63 - 1)) fun s =>
    (⟨s.filelength, (s.inRange 0 (2 ^ 63 - 1)).map fun pb => ⟨pb.1, pb.2.extended⟩⟩, s)

/-- The file is put under construction; its last block is returned unless it is full. -/
def append : Hdfs → Except ℤ (Option ExtendedBlock) × Hdfs :=
  net.request .append fun s =>
    ((s.blocks.getLast?.filter fun b => b.numbytes < s.blocksize).map StoredBlock.extended,
      { s with underconstruction := true })

def getFileInfo : Hdfs → Except ℤ Unit × Hdfs := net.request .getFileInfo fun s => ((), s)

/-- `create` with the flag `OVERWRITE`: an empty file with a number of its own. -/
def create : Hdfs → Except ℤ ℕ × Hdfs :=
  net.request .create fun s =>
    (s.fresh, { s with blocks := [], underconstruction := true, fileid := s.fresh,
                       fresh := s.fresh + 1 })

def updateBlockForPipeline (b : ExtendedBlock) : Hdfs → Except ℤ ExtendedBlock × Hdfs :=
  net.request (.updateBlockForPipeline b) fun s =>
    ({ b with generationstamp := s.fresh }, { s with fresh := s.fresh + 1 })

def updatePipeline (oldblock newblock : ExtendedBlock) : Hdfs → Except ℤ Unit × Hdfs :=
  net.request (.updatePipeline oldblock newblock) fun s =>
    ((), { s with blocks := updateBlock oldblock.blockid (StoredBlock.commit newblock) s.blocks })

/-- The previous block is committed and an empty one is added behind it. -/
def addBlock (previous : Option ExtendedBlock) (fileid : ℕ) :
    Hdfs → Except ℤ ExtendedBlock × Hdfs :=
  net.request (.addBlock previous fileid) fun s =>
    (⟨s.fresh, s.fresh, some 0⟩,
      { s.commit previous with
        blocks := (s.commit previous).blocks ++ [⟨s.fresh, s.fresh, 0, []⟩]
        fresh := s.fresh + 1 })

def abandonBlock (b : ExtendedBlock) : Hdfs → Except ℤ Unit × Hdfs :=
  net.request (.abandonBlock b) fun s =>
    ((), { s with blocks := s.blocks.filter fun x => x.blockid ≠ b.blockid })

def completeRequest (fileid : ℕ) (last : Option ExtendedBlock) : Hdfs → Except ℤ Unit × Hdfs :=
  net.request (.complete fileid last) fun s =>
    ((), { s.commit last with underconstruction := false })

/-- The transfer to the data nodes of a block, which then hold what any of them received: a node
that fails keeps the packets it has taken, and the pipeline behind it has them too. -/
def writeBlock (nn : NamenodeState) (pos : BufferPos) (len blockoffset : ℕ)
    (block newblock : ExtendedBlock) (s : Hdfs) : Checked (BlockWritten × Hdfs) := do
  let locs := net.writeLocs s.log.length
  let r ← Defuse.writeBlock nn pos len blockoffset block newblock locs
  let replies :=
    writeReplies block newblock (max (newblock.numbytes.getD 0) (blockoffset + len)) locs
  let packets ← deliveredPackets nn len blockoffset replies pos
  let placed := fun x : StoredBlock => { x with bytes := packets.foldl SentPacket.place x.bytes }
  let s := s.logged (.writeBlock block newblock blockoffset len)
  return (r, { s with blocks := updateBlock block.blockid placed s.blocks })

end Net

end Defuse
