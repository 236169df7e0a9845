import Defuse.Lib.Buffer
import Defuse.Spec.Errno

/-! `usfs_wrap/hdfs`: `hadoop_rpc_receive_packets` and `hadoop_fuse_read`. What the name
node and the data nodes answer is given to the functions as data. -/

namespace Defuse

open CSem

/-- A packet of a block's data, sent without checksums. -/
structure Packet where
  data : List UInt8
  lastPacketInBlock : Bool
  deriving DecidableEq, Repr

/-- What a connection delivers: packets, and then the result of the next call on the
socket, a receive or the final acknowledgement. -/
structure Stream where
  packets : List Packet
  res : ℤ
  deriving DecidableEq, Repr

/-- The loop over `skipbytes`; skipped data lands in the destination as well. -/
def skipLoop (dst len : ℕ) :
    ℕ → List UInt8 → ℕ → List UInt8 → Checked (List UInt8 × ℕ × List UInt8)
  | 0, _, _, _ => .error .stepLimit
  | limit + 1, available, skipbytes, buf =>
    if skipbytes > 0 ∧ available.length > 0 then do
      let skipped := min (min available.length skipbytes) len
      let buf ← storeAt buf dst (available.take skipped)
      skipLoop dst len limit (available.drop skipped) (skipbytes - skipped) buf
    else return (available, skipbytes, buf)

/-- The `if(available > 0)` of the loop: what is left of the packet, as far as it fits. -/
def receiveAvailable (dst len : ℕ) (available buf : List UInt8) : Checked (List UInt8) :=
  if available.length > 0 then storeAt buf dst (available.take (min available.length len))
  else return buf

def acknowledged (res : ℤ) (buf : List UInt8) : ℤ × List UInt8 := (if res < 0 then res else 0, buf)

/-- The loop of `hadoop_rpc_receive_packets`, `more` being set. A connection that ends
where a packet should start leaves the header length unset. -/
def receiveLoop (res : ℤ) :
    List Packet → ℕ → ℕ → ℕ → List UInt8 → Checked (ℤ × List UInt8)
  | [], _, len, _, buf =>
    if len > 0 then if res < 0 then return (res, buf) else .error .uninitialised
    else return acknowledged res buf
  | p :: ps, skipbytes, len, dst, buf =>
    if len > 0 then do
      let (available, skipbytes, buf) ← skipLoop dst len (p.data.length + 1) p.data skipbytes buf
      let read := min available.length len
      let buf ← receiveAvailable dst len available buf
      if p.lastPacketInBlock then return acknowledged res buf
      else receiveLoop res ps skipbytes (len - read) (dst + read) buf
    else return acknowledged res buf

def receivePackets (s : Stream) (skipbytes len : ℕ) (buf : List UInt8) :
    Checked (ℤ × List UInt8) := receiveLoop s.res s.packets skipbytes len 0 buf

/-- The range asked for in `OpReadBlockProto`. -/
structure ReadOp where
  offset : ℕ
  len : ℕ
  deriving DecidableEq, Repr

structure DatanodeReply where
  connect : ℤ
  call : ℤ
  chunkoffset : Option ℕ
  stream : Stream
  deriving DecidableEq, Repr

/-- `LocatedBlockProto`; a location answers every request. -/
structure LocatedBlock where
  offset : ℕ
  numbytes : ℕ
  corrupt : Bool
  locs : List (ReadOp → DatanodeReply)

structure LocatedBlocks where
  underconstruction : Bool
  blocks : List LocatedBlock

/-- `skipbytes`, for the `chunkoffset` of the answer's `readopchecksuminfo`. -/
def ReadOp.skipbytes (op : ReadOp) : Option ℕ → ℕ
  | some chunkoffset => asU64 ((op.offset : ℤ) - chunkoffset)
  | none => 0

/-- The loop over the locations of a block: whether it was read, `res` and `buf`. -/
def readLocations (op : ReadOp) :
    List (ReadOp → DatanodeReply) → ℤ → List UInt8 → Checked (Bool × ℤ × List UInt8)
  | [], res, buf => return (false, res, buf)
  | location :: locs, _, buf =>
    let reply := location op
    if reply.connect < 0 then readLocations op locs reply.connect buf
    else if reply.call < 0 then readLocations op locs reply.call buf
    else do
      let (res, buf) ← receivePackets reply.stream (op.skipbytes reply.chunkoffset) op.len buf
      if res < 0 then readLocations op locs res buf else return (true, res, buf)

/-- The request for a block; `min` is unsigned, so that the offset is always zero. -/
def readOp (size offset : ℕ) (block : LocatedBlock) : ReadOp :=
  let opOffset := min (asU64 ((offset : ℤ) - block.offset)) 0
  ⟨opOffset, min (asU64 ((block.numbytes : ℤ) - opOffset)) size⟩

/-- The loop over the blocks. The error of a corrupt block is overwritten later. -/
def readBlocks (size offset : ℕ) :
    List LocatedBlock → ℤ → List UInt8 → Checked (ℤ × List UInt8)
  | [], _, buf => return (asInt size, buf)
  | block :: blocks, res, buf =>
    if block.corrupt then readBlocks size offset blocks (-EBADMSG) buf
    else do
      let (read, res, buf) ← readLocations (readOp size offset block) block.locs res buf
      if read then readBlocks size offset blocks res buf
      else return (if res < 0 then res else - EIO, buf)

/-- `hadoop_fuse_read`, for the answer to `getBlockLocations`: an error, no locations, or
the located blocks. -/
def hadoopFuseRead (response : Except ℤ (Option LocatedBlocks)) (size offset : ℕ)
    (buf : List UInt8) : Checked (ℤ × List UInt8) :=
  match response with
  | .error res => return (res, buf)
  | .ok none => return (-ENOENT, buf)
  | .ok (some locations) =>
    if locations.underconstruction then return (-EAGAIN, buf)
    else readBlocks size offset locations.blocks 0 buf

abbrev Failure := { e : ℤ // e < 0 }

/-- How the data node of a location behaves. A serving node sends its data from the start
of a checksum chunk on, when it uses chunks, in packets of any sizes. -/
inductive Location
  | connectFails (e : Failure)
  | refused (e : Failure)
  | breaks (chunkoffset : Option ℕ) (packets : List Packet) (e : Failure)
  | serves (chunk : Option ℕ) (cuts : List ℕ)

def Location.serving : Location → Bool
  | .serves _ _ => true
  | _ => false

def cutPackets : List ℕ → List UInt8 → List Packet
  | [], bytes => [⟨bytes, true⟩]
  | n :: cuts, bytes => ⟨bytes.take n, false⟩ :: cutPackets cuts (bytes.drop n)

/-- The answers of a location that holds `bytes`. -/
def Location.reply (bytes : List UInt8) (l : Location) (op : ReadOp) : DatanodeReply :=
  match l with
  | .connectFails e => ⟨e, 0, none, ⟨[], 0⟩⟩
  | .refused e => ⟨0, e, none, ⟨[], 0⟩⟩
  | .breaks chunkoffset packets e => ⟨0, 0, chunkoffset, ⟨packets, e⟩⟩
  | .serves none cuts =>
    ⟨0, 0, none, ⟨cutPackets cuts ((bytes.take (op.offset + op.len)).drop op.offset), 0⟩⟩
  | .serves (some chunk) cuts =>
    ⟨0, 0, some (op.offset / chunk * chunk),
      ⟨cutPackets cuts ((bytes.take (op.offset + op.len)).drop (op.offset / chunk * chunk)), 0⟩⟩

end Defuse
