import Defuse.Lib.Overlay
import Defuse.Lib.Words
import Defuse.Spec.Errno

/-! `usfs_wrap/hdfs`: `hadoop_rpc_send_packet`, `hadoop_rpc_send_packets` and
`hadoop_fuse_write_block`. What the data nodes answer is given to the functions as data. -/

namespace Defuse

open CSem

/-- `struct Hadoop_Fuse_Buffer`; a buffer without data stands for zeros. -/
structure FuseBuffer where
  data : Option (List UInt8)
  len : ℕ
  full : ∀ bytes ∈ data, bytes.length = len

def FuseBuffer.bytes (b : FuseBuffer) : List UInt8 := b.data.getD (List.replicate b.len 0)

@[simp] theorem FuseBuffer.bytes_length (b : FuseBuffer) : b.bytes.length = b.len := by
  unfold FuseBuffer.bytes
  cases h : b.data with
  | none => simp
  | some bytes => simpa using b.full bytes h

/-- `struct Hadoop_Fuse_Buffer_Pos`; `n_buffers` is the length of the list, at most 255. -/
structure BufferPos where
  buffers : List FuseBuffer
  bufferoffset : ℕ
  len : ℕ

def BufferPos.flat (pos : BufferPos) : List UInt8 := pos.buffers.flatMap FuseBuffer.bytes

def BufferPos.advance (pos : BufferPos) (n : ℕ) : BufferPos :=
  { pos with bufferoffset := asU64 (pos.bufferoffset + n) }

inductive ChecksumType
  | null
  | crc32
  | crc32c
  deriving DecidableEq, Repr

/-- `checksumlen`; CRC32 is not implemented. -/
def ChecksumType.checksumlen : ChecksumType → Option ℕ
  | .null => some 0
  | .crc32 => none
  | .crc32c => some 4

/-- The server defaults in `struct namenode_state`, and the function `crc32c`. -/
structure NamenodeState where
  packetsize : ℕ
  bytesperchecksum : ℕ
  checksumtype : ChecksumType
  crc32c : List UInt8 → UInt32
  packetsize_pos : 0 < packetsize
  packetsize_lt : packetsize < 2 ^ 32
  bytesperchecksum_pos : 0 < bytesperchecksum
  bytesperchecksum_lt : bytesperchecksum < 2 ^ 32

/-- A packet as the data node receives it: `PacketHeaderProto`, checksums and data. -/
structure SentPacket where
  packetlen : ℕ
  seqno : ℕ
  offsetinblock : ℕ
  lastpacketinblock : Bool
  datalen : ℕ
  checksums : List UInt32
  data : List UInt8
  deriving DecidableEq, Repr

def SentPacket.place (stored : List UInt8) (packet : SentPacket) : List UInt8 :=
  overlay stored packet.offsetinblock packet.data

/-- `PipelineAckProto`; a status is a success (`SUCCESS`, `CHECKSUM_OK`) or not. -/
structure PipelineAck where
  seqno : ℤ
  status : List Bool
  deriving DecidableEq, Repr

/-- The results of the socket calls made for a packet: the first that failed, or the last,
of those up to the header; of those for the checksums and the data; and of the receipt
of the acknowledgement. -/
structure PacketReply where
  header : ℤ
  data : ℤ
  receive : ℤ
  ack : PipelineAck
  deriving DecidableEq, Repr

def PacketReply.acked (reply : PacketReply) (seqno : ℕ) : ℤ :=
  if reply.receive < 0 then reply.receive
  else if reply.ack.seqno ≠ seqno then -EPROTO
  else if reply.ack.status = [] then -EPROTO
  else if reply.ack.status.all id then 0
  else -EINVAL

/-- The loop that assembles `packet`, from NULL. In the first branch the packet lies in a
single buffer and the loop is left; otherwise the copied piece follows the earlier ones. -/
def assembleLoop (bufferoffset len : ℕ) :
    List FuseBuffer → ℕ → ℕ → Option (List UInt8) → Option (List UInt8)
  | [], _, _, packet => packet
  | buffer :: buffers, idx, written, packet =>
    if written < len then
      if asU64 (idx + buffer.len) > bufferoffset then
        let offset := if idx > bufferoffset then 0 else bufferoffset - idx
        let towrite := min (len - written) (asU64 ((buffer.len : ℤ) - offset))
        let piece := (buffer.bytes.drop offset).take towrite
        if towrite = len then some piece
        else if towrite > 0 then
          assembleLoop bufferoffset len buffers (asU64 (idx + buffer.len)) (written + towrite)
            (some (packet.getD [] ++ piece))
        else assembleLoop bufferoffset len buffers (asU64 (idx + buffer.len)) written packet
      else assembleLoop bufferoffset len buffers (asU64 (idx + buffer.len)) written packet
    else packet

def assemble (pos : BufferPos) (len : ℕ) : Checked (List UInt8) :=
  match assembleLoop pos.bufferoffset len pos.buffers 0 0 none with
  | none => .error .nullDeref
  | some packet => if packet.length < len then .error .uninitialised else .ok packet

def roundup (num multiple : ℕ) : ℕ := (num + multiple - 1) % 2 ^ 32 / multiple

/-- The checksum of chunk `i` of the packet. -/
def NamenodeState.checksum (nn : NamenodeState) (packet : List UInt8) (i : ℕ) : Checked UInt32 :=
  let packetidx : ℕ := i * nn.bytesperchecksum % 2 ^ 32
  let n := min nn.bytesperchecksum (asU64 ((packet.length : ℤ) - packetidx))
  if packetidx + n ≤ packet.length then .ok (nn.crc32c ((packet.drop packetidx).take n))
  else .error .outOfBounds

def NamenodeState.checksums (nn : NamenodeState) (checksumlen nChecksums : ℕ)
    (packet : List UInt8) : Checked (List UInt32) :=
  if checksumlen > 0 then (List.range nChecksums).mapM (nn.checksum packet) else return []

/-- `hadoop_rpc_send_packet`, with the packets the data node has received. -/
def sendPacket (nn : NamenodeState) (reply : PacketReply) (seqno : ℕ) (pos : BufferPos)
    (len blockoffset : ℕ) (received : List SentPacket) :
    Checked (ℤ × BufferPos × List SentPacket) :=
  match nn.checksumtype.checksumlen with
  | none => return (-ENOSYS, pos, received)
  | some checksumlen =>
    let nChecksums := roundup (len % 2 ^ 32) nn.bytesperchecksum
    let packetlen := (4 + nChecksums * checksumlen + len) % 2 ^ 32
    if reply.header < 0 then return (reply.header, pos, received)
    else if len > 0 then do
      let packet ← assemble pos len
      let checksums ← nn.checksums checksumlen nChecksums packet
      if reply.data < 0 then return (reply.data, pos, received)
      else
        return (reply.acked seqno, pos.advance len,
          received ++ [⟨packetlen, seqno, blockoffset, false, len, checksums, packet⟩])
    else
      return (reply.acked seqno, pos,
        received ++ [⟨packetlen, seqno, blockoffset, true, len, [], []⟩])

/-- The length of the packet that follows `bytessent` bytes. -/
def NamenodeState.packetlen (nn : NamenodeState) (len blockoffset bytessent : ℕ) : ℕ :=
  let packetlen := min (asU64 ((len : ℤ) - bytessent)) nn.packetsize
  let bytespastboundary := (blockoffset + bytessent) % nn.bytesperchecksum
  if packetlen > 0 ∧ bytespastboundary ≠ 0 then nn.bytesperchecksum - bytespastboundary
  else packetlen

/-- The loop of `hadoop_rpc_send_packets`, with a step limit. -/
def sendPacketsLoop (nn : NamenodeState) (replies : ℕ → PacketReply)
    (initialbufferoffset len blockoffset : ℕ) :
    ℕ → ℕ → BufferPos → List SentPacket → Checked (ℤ × BufferPos × List SentPacket)
  | 0, _, _, _ => .error .stepLimit
  | limit + 1, seqno, pos, received => do
    let bytessent := asU64 ((pos.bufferoffset : ℤ) - initialbufferoffset)
    let packetlen := nn.packetlen len blockoffset bytessent
    let (res, pos, received) ←
      sendPacket nn (replies seqno) seqno pos packetlen (blockoffset + bytessent) received
    if res < 0 then return (res, pos, received)
    else if packetlen = 0 then return (0, pos, received)
    else
      sendPacketsLoop nn replies initialbufferoffset len blockoffset limit (seqno + 1) pos received

/-- `hadoop_rpc_send_packets`. Every packet but the last takes data from the buffers, which
bounds the number of steps. -/
def sendPackets (nn : NamenodeState) (replies : ℕ → PacketReply) (pos : BufferPos)
    (len blockoffset : ℕ) : Checked (ℤ × BufferPos × List SentPacket) :=
  sendPacketsLoop nn replies pos.bufferoffset len blockoffset
    (pos.flat.length - pos.bufferoffset + 2) 0 pos []

/-- `ExtendedBlockProto`. -/
structure ExtendedBlock where
  blockid : ℕ
  generationstamp : ℕ
  numbytes : Option ℕ
  deriving DecidableEq, Repr

inductive Stage
  | pipelineSetupCreate
  | pipelineSetupAppend
  deriving DecidableEq, Repr

/-- `OpWriteBlockProto`; the targets are places in the block's locations. -/
structure WriteOp where
  block : ExtendedBlock
  stage : Stage
  latestgenerationstamp : ℕ
  minbytesrcvd : ℕ
  maxbytesrcvd : ℕ
  targets : List ℕ
  deriving DecidableEq, Repr

structure WriteReply where
  connect : ℤ
  call : ℤ
  packets : ℕ → PacketReply

/-- The request to the location in place `l` of `n`. -/
def writeOp (block newblock : ExtendedBlock) (newblocklen n l : ℕ) : WriteOp where
  block := block
  stage :=
    if newblock.generationstamp = block.generationstamp then .pipelineSetupCreate
    else .pipelineSetupAppend
  latestgenerationstamp := newblock.generationstamp
  minbytesrcvd := newblock.numbytes.getD 0
  maxbytesrcvd := newblocklen
  targets := (List.range n).filter (· ≠ l)

def writeReplies (block newblock : ExtendedBlock) (newblocklen : ℕ)
    (locs : List (WriteOp → WriteReply)) : List WriteReply :=
  locs.mapIdx fun l location => location (writeOp block newblock newblocklen locs.length l)

/-- The loop over the locations: `res`, and what the location received that was written. -/
def writeLocations (nn : NamenodeState) (len blockoffset : ℕ) :
    List WriteReply → ℤ → BufferPos → Checked (ℤ × BufferPos × Option (List SentPacket))
  | [], res, pos => return (res, pos, none)
  | reply :: replies, _, pos =>
    if reply.connect < 0 then writeLocations nn len blockoffset replies reply.connect pos
    else if reply.call = 0 then do
      let (res, pos, received) ← sendPackets nn reply.packets pos len blockoffset
      if res = 0 then return (res, pos, some received)
      else writeLocations nn len blockoffset replies res pos
    else writeLocations nn len blockoffset replies reply.call pos

/-- What the locations have received in that loop, also those that failed later. -/
def deliveredPackets (nn : NamenodeState) (len blockoffset : ℕ) :
    List WriteReply → BufferPos → Checked (List SentPacket)
  | [], _ => return []
  | reply :: replies, pos =>
    if reply.connect < 0 ∨ reply.call ≠ 0 then deliveredPackets nn len blockoffset replies pos
    else do
      let (res, pos, received) ← sendPackets nn reply.packets pos len blockoffset
      if res = 0 then return received
      else return received ++ (← deliveredPackets nn len blockoffset replies pos)

/-- What `hadoop_fuse_write_block` leaves: its result, the position, the new block and what
the location received that was written. -/
structure BlockWritten where
  res : ℤ
  pos : BufferPos
  newblock : ExtendedBlock
  received : Option (List SentPacket)

/-- `hadoop_fuse_write_block`. Without locations the result is never set. -/
def writeBlock (nn : NamenodeState) (pos : BufferPos) (len blockoffset : ℕ)
    (block newblock : ExtendedBlock) (locs : List (WriteOp → WriteReply)) :
    Checked BlockWritten :=
  let newblocklen := max (newblock.numbytes.getD 0) (blockoffset + len)
  let replies := writeReplies block newblock newblocklen locs
  if locs = [] then .error .uninitialised
  else do
    let (res, pos, received) ← writeLocations nn len blockoffset replies 0 pos
    match received with
    | some received =>
      return ⟨asInt len, pos, { newblock with numbytes := some newblocklen }, some received⟩
    | none => return ⟨if res < 0 then res else - EIO, pos, newblock, none⟩

end Defuse
