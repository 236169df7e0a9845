import Defuse.Proofs.SendPackets

/-! `hadoop_rpc_send_packet`: the fields of one packet with CRC32C checksums. -/

namespace Defuse

open CSem

/-- Every send transfers its bytes. Of more than 0x7ffff000 bytes Linux takes only a part, and
the call does not look at how many were taken. -/
structure PacketReply.AllSent (reply : PacketReply) : Prop where
  header : 0 ≤ reply.header
  data : 0 ≤ reply.data

/-- One checksum for each of the chunks that the data consists of. -/
structure ChunkSums (nn : NamenodeState) (data : List UInt8) (sums : List UInt32)
    (pieces : List (List UInt8)) : Prop where
  flatten_eq : pieces.flatten = data
  nonempty : ∀ c ∈ pieces, c ≠ []
  short : ∀ c ∈ pieces, c.length ≤ nn.bytesperchecksum
  full : ∀ c ∈ pieces.dropLast, c.length = nn.bytesperchecksum
  sums_eq : sums = pieces.map nn.crc32c

/-- A packet with the `len` bytes of the buffers at `bufferoffset`. -/
structure SentPacket.Carries (nn : NamenodeState) (seqno : ℕ) (pos : BufferPos)
    (len blockoffset : ℕ) (packet : SentPacket) : Prop where
  packetlen : packet.packetlen = 4 + 4 * (len ⌈/⌉ nn.bytesperchecksum) + len
  seqno : packet.seqno = seqno
  offsetinblock : packet.offsetinblock = blockoffset
  lastpacketinblock : packet.lastpacketinblock = false
  datalen : packet.datalen = len
  data : packet.data = (pos.flat.drop pos.bufferoffset).take len
  checksums : ∃ pieces, ChunkSums nn packet.data packet.checksums pieces

/-- The call sends one packet, the right one, and moves the position by its length. -/
def SendsPacket (nn : NamenodeState) (reply : PacketReply) (seqno : ℕ) (pos : BufferPos)
    (len blockoffset : ℕ) (received : List SentPacket) : Prop :=
  ∃ res pos' packet,
    sendPacket nn reply seqno pos len blockoffset received = .ok (res, pos', received ++ [packet]) ∧
    packet.Carries nn seqno pos len blockoffset ∧
    pos'.buffers = pos.buffers ∧ pos'.bufferoffset = pos.bufferoffset + len

variable {nn : NamenodeState} {reply : PacketReply} {pos : BufferPos} {len : ℕ}

theorem chunkSums_chunks (nn : NamenodeState) (data : List UInt8) :
    ChunkSums nn data ((chunks nn.bytesperchecksum data).map nn.crc32c)
      (chunks nn.bytesperchecksum data) := by
  have hn := nn.bytesperchecksum_pos
  refine ⟨chunks_flatten hn, ?_, ?_, ?_, rfl⟩
  · intro c hc hnil
    have := (length_of_mem_chunks hn hc).1
    rw [hnil, List.length_nil] at this
    omega
  · intro c hc
    exact (length_of_mem_chunks hn hc).2
  · intro c hc
    exact length_of_mem_chunks_dropLast hn hc

theorem roundup_eq {n : ℕ} (hlen : len + n < 2 ^ 32) : roundup (len % 2 ^ 32) n = len ⌈/⌉ n := by
  unfold roundup
  rw [Nat.mod_eq_of_lt (show len < 2 ^ 32 by omega),
    Nat.mod_eq_of_lt (show len + n - 1 < 2 ^ 32 by omega), Nat.ceilDiv_eq_add_pred_div]

theorem checksums_eq {packet : List UInt8} (hlen : packet.length + nn.bytesperchecksum < 2 ^ 32) :
    nn.checksums 4 (roundup (packet.length % 2 ^ 32) nn.bytesperchecksum) packet =
      .ok ((chunks nn.bytesperchecksum packet).map nn.crc32c) := by
  unfold NamenodeState.checksums chunks
  rw [if_pos (by omega), roundup_eq hlen, List.map_map]
  apply mapM_ok
  intro i hi
  apply checksum_eq nn (by omega)
  exact (lt_ceilDiv_iff nn.bytesperchecksum_pos).mp (List.mem_range.mp hi)

section Window

variable (hcrc : nn.checksumtype = .crc32c) (hflat : pos.len = pos.flat.length)
  (hfit : pos.len < 2 ^ 64) (hpos : 0 < len) (hroom : len ≤ pos.len - pos.bufferoffset)
  (hlen : len + nn.bytesperchecksum < 2 ^ 32) (hheader : 0 ≤ reply.header)

include hflat hroom in
theorem window_length : ((pos.flat.drop pos.bufferoffset).take len).length = len := by
  rw [List.length_take, List.length_drop]
  omega

include hcrc hflat hfit hpos hroom hlen hheader

theorem sendPacket_data (seqno blockoffset : ℕ) (received : List SentPacket) :
    sendPacket nn reply seqno pos len blockoffset received =
      if reply.data < 0 then .ok (reply.data, pos, received)
      else .ok (reply.acked seqno, pos.advance len, received ++
        [⟨(4 + len ⌈/⌉ nn.bytesperchecksum * 4 + len) % 2 ^ 32, seqno, blockoffset, false, len,
          (chunks nn.bytesperchecksum ((pos.flat.drop pos.bufferoffset).take len)).map nn.crc32c,
          (pos.flat.drop pos.bufferoffset).take len⟩]) := by
  have hwin := window_length hflat hroom
  have hassemble := assemble_ok (supplies_flat (hflat ▸ hfit)) hpos (show len < 2 ^ 32 by omega)
    (show pos.bufferoffset + len ≤ pos.flat.length by omega)
  have hsums := @checksums_eq nn ((pos.flat.drop pos.bufferoffset).take len)
    (by rw [hwin]; exact hlen)
  rw [hwin] at hsums
  unfold sendPacket
  simp only [hcrc, ChecksumType.checksumlen]
  rw [if_neg (by omega), if_pos hpos, hassemble, ok_bind, hsums, ok_bind, roundup_eq hlen]
  rfl

end Window

/-- With every send succeeding the packet is right, and the position moves behind its bytes. -/
theorem sends_packet (nn : NamenodeState) (reply : PacketReply) (seqno : ℕ) (pos : BufferPos)
    (len blockoffset : ℕ) (received : List SentPacket) (hcrc : nn.checksumtype = .crc32c)
    (hflat : pos.len = pos.flat.length) (hfit : pos.len < 2 ^ 64) (hpos : 0 < len)
    (hroom : len ≤ pos.len - pos.bufferoffset) (hlen : len + nn.bytesperchecksum < 2 ^ 32)
    (hplen : 4 + 4 * (len ⌈/⌉ nn.bytesperchecksum) + len < 2 ^ 32) (hsent : reply.AllSent) :
    SendsPacket nn reply seqno pos len blockoffset received := by
  have hrun := sendPacket_data hcrc hflat hfit hpos hroom hlen hsent.header seqno blockoffset
    received
  rw [if_neg (not_lt.mpr hsent.data)] at hrun
  refine ⟨_, _, _, hrun, ?_, rfl, pos.bufferoffset_advance len (by omega)⟩
  refine ⟨?_, rfl, rfl, rfl, rfl, rfl, _, chunkSums_chunks nn _⟩
  change (4 + len ⌈/⌉ nn.bytesperchecksum * 4 + len) % 2 ^ 32 = _
  rw [Nat.mul_comm, Nat.mod_eq_of_lt hplen]

/-- Chunks of `n` bytes; the checksum is the sum of the bytes. -/
def crcChunks (n : ℕ) (hpos : 0 < n) (hlt : n < 2 ^ 32) : NamenodeState where
  packetsize := 1
  bytesperchecksum := n
  checksumtype := .crc32c
  crc32c := fun bytes => UInt32.ofNat (bytes.map UInt8.toNat).sum
  packetsize_pos := by decide
  packetsize_lt := by decide
  bytesperchecksum_pos := hpos
  bytesperchecksum_lt := hlt

def sentAll (len : ℤ) : PacketReply := ⟨0, len, 0, ⟨0, [true]⟩⟩

def fiveBytes : BufferPos := ⟨[⟨some [1, 2, 3], 3, by simp⟩, ⟨none, 2, by simp⟩], 1, 5⟩

/-- Four bytes across both buffers, in chunks of three. -/
theorem sends_packet_four :
    sendPacket (crcChunks 3 (by decide) (by decide)) (sentAll 4) 0 fiveBytes 4 0 [] =
        .ok (0, fiveBytes.advance 4, [⟨16, 0, 0, false, 4, [5, 0], [2, 3, 0, 0]⟩]) ∧
      SendsPacket (crcChunks 3 (by decide) (by decide)) (sentAll 4) 0 fiveBytes 4 0 [] :=
  ⟨by rfl, sends_packet (crcChunks 3 (by decide) (by decide)) (sentAll 4) 0 fiveBytes 4 0 [] rfl
    (by decide) (by decide) (by decide) (by decide) (by decide) (by decide)
    ⟨by decide, by decide⟩⟩

end Defuse
