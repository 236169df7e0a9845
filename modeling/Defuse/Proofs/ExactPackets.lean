import Defuse.Proofs.WriteRetry

/-! The packets of `hadoop_rpc_send_packets` when all of them are acknowledged: which bytes
they carry, in which order and in which lengths. -/

namespace Defuse

open CSem

variable {nn : NamenodeState} {seqno off : ℕ} {bytes : List UInt8} {packets : List SentPacket}

theorem PacketsOf.split (h : PacketsOf nn seqno off bytes packets) :
    ∃ sent last, packets = sent ++ [last] ∧ last.data = [] ∧ last.lastpacketinblock = true ∧
      ∀ packet ∈ sent, packet.data ≠ [] ∧ packet.lastpacketinblock = false := by
  induction h with
  | @last packet _ _ _ _ hlast hdata => exact ⟨[], packet, rfl, hdata, hlast, by simp⟩
  | @piece packet _ _ _ _ _ _ hlast _ hpos _ ih =>
    obtain ⟨sent, last, rfl, hdata, hend, hsent⟩ := ih
    refine ⟨packet :: sent, last, rfl, hdata, hend, List.forall_mem_cons.mpr ⟨⟨?_, hlast⟩, hsent⟩⟩
    exact List.ne_nil_of_length_pos hpos

/-- A packet lies in the chunk it starts in, unless it starts on the grid. -/
def SentPacket.InChunk (nn : NamenodeState) (packet : SentPacket) : Prop :=
  packet.offsetinblock % nn.bytesperchecksum ≠ 0 →
    packet.offsetinblock % nn.bytesperchecksum + packet.data.length ≤ nn.bytesperchecksum

/-- Numbers and offsets count on from those of the first packet. -/
theorem PacketsOf.get (h : PacketsOf nn seqno off bytes packets) {k : ℕ} {packet : SentPacket}
    (hk : packets[k]? = some packet) :
    packet.seqno = seqno + k ∧
      packet.offsetinblock = off + ((packets.take k).flatMap SentPacket.data).length ∧
      packet.InChunk nn := by
  induction h generalizing k with
  | @last only seqno off hseqno hoffset _ hdata =>
    obtain ⟨rfl, rfl⟩ : k = 0 ∧ only = packet := by
      cases k with
      | zero => exact ⟨rfl, Option.some.inj hk⟩
      | succ k => simp at hk
    refine ⟨hseqno, hoffset, fun _ => ?_⟩
    have hlt := Nat.mod_lt only.offsetinblock nn.bytesperchecksum_pos
    rw [hdata, List.length_nil]
    omega
  | @piece first rest seqno off bytes hseqno hoffset _ hlen hpos _ ih =>
    cases k with
    | zero =>
      obtain rfl : first = packet := Option.some.inj hk
      refine ⟨hseqno, hoffset, fun hgrid => ?_⟩
      have hlt := Nat.mod_lt first.offsetinblock nn.bytesperchecksum_pos
      have hb : first.data.length = boundary nn.bytesperchecksum first.offsetinblock := by
        rw [hlen, hoffset]
        refine if_pos ⟨?_, hoffset ▸ hgrid⟩
        rw [List.length_append]
        omega
      unfold boundary at hb
      omega
    | succ k =>
      obtain ⟨hs, ho, hin⟩ := ih (k := k) hk
      refine ⟨by omega, ?_, hin⟩
      rw [List.take_succ_cons, List.flatMap_cons, List.length_append]
      omega

theorem PacketsOf.fit_iff (h : PacketsOf nn seqno off bytes packets) :
    (∀ packet ∈ packets, packet.data.length ≤ nn.packetsize) ↔
      PiecesFit nn.packetsize nn.bytesperchecksum off bytes.length := by
  induction h with
  | last _ _ _ hdata =>
    refine ⟨fun _ => ⟨fun _ h0 => absurd h0 (by simp), fun _ h0 => absurd h0 (by simp)⟩,
      fun _ packet hp => ?_⟩
    rw [List.mem_singleton.mp hp, hdata]
    exact Nat.zero_le _
  | @piece packet _ _ off bytes _ _ _ hlen hpos _ ih =>
    have hleft : 0 < (packet.data ++ bytes).length := by
      rw [List.length_append]
      omega
    rw [List.forall_mem_cons, ih, piecesFit_step nn.bytesperchecksum_pos hleft, ← hlen,
      List.length_append, Nat.add_sub_cancel_left]

def Acknowledged (replies : ℕ → PacketReply) : Prop :=
  ∀ seqno, 0 ≤ (replies seqno).header ∧ 0 ≤ (replies seqno).data ∧
    (replies seqno).acked seqno = 0

theorem Acknowledged.allAcked {replies : ℕ → PacketReply} (h : Acknowledged replies)
    (n seqno : ℕ) : AllAcked replies n seqno := by
  induction n generalizing seqno with
  | zero => exact ⟨(h seqno).1, (h seqno).2.2⟩
  | succ n ih => exact ⟨(h seqno).1, (h seqno).2.1, (h seqno).2.2, ih (seqno + 1)⟩

/-- The transfer ends, and its packets carry the bytes at the position in non-empty pieces
of at most a packet's size, with their numbers and offsets, and an empty packet behind
them. -/
def SentExactly (nn : NamenodeState) (replies : ℕ → PacketReply) (pos : BufferPos)
    (len blockoffset : ℕ) : Prop :=
  ∃ pos' sent last,
    sendPackets nn replies pos len blockoffset = .ok (0, pos', sent ++ [last]) ∧
    sent.flatMap SentPacket.data = (pos.flat.drop pos.bufferoffset).take len ∧
    last.data = [] ∧ last.lastpacketinblock = true ∧
    (∀ packet ∈ sent, packet.data ≠ [] ∧ packet.lastpacketinblock = false ∧
      packet.data.length ≤ nn.packetsize) ∧
    ∀ k packet, (sent ++ [last])[k]? = some packet → packet.seqno = k ∧
      packet.offsetinblock = blockoffset + ((sent.take k).flatMap SentPacket.data).length ∧
      packet.InChunk nn

/-- Chunks of four bytes, one a packet. -/
def fourBytePackets : NamenodeState where
  packetsize := 4
  bytesperchecksum := 4
  checksumtype := .null
  crc32c := fun _ => 0
  packetsize_pos := by decide
  packetsize_lt := by decide
  bytesperchecksum_pos := by decide
  bytesperchecksum_lt := by decide

def acknowledging : ℕ → PacketReply := fun seqno => ⟨0, 0, 0, ⟨seqno, [true]⟩⟩

theorem acknowledging_acknowledged : Acknowledged acknowledging := by
  intro seqno
  refine ⟨le_rfl, le_rfl, ?_⟩
  simp [acknowledging, PacketReply.acked]

/-- The bytes asked for are what is sent exactly when the checksum type is implemented, the
pieces do not go past the end, and none is longer than a packet may be. -/
theorem sent_exactly_iff (nn : NamenodeState) (replies : ℕ → PacketReply) (pos : BufferPos)
    (len blockoffset : ℕ) (hacked : Acknowledged replies) (hflat : pos.len = pos.flat.length)
    (hfit : pos.len < 2 ^ 64) (hoff : pos.bufferoffset ≤ pos.len)
    (hlen : len ≤ pos.len - pos.bufferoffset) :
    SentExactly nn replies pos len blockoffset ↔
      nn.Supported ∧ Tiles nn.packetsize nn.bytesperchecksum blockoffset len ∧
        PiecesFit nn.packetsize nn.bytesperchecksum blockoffset len := by
  have hd := supplies_flat (hflat ▸ hfit)
  have hwin : ((pos.flat.drop pos.bufferoffset).take len).length = len := by
    rw [List.length_take, List.length_drop]
    omega
  have hrun : nn.Supported → Tiles nn.packetsize nn.bytesperchecksum blockoffset len →
      ∃ packets, sendPackets nn replies pos len blockoffset = .ok (0, pos.advance len, packets) ∧
        PacketsOf nn 0 blockoffset ((pos.flat.drop pos.bufferoffset).take len) packets :=
    fun hsup htiles =>
      sendPackets_complete hsup hd (by omega) le_rfl htiles (hacked.allAcked _ 0)
  refine ⟨?_, ?_⟩
  · rintro ⟨pos', sent, last, hsend, -, hdata, -, hsent, -⟩
    obtain ⟨-, hneg | ⟨-, -, hsup, htiles, -⟩⟩ := sendPackets_inv (by omega) hd (by omega) hsend
    · omega
    -- the packets are those of the tiling, so their lengths are known
    obtain ⟨packets, hsend', hpackets⟩ := hrun hsup htiles
    rw [hsend'] at hsend
    obtain rfl := (Prod.mk.inj (Prod.mk.inj (Except.ok.inj hsend)).2).2
    refine ⟨hsup, htiles, ?_⟩
    rw [← hwin]
    refine hpackets.fit_iff.mp fun packet hp => ?_
    rcases List.mem_append.mp hp with hp | hp
    · exact (hsent packet hp).2.2
    · rw [List.mem_singleton.mp hp, hdata]
      exact Nat.zero_le _
  · rintro ⟨hsup, htiles, hfits⟩
    obtain ⟨packets, hsend, hpackets⟩ := hrun hsup htiles
    obtain ⟨sent, last, rfl, hdata, hlast, hsent⟩ := hpackets.split
    have hshort := hpackets.fit_iff.mpr (by rw [hwin]; exact hfits)
    have hflat := hpackets.flatMap_data
    rw [List.flatMap_append, List.flatMap_singleton, hdata, List.append_nil] at hflat
    refine ⟨_, sent, last, hsend, hflat, hdata, hlast, fun packet hp => ?_,
      fun k packet hk => ?_⟩
    · exact ⟨(hsent packet hp).1, (hsent packet hp).2, hshort packet (List.mem_append_left _ hp)⟩
    · obtain ⟨hseqno, hoffset, hin⟩ := hpackets.get hk
      have hle : k ≤ sent.length := by
        have := (List.getElem?_eq_some_iff.mp hk).1
        rw [List.length_append, List.length_singleton] at this
        omega
      rw [List.take_append_of_le_length hle] at hoffset
      exact ⟨by omega, hoffset, hin⟩

/-- Seven bytes from offset 1 on: three up to the boundary, then four. -/
theorem sent_exactly_boundary :
    7 ≤ eightBytes.len - eightBytes.bufferoffset ∧
      SentExactly fourBytePackets acknowledging eightBytes 7 1 :=
  ⟨by decide, (sent_exactly_iff fourBytePackets acknowledging eightBytes 7 1
    acknowledging_acknowledged (by decide) (by decide) (by decide) (by decide)).mpr (by decide)⟩

/-- One byte at offset 1: three are sent, up to the boundary, and the loop goes on until
the buffers have no more. -/
theorem sent_inexactly_one_byte :
    (sendPackets fourBytePackets acknowledging eightBytes 1 1).map (fun r => r.2.2) =
        .error .uninitialised ∧
      ¬ SentExactly fourBytePackets acknowledging eightBytes 1 1 := by
  have hrun : (sendPackets fourBytePackets acknowledging eightBytes 1 1).map (fun r => r.2.2) =
      .error .uninitialised := by decide +kernel
  refine ⟨hrun, ?_⟩
  rintro ⟨pos', sent, last, hsend, -⟩
  rw [hsend] at hrun
  cases hrun

end Defuse
