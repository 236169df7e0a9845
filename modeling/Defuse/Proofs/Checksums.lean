import Defuse.Lib.Division
import Defuse.Proofs.CrcParallel
import Defuse.Proofs.OnePacket

/-! What the checksums of `crc32c.c` are: the same on every processor, at every address and for
every way to cut the data into pieces; remainders of a division by the Castagnoli polynomial; and
different for data that differs in a short burst, so that a data node notices one in a packet. -/

namespace Defuse

open CSem Polynomial

theorem crc32c_eq (sse42 : Bool) (crc : BitVec 32) (next : ℕ) (buf : List UInt8) :
    crc32c sse42 crc next buf = .ok (crcOf crc buf) := by
  cases sse42
  · exact crc32cSw_eq crc next buf
  · exact crc32cHw_eq crc next buf

theorem crcOf_append (crc : BitVec 32) (x y : List UInt8) :
    crcOf (crcOf crc x) y = crcOf crc (x ++ y) := by
  simp only [crcOf, xor_cancel_right, dataBits_append, feed_append]

/-- A call of `crc32c`. -/
structure CrcCall where
  sse42 : Bool
  next : ℕ
  buf : List UInt8

def crcCalls (crc : BitVec 32) (calls : List CrcCall) : Checked (BitVec 32) :=
  calls.foldlM (fun crc call => crc32c call.sse42 crc call.next call.buf) crc

/-- Data in pieces, each on any processor and at any address, has the checksum that the shift
register computes for the whole, one bit at a time. -/
theorem crc32c_pieces (crc : BitVec 32) (calls : List CrcCall) :
    crcCalls crc calls = .ok (crcOf crc (calls.flatMap CrcCall.buf)) := by
  induction calls generalizing crc with
  | nil =>
    have hnone : crcOf crc [] = crc := xor_cancel_right crc _
    rw [List.flatMap_nil, hnone]
    rfl
  | cons call calls ih =>
    unfold crcCalls at ih ⊢
    rw [List.foldlM_cons, crc32c_eq, ok_bind, ih, crcOf_append, List.flatMap_cons]

/-- The digits 1 to 9 have the check value of CRC-32C. -/
example : crcOf 0 [49, 50, 51, 52, 53, 54, 55, 56, 57] = 0xe3069283 := by decide +kernel

noncomputable def castagnoli : (ZMod 2)[X] :=
  X ^ 32 + X ^ 28 + X ^ 27 + X ^ 26 + X ^ 25 + X ^ 23 + X ^ 22 + X ^ 20 + X ^ 19 + X ^ 18 + X ^ 14 +
    X ^ 13 + X ^ 11 + X ^ 10 + X ^ 9 + X ^ 8 + X ^ 6 + 1

theorem generator_POLY : generator POLY = castagnoli := by
  have hbits : ∀ k < 32, POLY.getLsbD (32 - 1 - k) = decide (k ∈ [28, 27, 26, 25, 23, 22, 20, 19, 18,
      14, 13, 11, 10, 9, 8, 6, 0]) := by decide +kernel
  have hsum : regPoly POLY = ∑ k ∈ Finset.range 32, if k ∈ [28, 27, 26, 25, 23, 22, 20, 19, 18, 14,
      13, 11, 10, 9, 8, 6, 0] then X ^ k else 0 := by
    apply Finset.sum_congr rfl
    intro k hk
    rw [hbits k (Finset.mem_range.mp hk), bitCoeff]
    split_ifs with h1 h2 h2
    · exact monomial_one_right_eq_X_pow k
    · exact absurd (of_decide_eq_true h1) h2
    · exact absurd (decide_eq_true h2) h1
    · exact monomial_zero_right k
  rw [generator, hsum, castagnoli]
  simp only [List.mem_cons, List.not_mem_nil, or_false, Finset.sum_range_succ, Finset.range_one,
    Finset.sum_singleton, OfNat.zero_ne_ofNat, or_true, ↓reduceIte, pow_zero, OfNat.one_ne_ofNat,
    one_ne_zero, or_self, add_zero, Nat.reduceEqDiff, OfNat.ofNat_ne_zero, Nat.succ_ne_self]
  ring

/-- `crc32c` divides: the register that it returns, uncomplemented, is the remainder of the
register it was given followed by the data. -/
theorem crc32c_divides (sse42 : Bool) (crc : BitVec 32) (next : ℕ) (buf : List UInt8) :
    ∃ res, crc32c sse42 crc next buf = .ok res ∧
      regPoly (res ^^^ 0xffffffff) =
        (regPoly (crc ^^^ 0xffffffff) * X ^ (8 * buf.length) +
          bitsPoly (dataBits buf) * X ^ 32) %ₘ castagnoli := by
  refine ⟨_, crc32c_eq sse42 crc next buf, ?_⟩
  rw [crcOf, xor_cancel_right, regPoly_feed (by decide), dataBits_length, generator_POLY]

/-- The operator of `crc32c_zeros_op` for any `len` has what `len` zero bytes do to the register
when `len` is a power of two, and what the next smaller power does when it is not. -/
theorem zerosOp_applies (len : ℕ) :
    ∃ op, crc32cZerosOp len = .ok op ∧ op.length = 32 ∧ ∀ crc : BitVec 32,
      gf2MatrixTimes 0 op crc =
        .ok (feed POLY crc (dataBits (List.replicate (2 ^ len.log2) 0))) := by
  refine ⟨_, crc32cZerosOp_eq len, by simp [zeroBits], ?_⟩
  intro crc
  rw [gf2MatrixTimes_eq, dataBits_replicate_zero, feed_replicate_false]

theorem crcOf_burst_ne {x y : List UInt8} (hlen : x.length = y.length) (hburst : Burst 32 x y)
    (hne : x ≠ y) (crc : BitVec 32) : crcOf crc x ≠ crcOf crc y := by
  have htop : POLY.getLsbD (32 - 1) = true := by decide
  intro heq
  exact feed_burst_ne htop hlen hburst hne _ ((BitVec.xor_left_inj _).mp heq)

/-- The checksums are made by `crc32c`, on any processor and wherever the packet lies. -/
def NamenodeState.UsesCrc32c (nn : NamenodeState) : Prop :=
  nn.checksumtype = .crc32c ∧
    ∀ bytes, ∃ sse42 next, Defuse.crc32c sse42 0 next bytes = .ok (nn.crc32c bytes).toBitVec

theorem NamenodeState.UsesCrc32c.crc32c_eq_crcOf {nn : NamenodeState} (h : nn.UsesCrc32c)
    (bytes : List UInt8) : (nn.crc32c bytes).toBitVec = crcOf 0 bytes := by
  obtain ⟨sse42, next, hcall⟩ := h.2 bytes
  rw [crc32c_eq] at hcall
  exact (Except.ok.inj hcall).symm

def NamenodeState.SumsMatch (nn : NamenodeState) (packet : SentPacket) : Prop :=
  packet.checksums <+: (chunks nn.bytesperchecksum packet.data).map nn.crc32c

section Sending

variable {nn : NamenodeState} {pos pos' : BufferPos} {res : ℤ} {received' : List SentPacket}

theorem assemble_length {len : ℕ} {data : List UInt8} (hfit : pos.flat.length < 2 ^ 64)
    (hlen : len < 2 ^ 32) (h : assemble pos len = .ok data) : data.length = len := by
  have hwindow := (supplies_flat hfit).window pos.bufferoffset len hlen
  unfold assemble at h
  cases hloop : assembleLoop pos.bufferoffset len pos.buffers 0 0 none with
  | none =>
    rw [hloop] at h
    cases h
  | some packet =>
    rw [hloop, Option.getD_some] at hwindow
    have hle : packet.length ≤ len := by
      rw [hwindow, List.length_take]
      omega
    rw [hloop] at h
    dsimp only at h
    split_ifs at h with hless
    cases h
    omega

theorem checksums_sums {data : List UInt8} {sums : List UInt32} (hlen : data.length < 2 ^ 32)
    (h : nn.checksums 4 (roundup (data.length % 2 ^ 32) nn.bytesperchecksum) data = .ok sums) :
    sums <+: (chunks nn.bytesperchecksum data).map nn.crc32c := by
  have hinside {i : ℕ} := @inside_of_lt_roundup nn data.length i hlen
  have hcount : roundup (data.length % 2 ^ 32) nn.bytesperchecksum ≤
      data.length ⌈/⌉ nn.bytesperchecksum := by
    by_contra hmore
    have hlast := hinside (not_le.mp hmore)
    rw [← lt_ceilDiv_iff nn.bytesperchecksum_pos] at hlast
    exact lt_irrefl _ hlast
  unfold NamenodeState.checksums at h
  rw [if_pos (by omega), mapM_ok _ fun i hi => checksum_eq nn hlen (hinside (List.mem_range.mp hi))]
    at h
  obtain rfl := Except.ok.inj h
  unfold chunks
  rw [List.map_map, ← Nat.add_sub_cancel' hcount, List.range_add, List.map_append]
  exact List.prefix_append _ _

/-- What one packet adds to what the data node has. -/
theorem sendPacket_sums (hcrc : nn.checksumtype = .crc32c) {reply : PacketReply}
    {seqno len blockoffset : ℕ} {received : List SentPacket} (hfit : pos.flat.length < 2 ^ 64)
    (hlen : len < 2 ^ 32)
    (h : sendPacket nn reply seqno pos len blockoffset received = .ok (res, pos', received')) :
    pos'.buffers = pos.buffers ∧ ∀ packet ∈ received', packet ∈ received ∨ nn.SumsMatch packet := by
  have hsame : ∀ packet ∈ received, packet ∈ received ∨ nn.SumsMatch packet :=
    fun packet hp => Or.inl hp
  have hadded (new : SentPacket) (hnew : nn.SumsMatch new) :
      ∀ packet ∈ received ++ [new], packet ∈ received ∨ nn.SumsMatch packet := by
    intro packet hp
    rcases List.mem_append.mp hp with hp | hp
    · exact Or.inl hp
    · exact Or.inr (List.mem_singleton.mp hp ▸ hnew)
  unfold sendPacket at h
  simp only [hcrc, ChecksumType.checksumlen] at h
  split_ifs at h with hheader hpos hrefused
  · cases h
    exact ⟨rfl, hsame⟩
  · obtain ⟨data, -, h⟩ := bind_ok_iff.mp h
    obtain ⟨sums, -, h⟩ := bind_ok_iff.mp h
    cases h
    exact ⟨rfl, hsame⟩
  · obtain ⟨data, hdata, h⟩ := bind_ok_iff.mp h
    obtain ⟨sums, hsums, h⟩ := bind_ok_iff.mp h
    have hdatalen : data.length = len := assemble_length hfit hlen hdata
    cases h
    refine ⟨rfl, hadded _ (checksums_sums (hdatalen ▸ hlen) ?_)⟩
    rw [hdatalen]
    exact hsums
  · cases h
    exact ⟨rfl, hadded _ List.nil_prefix⟩

theorem sendPacketsLoop_sums (hcrc : nn.checksumtype = .crc32c) {replies : ℕ → PacketReply}
    {initial len blockoffset limit seqno : ℕ} {received : List SentPacket}
    (hfit : pos.flat.length < 2 ^ 64) (hsums : ∀ packet ∈ received, nn.SumsMatch packet)
    (h : sendPacketsLoop nn replies initial len blockoffset limit seqno pos received =
      .ok (res, pos', received')) : ∀ packet ∈ received', nn.SumsMatch packet := by
  induction limit generalizing seqno pos received with
  | zero => simp [sendPacketsLoop] at h
  | succ limit ih =>
    rw [sendPacketsLoop] at h
    obtain ⟨⟨r, pos₁, received₁⟩, hsend, h⟩ := bind_ok_iff.mp h
    obtain ⟨hbuffers, hadded⟩ := sendPacket_sums hcrc hfit (packetlen_lt nn _ _ _) hsend
    have hflat : pos₁.flat = pos.flat := by rw [BufferPos.flat, hbuffers, BufferPos.flat]
    have hsums₁ : ∀ packet ∈ received₁, nn.SumsMatch packet := by
      intro packet hp
      exact (hadded packet hp).elim (hsums packet) id
    dsimp only at h
    split_ifs at h with hneg hlast
    · cases h
      exact hsums₁
    · cases h
      exact hsums₁
    · exact ih (by rw [hflat]; exact hfit) hsums₁ h

end Sending

/-- A burst of at most 32 bits in the data of a packet does not go unnoticed: the checksums that
were sent are not those of the data that arrived. -/
theorem corrupted_packet_noticed (nn : NamenodeState) (hnn : nn.UsesCrc32c)
    (replies : ℕ → PacketReply) (pos : BufferPos) (hfit : pos.flat.length < 2 ^ 64)
    (len blockoffset : ℕ) {res : ℤ} {pos' : BufferPos} {received : List SentPacket}
    (hsend : sendPackets nn replies pos len blockoffset = .ok (res, pos', received))
    {packet : SentPacket} (hpacket : packet ∈ received) {arrived : List UInt8}
    (hlen : arrived.length = packet.data.length) (hburst : Burst 32 arrived packet.data)
    (hne : arrived ≠ packet.data) :
    (chunks nn.bytesperchecksum arrived).map nn.crc32c ≠ packet.checksums := by
  intro hsame
  have hcount : (chunks nn.bytesperchecksum arrived).length =
      (chunks nn.bytesperchecksum packet.data).length := by
    rw [chunks, chunks, List.length_map, List.length_map, hlen]
  have hsums := sendPacketsLoop_sums hnn.1 hfit (by simp) hsend packet hpacket
  rw [NamenodeState.SumsMatch, ← hsame] at hsums
  have heq := hsums.eq_of_length (by rw [List.length_map, List.length_map, hcount])
  apply hne
  rw [← chunks_flatten (l := arrived) nn.bytesperchecksum_pos,
    ← chunks_flatten (l := packet.data) nn.bytesperchecksum_pos]
  congr 1
  unfold chunks at heq ⊢
  rw [hlen, List.map_map, List.map_map] at heq
  rw [hlen]
  apply List.map_congr_left
  intro i hi
  have hsum := congrArg UInt32.toBitVec ((List.map_inj_left.mp heq) i hi)
  rw [Function.comp_apply, Function.comp_apply, hnn.crc32c_eq_crcOf, hnn.crc32c_eq_crcOf] at hsum
  by_contra hchunk
  refine crcOf_burst_ne ?_ (hburst.window (i * nn.bytesperchecksum) nn.bytesperchecksum) hchunk 0
    hsum
  exact (chunk_length _ _ _).trans (hlen ▸ (chunk_length _ _ _).symm)

/-- The checksums of `crc32c`, for chunks of three bytes. -/
def triplesNode : NamenodeState where
  packetsize := 6
  bytesperchecksum := 3
  checksumtype := .crc32c
  crc32c := fun bytes => ⟨crcOf 0 bytes⟩
  packetsize_pos := by decide
  packetsize_lt := by decide
  bytesperchecksum_pos := by decide
  bytesperchecksum_lt := by decide

theorem triplesNode_uses : triplesNode.UsesCrc32c :=
  ⟨rfl, fun bytes => ⟨true, 0, crc32c_eq true 0 0 bytes⟩⟩

def fourZeros : BufferPos := ⟨[⟨some [0, 0, 0, 0], 4, by simp⟩], 0, 4⟩

/-- Four bytes of zeros arrive with one bit changed in the third and the fourth. -/
theorem corrupted_packet_noticed_four :
    ∃ pos' packet last,
      sendPackets triplesNode (fun seqno => ⟨0, 4, 0, ⟨seqno, [true]⟩⟩) fourZeros 4 0 =
        .ok (0, pos', [packet, last]) ∧ packet.data = [0, 0, 0, 0] ∧
      (chunks 3 [0, 0, 128, 1]).map triplesNode.crc32c ≠ packet.checksums := by
  have hburst : Burst 32 [0, 0, 128, 1] [0, 0, 0, 0] := by
    have hshort : ∀ i < 32, (dataBits [0, 0, 128, 1])[i]? ≠ (dataBits [0, 0, 0, 0])[i]? →
        23 ≤ i ∧ i < 23 + 32 := by decide
    refine ⟨23, ?_⟩
    intro i hi
    rcases Nat.lt_or_ge i 32 with hlt | hge
    · exact hshort i hlt hi
    · rw [List.getElem?_eq_none hge, List.getElem?_eq_none hge] at hi
      exact absurd rfl hi
  refine ⟨_, _, _, rfl, rfl, ?_⟩
  exact corrupted_packet_noticed triplesNode triplesNode_uses
    (fun seqno => ⟨0, 4, 0, ⟨seqno, [true]⟩⟩) fourZeros (by decide) 4 0 rfl
    (List.mem_cons_self ..) (by decide) hburst (by decide)

end Defuse
