import Defuse.Lib.Chunks
import Defuse.Lib.Tiling
import Defuse.Spec.HdfsSend
import Mathlib.Tactic.Ring

/-! `hadoop_rpc_send_packets`: what one packet sends, and when the packets tile the bytes
that were asked for. -/

namespace Defuse

open CSem

theorem flatMap_bytes_cons (b : FuseBuffer) (bs : List FuseBuffer) :
    (b :: bs).flatMap FuseBuffer.bytes = b.bytes ++ bs.flatMap FuseBuffer.bytes :=
  List.flatMap_cons

/-- The assembled bytes are a window of the buffers, as far as they reach. While nothing has
been copied the buffers may still lie before the window; afterwards they continue it. -/
theorem assembleLoop_eq (off len : ℕ) (buffers : List FuseBuffer) (idx written : ℕ)
    (packet : Option (List UInt8))
    (hfit : idx + (buffers.flatMap FuseBuffer.bytes).length < 2 ^ 64)
    (hw : (packet.getD []).length = written) (hphase : written = 0 ∨ off < idx)
    (hle : written ≤ len) :
    (assembleLoop off len buffers idx written packet).getD [] = packet.getD [] ++
      ((buffers.flatMap FuseBuffer.bytes).drop (off - idx)).take (len - written) := by
  induction buffers generalizing idx written packet with
  | nil => simp [assembleLoop]
  | cons b bs ih =>
    rw [flatMap_bytes_cons] at hfit ⊢
    simp only [List.length_append, FuseBuffer.bytes_length] at hfit
    have hidx : asU64 ((idx : ℤ) + b.len) = idx + b.len := by
      exact_mod_cast asU64_natCast (n := idx + b.len) (by omega)
    unfold assembleLoop
    rw [hidx]
    by_cases hmore : written < len
    · rw [if_pos hmore]
      by_cases hin : idx + b.len > off
      · have hoff : (if idx > off then 0 else off - idx) = off - idx := by
          split_ifs with h <;> omega
        have hsub : asU64 ((b.len : ℤ) - (off - idx : ℕ)) = b.len - (off - idx) := by
          unfold asU64
          omega
        rw [if_pos hin]
        simp only [hoff, hsub]
        have hdrop : (b.bytes ++ bs.flatMap FuseBuffer.bytes).drop (off - idx) =
            b.bytes.drop (off - idx) ++ bs.flatMap FuseBuffer.bytes :=
          List.drop_append_of_le_length (by simp; omega)
        rw [hdrop, List.take_append]
        simp only [List.length_drop, FuseBuffer.bytes_length]
        by_cases hall : min (len - written) (b.len - (off - idx)) = len
        · -- the whole packet lies in this buffer
          have h0 : written = 0 := by omega
          rw [if_pos hall, List.length_eq_zero_iff.mp (hw.trans h0), h0]
          rw [show len - 0 - (b.len - (off - idx)) = 0 by omega]
          simp
        · rw [if_neg hall]
          by_cases hpos : min (len - written) (b.len - (off - idx)) > 0
          · rw [if_pos hpos, ih (idx + b.len) _ _ (by omega)
              (by rw [Option.getD_some, List.length_append, hw, List.length_take,
                List.length_drop, FuseBuffer.bytes_length]; omega) (by omega) (by omega)]
            rw [show off - (idx + b.len) = 0 by omega, List.drop_zero, Option.getD_some,
              List.append_assoc]
            congr 2
            · rcases Nat.le_total (len - written) (b.len - (off - idx)) with h | h
              · rw [Nat.min_eq_left h]
              · rw [Nat.min_eq_right h, List.take_of_length_le (by simp),
                  List.take_of_length_le (by simp; omega)]
            · congr 1
              omega
          · -- an empty buffer behind the first piece
            have h0 : b.bytes = [] := List.length_eq_zero_iff.mp (by rw [b.bytes_length]; omega)
            rw [if_neg hpos, ih (idx + b.len) _ _ (by omega) hw (by omega) hle, h0]
            rw [show off - (idx + b.len) = 0 by omega, show len - written - (b.len - (off - idx)) =
              len - written by omega]
            simp
      · have h0 : written = 0 := by omega
        rw [if_neg hin, ih (idx + b.len) _ _ (by omega) hw (Or.inl h0) hle]
        have hbefore : b.bytes.drop (off - idx) = [] :=
          List.drop_of_length_le (by rw [b.bytes_length]; omega)
        rw [List.drop_append, hbefore, List.nil_append, b.bytes_length, Nat.sub_sub]
    · rw [if_neg hmore]
      simp [show len - written = 0 by omega]

/-- The packets that are cut from the buffers are windows of `data`. -/
structure Supplies (buffers : List FuseBuffer) (data : List UInt8) : Prop where
  lt : data.length < 2 ^ 64
  window : ∀ off len, len < 2 ^ 32 →
    (assembleLoop off len buffers 0 0 none).getD [] = (data.drop off).take len

theorem supplies_flat {pos : BufferPos} (h : pos.flat.length < 2 ^ 64) :
    Supplies pos.buffers pos.flat := by
  refine ⟨h, fun off len _ => ?_⟩
  exact assembleLoop_eq off len pos.buffers 0 0 none (by rw [Nat.zero_add]; exact h) rfl (Or.inl rfl)
    (Nat.zero_le len)

variable {pos : BufferPos} {len : ℕ} {data : List UInt8}

theorem assemble_ok (hd : Supplies pos.buffers data) (h0 : 0 < len) (hlen : len < 2 ^ 32)
    (h : pos.bufferoffset + len ≤ data.length) :
    assemble pos len = .ok ((data.drop pos.bufferoffset).take len) := by
  have hwin := hd.window pos.bufferoffset len hlen
  have hlong : ((data.drop pos.bufferoffset).take len).length = len := by
    rw [List.length_take, List.length_drop]
    omega
  unfold assemble
  cases hp : assembleLoop pos.bufferoffset len pos.buffers 0 0 none with
  | none =>
    rw [hp, Option.getD_none] at hwin
    rw [← hwin, List.length_nil] at hlong
    omega
  | some packet =>
    rw [hp, Option.getD_some] at hwin
    subst hwin
    exact if_neg (by omega)

theorem assemble_error (hd : Supplies pos.buffers data) (hlen : len < 2 ^ 32)
    (hoff : pos.bufferoffset ≤ data.length) (h : data.length < pos.bufferoffset + len) :
    ∃ e, assemble pos len = .error e := by
  have hwin := hd.window pos.bufferoffset len hlen
  unfold assemble
  cases hp : assembleLoop pos.bufferoffset len pos.buffers 0 0 none with
  | none => exact ⟨_, rfl⟩
  | some packet =>
    rw [hp, Option.getD_some] at hwin
    subst hwin
    exact ⟨_, if_pos (by rw [List.length_take, List.length_drop]; omega)⟩

theorem checksum_eq (nn : NamenodeState) {packet : List UInt8} (hlen : packet.length < 2 ^ 32) {i : ℕ}
    (hi : i * nn.bytesperchecksum < packet.length) :
    nn.checksum packet i = .ok (nn.crc32c (chunk nn.bytesperchecksum packet i)) := by
  have hsub : asU64 ((packet.length : ℤ) - (i * nn.bytesperchecksum : ℕ)) =
      packet.length - i * nn.bytesperchecksum := by
    unfold asU64
    omega
  have hmin : (packet.drop (i * nn.bytesperchecksum)).take
      (min nn.bytesperchecksum (packet.length - i * nn.bytesperchecksum)) =
      chunk nn.bytesperchecksum packet i := by
    unfold chunk
    rw [List.take_eq_take_iff, List.length_drop]
    omega
  unfold NamenodeState.checksum
  simp only [Nat.mod_eq_of_lt (hi.trans hlen)]
  rw [hsub, if_pos (by omega), hmin]

theorem inside_of_lt_roundup (nn : NamenodeState) {len i : ℕ} (hlen : len < 2 ^ 32)
    (hi : i < roundup (len % 2 ^ 32) nn.bytesperchecksum) : i * nn.bytesperchecksum < len := by
  rw [roundup, Nat.lt_div_iff_mul_lt nn.bytesperchecksum_pos, Nat.mod_eq_of_lt hlen] at hi
  have := Nat.mod_le (len + nn.bytesperchecksum - 1) (2 ^ 32)
  omega

theorem checksums_ok (nn : NamenodeState) (checksumlen : ℕ) {packet : List UInt8}
    (hlen : packet.length < 2 ^ 32) :
    ∃ sums, nn.checksums checksumlen (roundup (packet.length % 2 ^ 32) nn.bytesperchecksum)
      packet = .ok sums := by
  unfold NamenodeState.checksums
  split_ifs
  · exact ⟨_, mapM_ok _ fun i hi =>
      checksum_eq nn hlen (inside_of_lt_roundup nn hlen (List.mem_range.mp hi))⟩
  · exact ⟨[], rfl⟩

def NamenodeState.Supported (nn : NamenodeState) : Prop := nn.checksumtype ≠ .crc32

instance (nn : NamenodeState) : Decidable nn.Supported := inferInstanceAs (Decidable (¬ _))

def PacketReply.Delivers (reply : PacketReply) (len : ℕ) : Prop :=
  0 ≤ reply.header ∧ (0 < len → 0 ≤ reply.data)

theorem PacketReply.acked_nonpos (reply : PacketReply) (seqno : ℕ) : reply.acked seqno ≤ 0 := by
  unfold PacketReply.acked EPROTO EINVAL
  split_ifs <;> omega

theorem supported_iff {nn : NamenodeState} :
    nn.Supported ↔ ∃ n, nn.checksumtype.checksumlen = some n := by
  unfold NamenodeState.Supported
  cases nn.checksumtype <;> simp [ChecksumType.checksumlen]

theorem BufferPos.bufferoffset_advance (pos : BufferPos) (n : ℕ) (h : pos.bufferoffset + n < 2 ^ 64) :
    (pos.advance n).bufferoffset = pos.bufferoffset + n := by
  unfold BufferPos.advance
  exact_mod_cast asU64_natCast h

theorem BufferPos.advance_zero (h : pos.bufferoffset < 2 ^ 64) : pos.advance 0 = pos := by
  unfold BufferPos.advance
  rw [show asU64 ((pos.bufferoffset : ℤ) + (0 : ℕ)) = pos.bufferoffset by
    exact_mod_cast asU64_natCast h]

/-- The packet is given up before its data is sent: the checksum type is not implemented,
or a socket call for the header fails, or one for data for which there is room in
the buffers. -/
def NamenodeState.Unsent (nn : NamenodeState) (room : ℕ) (reply : PacketReply) (len : ℕ) : Prop :=
  ¬ nn.Supported ∨ reply.header < 0 ∨ 0 < len ∧ len ≤ room ∧ reply.data < 0

instance (nn : NamenodeState) (room : ℕ) (reply : PacketReply) (len : ℕ) :
    Decidable (nn.Unsent room reply len) := inferInstanceAs (Decidable (_ ∨ _ ∨ _))

theorem not_unsent_iff {nn : NamenodeState} {room : ℕ} {reply : PacketReply} :
    ¬ nn.Unsent room reply len ↔
      nn.Supported ∧ 0 ≤ reply.header ∧ (0 < len → len ≤ room → 0 ≤ reply.data) := by
  simp [NamenodeState.Unsent]

theorem BufferPos.advance_advance {m n : ℕ} (h : pos.bufferoffset + m < 2 ^ 64) :
    (pos.advance m).advance n = pos.advance (m + n) := by
  have hm := pos.bufferoffset_advance m h
  unfold BufferPos.advance at *
  simp only at hm
  simp only [hm]
  congr 2
  push_cast
  ring

section Packet

variable {nn : NamenodeState} {reply : PacketReply} (hd : Supplies pos.buffers data)

include hd

/-- A packet within the buffers that is delivered carries their next bytes and moves the
position behind them, whatever the acknowledgement says. -/
theorem sendPacket_sent (hs : nn.Supported) (hdel : reply.Delivers len)
    (hroom : pos.bufferoffset + len ≤ data.length) (hlen : len < 2 ^ 32)
    (seqno blockoffset : ℕ) (received : List SentPacket) :
    ∃ packet : SentPacket, packet.seqno = seqno ∧ packet.offsetinblock = blockoffset ∧
      packet.lastpacketinblock = decide (len = 0) ∧
      packet.data = (data.drop pos.bufferoffset).take len ∧
      sendPacket nn reply seqno pos len blockoffset received =
        .ok (reply.acked seqno, pos.advance len, received ++ [packet]) := by
  obtain ⟨n, hn⟩ := supported_iff.mp hs
  have hheader : ¬ reply.header < 0 := by
    have := hdel.1
    omega
  unfold sendPacket
  simp only [hn]
  rw [if_neg hheader]
  by_cases h0 : 0 < len
  · have hdata : ¬ reply.data < 0 := by
      have := hdel.2 h0
      omega
    have hlong : ((data.drop pos.bufferoffset).take len).length = len := by
      rw [List.length_take, List.length_drop]
      omega
    obtain ⟨sums, hsums⟩ := checksums_ok nn n (hlong.trans_lt hlen)
    rw [hlong] at hsums
    rw [if_pos h0, assemble_ok hd h0 hlen hroom, ok_bind, hsums, ok_bind, if_neg hdata]
    exact ⟨_, rfl, rfl, (decide_eq_false (by omega)).symm, rfl, rfl⟩
  · obtain rfl : len = 0 := by omega
    have := hd.lt
    rw [if_neg h0, BufferPos.advance_zero (by omega)]
    exact ⟨_, rfl, rfl, rfl, rfl, rfl⟩

theorem sendPacket_unsent (h : nn.Unsent (data.length - pos.bufferoffset) reply len)
    (hlen : len < 2 ^ 32) (seqno blockoffset : ℕ) (received : List SentPacket) :
    ∃ res < 0, sendPacket nn reply seqno pos len blockoffset received =
      .ok (res, pos, received) := by
  unfold sendPacket
  cases hn : nn.checksumtype.checksumlen with
  | none => exact ⟨-ENOSYS, by decide, rfl⟩
  | some n =>
    by_cases hheader : reply.header < 0
    · exact ⟨reply.header, hheader, if_pos hheader⟩
    · rcases h with h | h | ⟨h0, hroom, hdata⟩
      · exact absurd (supported_iff.mpr ⟨n, hn⟩) h
      · exact absurd h hheader
      · have hlong : ((data.drop pos.bufferoffset).take len).length = len := by
          rw [List.length_take, List.length_drop]
          omega
        obtain ⟨sums, hsums⟩ := checksums_ok nn n (hlong.trans_lt hlen)
        rw [hlong] at hsums
        refine ⟨reply.data, hdata, ?_⟩
        simp only
        rw [if_neg hheader, if_pos h0, assemble_ok hd h0 hlen (by omega), ok_bind, hsums, ok_bind,
          if_pos hdata]
        rfl

theorem sendPacket_short (hs : nn.Supported) (hheader : 0 ≤ reply.header)
    (hoff : pos.bufferoffset ≤ data.length) (hlen : len < 2 ^ 32)
    (hshort : data.length < pos.bufferoffset + len) (seqno blockoffset : ℕ)
    (received : List SentPacket) :
    ∃ e, sendPacket nn reply seqno pos len blockoffset received = .error e := by
  obtain ⟨n, hn⟩ := supported_iff.mp hs
  obtain ⟨e, he⟩ := assemble_error hd hlen hoff hshort
  refine ⟨e, ?_⟩
  unfold sendPacket
  simp only [hn]
  rw [if_neg (by omega), if_pos (by omega), he, error_bind]

theorem sendPacket_cases (nn : NamenodeState) (reply : PacketReply)
    (hoff : pos.bufferoffset ≤ data.length) (hlen : len < 2 ^ 32) (seqno blockoffset : ℕ)
    (received : List SentPacket) :
    (¬ nn.Unsent (data.length - pos.bufferoffset) reply len ∧
      data.length < pos.bufferoffset + len ∧
      ∃ e, sendPacket nn reply seqno pos len blockoffset received = .error e) ∨
    (∃ res < 0, nn.Unsent (data.length - pos.bufferoffset) reply len ∧
      sendPacket nn reply seqno pos len blockoffset received = .ok (res, pos, received)) ∨
    (nn.Supported ∧ reply.Delivers len ∧ pos.bufferoffset + len ≤ data.length ∧
      ∃ packet, sendPacket nn reply seqno pos len blockoffset received =
        .ok (reply.acked seqno, pos.advance len, received ++ [packet])) := by
  by_cases hun : nn.Unsent (data.length - pos.bufferoffset) reply len
  · obtain ⟨res, hres, he⟩ := sendPacket_unsent hd hun hlen seqno blockoffset received
    exact Or.inr (Or.inl ⟨res, hres, hun, he⟩)
  · obtain ⟨hs, hheader, hdata⟩ := not_unsent_iff.mp hun
    rcases Nat.lt_or_ge data.length (pos.bufferoffset + len) with hshort | hroom
    · exact Or.inl ⟨hun, hshort, sendPacket_short hd hs hheader hoff hlen hshort seqno blockoffset
        received⟩
    · have hdel : reply.Delivers len := ⟨hheader, fun h0 => hdata h0 (by omega)⟩
      obtain ⟨packet, -, -, -, -, he⟩ := sendPacket_sent hd hs hdel hroom hlen seqno blockoffset received
      exact Or.inr (Or.inr ⟨hs, hdel, hroom, packet, he⟩)

end Packet

/-- Of the packets from `seqno` on, `n` and the empty one behind them are delivered and
acknowledged. -/
def AllAcked (replies : ℕ → PacketReply) : ℕ → ℕ → Prop
  | 0, seqno => 0 ≤ (replies seqno).header ∧ (replies seqno).acked seqno = 0
  | n + 1, seqno => 0 ≤ (replies seqno).header ∧ 0 ≤ (replies seqno).data ∧
      (replies seqno).acked seqno = 0 ∧ AllAcked replies n (seqno + 1)

instance AllAcked.decidable (replies : ℕ → PacketReply) :
    ∀ n seqno, Decidable (AllAcked replies n seqno)
  | 0, _ => inferInstanceAs (Decidable (_ ∧ _))
  | n + 1, seqno =>
    have := AllAcked.decidable replies n (seqno + 1)
    inferInstanceAs (Decidable (_ ∧ _ ∧ _ ∧ _))

section Loop

variable {nn : NamenodeState} {blockoffset sent : ℕ}

theorem packetlen_eq (nn : NamenodeState) (blockoffset : ℕ) (hlen : len < 2 ^ 64)
    (hs : sent ≤ len) :
    nn.packetlen len blockoffset sent =
      piece nn.packetsize nn.bytesperchecksum (blockoffset + sent) (len - sent) := by
  have hps := nn.packetsize_pos
  have hsub : asU64 ((len : ℤ) - sent) = len - sent := by
    unfold asU64
    omega
  have hpos : 0 < min (len - sent) nn.packetsize ↔ 0 < len - sent := by omega
  unfold NamenodeState.packetlen piece boundary
  simp only [hsub, gt_iff_lt, hpos]

theorem packetlen_over (nn : NamenodeState) (blockoffset : ℕ) (h : len < sent)
    (hs : sent < 2 ^ 64) :
    0 < nn.packetlen len blockoffset sent := by
  have hps := nn.packetsize_pos
  have hmod := Nat.mod_lt (blockoffset + sent) nn.bytesperchecksum_pos
  have hsub : 0 < asU64 ((len : ℤ) - sent) := by
    unfold asU64
    omega
  unfold NamenodeState.packetlen
  simp only
  split_ifs <;> omega

theorem packetlen_eq_zero (hlen : len < 2 ^ 64) (hs : sent < 2 ^ 64)
    (h : nn.packetlen len blockoffset sent = 0) : sent ≤ len ∧ len - sent = 0 := by
  have hle : sent ≤ len := by
    by_contra hcon
    have := packetlen_over nn blockoffset (Nat.lt_of_not_le hcon) hs
    omega
  refine ⟨hle, ?_⟩
  by_contra hcon
  have := piece_pos nn.packetsize_pos nn.bytesperchecksum_pos (Nat.pos_of_ne_zero hcon)
    (blockoffset + sent)
  rw [packetlen_eq nn blockoffset hlen hle] at h
  omega

theorem packetlen_lt (nn : NamenodeState) (len blockoffset sent : ℕ) :
    nn.packetlen len blockoffset sent < 2 ^ 32 := by
  have hps := nn.packetsize_lt
  have hbc := nn.bytesperchecksum_lt
  unfold NamenodeState.packetlen
  simp only
  split_ifs <;> omega

/-- The position moved forward over `data`. -/
structure BufferPos.Moved (data : List UInt8) (pos pos' : BufferPos) : Prop where
  buffers : pos'.buffers = pos.buffers
  le : pos.bufferoffset ≤ pos'.bufferoffset
  within : pos'.bufferoffset ≤ data.length

theorem BufferPos.Moved.trans {pos₁ pos₂ : BufferPos} (h : BufferPos.Moved data pos pos₁)
    (h' : BufferPos.Moved data pos₁ pos₂) : BufferPos.Moved data pos pos₂ :=
  ⟨h'.buffers.trans h.buffers, h.le.trans h'.le, h'.within⟩

variable {replies : ℕ → PacketReply} {initial : ℕ}

theorem sendPacketsLoop_succ (hpos : pos.bufferoffset = initial + sent) (hs : sent < 2 ^ 64)
    (limit seqno : ℕ) (received : List SentPacket) :
    sendPacketsLoop nn replies initial len blockoffset (limit + 1) seqno pos received =
      (sendPacket nn (replies seqno) seqno pos (nn.packetlen len blockoffset sent)
        (blockoffset + sent) received >>= fun r =>
          if r.1 < 0 then .ok r
          else if nn.packetlen len blockoffset sent = 0 then .ok (0, r.2)
          else sendPacketsLoop nn replies initial len blockoffset limit (seqno + 1) r.2.1
            r.2.2) := by
  have hsent : asU64 ((pos.bufferoffset : ℤ) - initial) = sent := by
    unfold asU64
    omega
  rw [sendPacketsLoop, hsent]
  rfl

/-- What a transfer that returned has done: it failed, or it sent exactly the bytes asked
for in packets that tile them. -/
theorem sendPacketsLoop_inv {res : ℤ} {pos' : BufferPos} {received' : List SentPacket}
    (hlen : len < 2 ^ 64) (hpos : pos.bufferoffset = initial + sent)
    (hd : Supplies pos.buffers data) (hoff : pos.bufferoffset ≤ data.length)
    {limit seqno : ℕ} {received : List SentPacket}
    (h : sendPacketsLoop nn replies initial len blockoffset limit seqno pos received =
      .ok (res, pos', received')) :
    BufferPos.Moved data pos pos' ∧ (res < 0 ∨ res = 0 ∧ sent ≤ len ∧
      pos'.bufferoffset = initial + len ∧ nn.Supported ∧
      Tiles nn.packetsize nn.bytesperchecksum (blockoffset + sent) (len - sent) ∧
      AllAcked replies
        (pieces nn.packetsize nn.bytesperchecksum (blockoffset + sent) (len - sent)) seqno) := by
  induction limit generalizing seqno pos received sent with
  | zero => simp [sendPacketsLoop] at h
  | succ limit ih =>
    have hfit := hd.lt
    have hrefl : BufferPos.Moved data pos pos := ⟨rfl, le_rfl, hoff⟩
    rw [sendPacketsLoop_succ hpos (by omega)] at h
    rcases sendPacket_cases hd nn (replies seqno) hoff (packetlen_lt nn len blockoffset sent)
      seqno (blockoffset + sent) received with
      ⟨-, -, e, he⟩ | ⟨r, hr, -, he⟩ | ⟨hsup, hdel, hroom, packet, he⟩
    · rw [he] at h
      cases h
    · rw [he, ok_bind, if_pos hr] at h
      cases h
      exact ⟨hrefl, Or.inl hr⟩
    · have hnew := pos.bufferoffset_advance (nn.packetlen len blockoffset sent) (by omega)
      have hmoved : BufferPos.Moved data pos (pos.advance (nn.packetlen len blockoffset sent)) :=
        ⟨rfl, by omega, by rw [hnew]; exact hroom⟩
      rw [he, ok_bind] at h
      by_cases hneg : (replies seqno).acked seqno < 0
      · rw [if_pos hneg] at h
        cases h
        exact ⟨hmoved, Or.inl hneg⟩
      have hack : (replies seqno).acked seqno = 0 := by
        have := (replies seqno).acked_nonpos seqno
        omega
      rw [if_neg hneg] at h
      by_cases hm : nn.packetlen len blockoffset sent = 0
      · -- the empty packet: nothing was left
        obtain ⟨hs, hdone⟩ := packetlen_eq_zero hlen (by omega) hm
        rw [if_pos hm] at h
        cases h
        refine ⟨hmoved, Or.inr ⟨rfl, hs, by omega, hsup, ?_, ?_⟩⟩
        · rw [hdone]
          exact tiles_zero _
        · rw [hdone, pieces_zero nn.packetsize_pos]
          exact ⟨hdel.1, hack⟩
      · rw [if_neg hm] at h
        obtain ⟨hrest, hres⟩ := ih (hnew.trans (by rw [hpos, add_assoc])) hd
          (by rw [hnew]; exact hroom) h
        refine ⟨hmoved.trans hrest, ?_⟩
        rcases hres with hneg | ⟨hzero, hs, hend, hsup, htiles, hacked⟩
        · exact Or.inl hneg
        · have hle : sent ≤ len := by omega
          have hleft : 0 < len - sent := by omega
          rw [← add_assoc, packetlen_eq nn blockoffset hlen hle, ← Nat.sub_sub] at htiles hacked
          rw [packetlen_eq nn blockoffset hlen hle] at hs
          have hall := (tiles_step nn.bytesperchecksum_pos hleft).mpr ⟨by omega, htiles⟩
          refine Or.inr ⟨hzero, hle, hend, hsup, hall, ?_⟩
          rw [pieces_step nn.bytesperchecksum_pos hleft nn.packetsize_pos hall]
          exact ⟨hdel.1, hdel.2 (by omega), hack, hacked⟩

/-- The packets of a transfer of `bytes` to the offset `off` of a block: pieces of the bytes
with consecutive numbers, and an empty packet behind them. -/
inductive PacketsOf (nn : NamenodeState) : ℕ → ℕ → List UInt8 → List SentPacket → Prop
  | last {packet : SentPacket} {seqno off : ℕ} (hseqno : packet.seqno = seqno)
    (hoffset : packet.offsetinblock = off) (hlast : packet.lastpacketinblock = true)
    (hdata : packet.data = []) : PacketsOf nn seqno off [] [packet]
  | piece {packet : SentPacket} {packets : List SentPacket} {seqno off : ℕ} {bytes : List UInt8}
    (hseqno : packet.seqno = seqno) (hoffset : packet.offsetinblock = off)
    (hlast : packet.lastpacketinblock = false)
    (hlen : packet.data.length = piece nn.packetsize nn.bytesperchecksum off
      (packet.data ++ bytes).length) (hpos : 0 < packet.data.length)
    (hrest : PacketsOf nn (seqno + 1) (off + packet.data.length) bytes packets) :
    PacketsOf nn seqno off (packet.data ++ bytes) (packet :: packets)

theorem PacketsOf.flatMap_data {seqno off : ℕ} {bytes : List UInt8} {packets : List SentPacket}
    (h : PacketsOf nn seqno off bytes packets) : packets.flatMap SentPacket.data = bytes := by
  induction h with
  | last _ _ _ hdata => simp [hdata]
  | piece _ _ _ _ _ _ ih => rw [List.flatMap_cons, ih]

theorem PacketsOf.foldl_place {seqno off : ℕ} {bytes : List UInt8} {packets : List SentPacket}
    (h : PacketsOf nn seqno off bytes packets) (stored : List UInt8) :
    packets.foldl SentPacket.place stored = overlay stored off bytes := by
  induction h generalizing stored with
  | last _ hoffset _ hdata =>
    rw [List.foldl_cons, List.foldl_nil, SentPacket.place, hoffset, hdata]
  | piece _ hoffset _ _ _ _ ih =>
    rw [List.foldl_cons, ih, SentPacket.place, hoffset, overlay_overlay]

/-- Packets that tile the bytes and are all acknowledged are the packets of these bytes. -/
theorem sendPacketsLoop_complete (hsup : nn.Supported)
    (hpos : pos.bufferoffset = initial + sent) (hd : Supplies pos.buffers data) (hs : sent ≤ len)
    (hroom : initial + len ≤ data.length) {limit seqno : ℕ} (hlimit : len - sent < limit)
    (htiles : Tiles nn.packetsize nn.bytesperchecksum (blockoffset + sent) (len - sent))
    (hacked : AllAcked replies
      (pieces nn.packetsize nn.bytesperchecksum (blockoffset + sent) (len - sent)) seqno)
    (received : List SentPacket) :
    ∃ packets, sendPacketsLoop nn replies initial len blockoffset limit seqno pos received =
        .ok (0, pos.advance (len - sent), received ++ packets) ∧
      PacketsOf nn seqno (blockoffset + sent) ((data.drop pos.bufferoffset).take (len - sent))
        packets := by
  induction limit generalizing seqno pos received sent with
  | zero => omega
  | succ limit ih =>
    have hfit := hd.lt
    have hpiece := packetlen_eq nn blockoffset (by omega) hs
    have hlt := packetlen_lt nn len blockoffset sent
    rw [sendPacketsLoop_succ hpos (by omega)]
    rcases Nat.eq_zero_or_pos (len - sent) with hdone | hleft
    · have hm : nn.packetlen len blockoffset sent = 0 := by
        rw [hpiece, hdone]
        simp [piece]
      rw [hdone, pieces_zero nn.packetsize_pos] at hacked
      have hdel : (replies seqno).Delivers (nn.packetlen len blockoffset sent) :=
        ⟨hacked.1, by omega⟩
      obtain ⟨packet, hseqno, hoffset, hlast, hdata, he⟩ := sendPacket_sent hd hsup hdel
        (by omega) hlt seqno (blockoffset + sent) received
      rw [he, ok_bind, hacked.2, if_neg (by omega), if_pos hm, hm, hdone]
      rw [hm] at hlast hdata
      exact ⟨[packet], rfl, .last hseqno hoffset hlast hdata⟩
    · obtain ⟨hfits, hrest⟩ := (tiles_step nn.bytesperchecksum_pos hleft).mp htiles
      have hmpos := piece_pos nn.packetsize_pos nn.bytesperchecksum_pos hleft (blockoffset + sent)
      rw [pieces_step nn.bytesperchecksum_pos hleft nn.packetsize_pos htiles] at hacked
      obtain ⟨hheader, hdata, hack, hacked⟩ := hacked
      rw [← hpiece] at hfits hrest hmpos hacked
      have hdel : (replies seqno).Delivers (nn.packetlen len blockoffset sent) :=
        ⟨hheader, fun _ => hdata⟩
      obtain ⟨packet, hseqno, hoffset, hlast, hwin, he⟩ := sendPacket_sent hd hsup hdel
        (by omega) hlt seqno (blockoffset + sent) received
      rw [decide_eq_false (by omega)] at hlast
      have hnew := pos.bufferoffset_advance (nn.packetlen len blockoffset sent) (by omega)
      rw [add_assoc, Nat.sub_sub] at hrest hacked
      obtain ⟨packets, hrun, hpackets⟩ := ih (hnew.trans (by rw [hpos, add_assoc])) hd
        (by omega) (by omega) hrest hacked (received ++ [packet])
      -- the bytes of this packet and those of the rest
      have hsplit : (data.drop pos.bufferoffset).take (len - sent) =
          packet.data ++ (data.drop (pos.bufferoffset + nn.packetlen len blockoffset sent)).take
            (len - (sent + nn.packetlen len blockoffset sent)) := by
        rw [hwin, ← List.drop_drop, show len - sent = nn.packetlen len blockoffset sent +
          (len - (sent + nn.packetlen len blockoffset sent)) by omega, List.take_add]
      have hlong : packet.data.length = nn.packetlen len blockoffset sent := by
        rw [hwin, List.length_take, List.length_drop]
        omega
      have hwhole : ((data.drop pos.bufferoffset).take (len - sent)).length = len - sent := by
        rw [List.length_take, List.length_drop]
        omega
      rw [hnew, ← add_assoc] at hpackets
      refine ⟨packet :: packets, ?_, ?_⟩
      · have hsum : nn.packetlen len blockoffset sent +
            (len - (sent + nn.packetlen len blockoffset sent)) = len - sent := by omega
        rw [he, ok_bind, hack, if_neg (by omega), if_neg (by omega), hrun, List.append_assoc,
          BufferPos.advance_advance (by omega), hsum]
        rfl
      · rw [hsplit] at hwhole ⊢
        refine .piece hseqno hoffset hlast ?_ (by omega) ?_
        · rw [hwhole, hlong, hpiece]
        · rw [hlong]
          exact hpackets

end Loop

end Defuse
