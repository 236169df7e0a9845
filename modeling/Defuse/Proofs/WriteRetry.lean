import Defuse.Proofs.SendPackets

/-! `hadoop_fuse_write_block` tries one data node after the other with a position that is
never set back: what a write leaves behind when some of the nodes fail. -/

namespace Defuse

open CSem

variable {nn : NamenodeState} {pos : BufferPos} {len blockoffset : ℕ} {data : List UInt8}
  {replies : ℕ → PacketReply}

theorem sendPackets_inv {res : ℤ} {pos' : BufferPos} {received : List SentPacket}
    (hlen : len < 2 ^ 64) (hd : Supplies pos.buffers data) (hoff : pos.bufferoffset ≤ data.length)
    (h : sendPackets nn replies pos len blockoffset = .ok (res, pos', received)) :
    BufferPos.Moved data pos pos' ∧ (res < 0 ∨ res = 0 ∧
      pos'.bufferoffset = pos.bufferoffset + len ∧ nn.Supported ∧
      Tiles nn.packetsize nn.bytesperchecksum blockoffset len ∧
      AllAcked replies (pieces nn.packetsize nn.bytesperchecksum blockoffset len) 0) := by
  obtain ⟨hmoved, hneg | ⟨hres, -, hend, hrest⟩⟩ :=
    sendPacketsLoop_inv hlen (Nat.add_zero pos.bufferoffset).symm hd hoff h
  · exact ⟨hmoved, Or.inl hneg⟩
  · exact ⟨hmoved, Or.inr ⟨hres, hend, hrest⟩⟩

theorem sendPackets_complete (hsup : nn.Supported) (hd : Supplies pos.buffers data)
    (hroom : pos.bufferoffset + len ≤ data.length) (hlimit : data.length ≤ pos.flat.length)
    (htiles : Tiles nn.packetsize nn.bytesperchecksum blockoffset len)
    (hacked : AllAcked replies (pieces nn.packetsize nn.bytesperchecksum blockoffset len) 0) :
    ∃ packets, sendPackets nn replies pos len blockoffset = .ok (0, pos.advance len, packets) ∧
      PacketsOf nn 0 blockoffset ((data.drop pos.bufferoffset).take len) packets :=
  sendPacketsLoop_complete hsup (Nat.add_zero _) hd (Nat.zero_le len) hroom (by omega) htiles
    hacked []

/-- The transfer stops at its first packet, before any data counts as sent. -/
def Stops (nn : NamenodeState) (room len blockoffset : ℕ) (reply : PacketReply) : Prop :=
  nn.Unsent room reply (piece nn.packetsize nn.bytesperchecksum blockoffset len) ∨
    len = 0 ∧ reply.acked 0 < 0

instance (nn : NamenodeState) (room len blockoffset : ℕ) (reply : PacketReply) :
    Decidable (Stops nn room len blockoffset reply) := inferInstanceAs (Decidable (_ ∨ _))

theorem sendPackets_first (nn : NamenodeState) (replies : ℕ → PacketReply) (pos : BufferPos)
    (len blockoffset : ℕ) : ∃ limit, sendPackets nn replies pos len blockoffset =
      (sendPacket nn (replies 0) 0 pos (nn.packetlen len blockoffset 0) blockoffset [] >>= fun r =>
        if r.1 < 0 then .ok r
        else if nn.packetlen len blockoffset 0 = 0 then .ok (0, r.2)
        else sendPacketsLoop nn replies pos.bufferoffset len blockoffset limit 1 r.2.1 r.2.2) :=
  ⟨_, sendPacketsLoop_succ (Nat.add_zero pos.bufferoffset).symm (by norm_num) _ 0 []⟩

theorem first_packetlen (nn : NamenodeState) (blockoffset : ℕ) (hlen : len < 2 ^ 64) :
    nn.packetlen len blockoffset 0 = piece nn.packetsize nn.bytesperchecksum blockoffset len :=
  packetlen_eq nn blockoffset hlen (Nat.zero_le len)

theorem piece_eq_zero (nn : NamenodeState) (blockoffset len : ℕ) :
    piece nn.packetsize nn.bytesperchecksum blockoffset len = 0 ↔ len = 0 := by
  refine ⟨fun h => ?_, fun h => by simp [piece, h]⟩
  by_contra hcon
  have := piece_pos nn.packetsize_pos nn.bytesperchecksum_pos (Nat.pos_of_ne_zero hcon)
    blockoffset
  omega

section Stops

variable (hlen : len < 2 ^ 64) (hd : Supplies pos.buffers data)
  (hoff : pos.bufferoffset ≤ data.length)

include hlen hd hoff

theorem sendPackets_stops
    (h : Stops nn (data.length - pos.bufferoffset) len blockoffset (replies 0)) :
    ∃ res < 0, ∃ received, sendPackets nn replies pos len blockoffset = .ok (res, pos, received) := by
  obtain ⟨limit, hrun⟩ := sendPackets_first nn replies pos len blockoffset
  have hlt := packetlen_lt nn len blockoffset 0
  have hfit := hd.lt
  rw [hrun]
  rcases sendPacket_cases hd nn (replies 0) hoff hlt 0 blockoffset [] with
    ⟨hun, hshort, -⟩ | ⟨res, hres, -, he⟩ | ⟨hsup, hdel, hroom, packet, he⟩
  · rw [first_packetlen nn blockoffset hlen] at hun hshort
    rcases h with h | ⟨h0, -⟩
    · exact absurd h hun
    · rw [(piece_eq_zero nn blockoffset len).mpr h0] at hshort
      omega
  · exact ⟨res, hres, [], by rw [he, ok_bind, if_pos hres]⟩
  · rw [first_packetlen nn blockoffset hlen] at hdel he ⊢
    rcases h with h | ⟨h0, hneg⟩
    · exact absurd h (not_unsent_iff.mpr ⟨hsup, hdel.1, fun h0 _ => hdel.2 h0⟩)
    · rw [(piece_eq_zero nn blockoffset len).mpr h0, BufferPos.advance_zero (by omega)] at he
      rw [(piece_eq_zero nn blockoffset len).mpr h0, he, ok_bind, if_pos hneg]
      exact ⟨_, hneg, _, rfl⟩

/-- Only a transfer that stops so fails with the position where it was. -/
theorem stops_of_unmoved {res : ℤ} {pos' : BufferPos} {received : List SentPacket}
    (h : sendPackets nn replies pos len blockoffset = .ok (res, pos', received)) (hres : res < 0)
    (hsame : pos'.bufferoffset = pos.bufferoffset) :
    Stops nn (data.length - pos.bufferoffset) len blockoffset (replies 0) := by
  obtain ⟨limit, hrun⟩ := sendPackets_first nn replies pos len blockoffset
  have hlt := packetlen_lt nn len blockoffset 0
  have hfit := hd.lt
  rw [hrun] at h
  rcases sendPacket_cases hd nn (replies 0) hoff hlt 0 blockoffset [] with
    ⟨-, -, e, he⟩ | ⟨r, -, hun, -⟩ | ⟨-, -, hroom, packet, he⟩
  · rw [he] at h
    cases h
  · rw [first_packetlen nn blockoffset hlen] at hun
    exact Or.inl hun
  · have hnew := pos.bufferoffset_advance (nn.packetlen len blockoffset 0) (by omega)
    rw [he, ok_bind] at h
    by_cases hneg : (replies 0).acked 0 < 0
    · rw [if_pos hneg] at h
      cases h
      rw [first_packetlen nn blockoffset hlen] at hnew hsame
      exact Or.inr ⟨(piece_eq_zero nn blockoffset len).mp (by omega), hneg⟩
    rw [if_neg hneg] at h
    by_cases h0 : nn.packetlen len blockoffset 0 = 0
    · rw [if_pos h0] at h
      cases h
      omega
    · -- a data packet was acknowledged, and the position never comes back
      rw [if_neg h0] at h
      have hmoved := (sendPacketsLoop_inv hlen hnew hd (by rw [hnew]; exact hroom) h).1.le
      omega

end Stops

def Harmless (nn : NamenodeState) (room len blockoffset : ℕ) (reply : WriteReply) : Prop :=
  reply.connect < 0 ∨ reply.call ≠ 0 ∨ Stops nn room len blockoffset (reply.packets 0)

def Completes (nn : NamenodeState) (len blockoffset : ℕ) (reply : WriteReply) : Prop :=
  0 ≤ reply.connect ∧ reply.call = 0 ∧ nn.Supported ∧
    AllAcked reply.packets (pieces nn.packetsize nn.bytesperchecksum blockoffset len) 0

/-- Every location before the first that takes all packets is harmless, and the packets of
that one tile the bytes to write, whose number is returned as an `int`. -/
def RetrySafe (nn : NamenodeState) (room len blockoffset : ℕ) : List WriteReply → Prop
  | [] => True
  | reply :: replies =>
    (Completes nn len blockoffset reply ∧ (len : ℤ) ≤ INT_MAX ∧
      Tiles nn.packetsize nn.bytesperchecksum blockoffset len) ∨
    Harmless nn room len blockoffset reply ∧ RetrySafe nn room len blockoffset replies

instance (nn : NamenodeState) (room len blockoffset : ℕ) (reply : WriteReply) :
    Decidable (Harmless nn room len blockoffset reply) := inferInstanceAs (Decidable (_ ∨ _ ∨ _))

instance (nn : NamenodeState) (len blockoffset : ℕ) (reply : WriteReply) :
    Decidable (Completes nn len blockoffset reply) := inferInstanceAs (Decidable (_ ∧ _ ∧ _ ∧ _))

instance RetrySafe.decidable (nn : NamenodeState) (room len blockoffset : ℕ) :
    ∀ replies, Decidable (RetrySafe nn room len blockoffset replies)
  | [] => isTrue trivial
  | _ :: replies =>
    have := RetrySafe.decidable nn room len blockoffset replies
    inferInstanceAs (Decidable (_ ∧ _ ∧ _ ∨ _ ∧ _))

/-- The number of bytes is returned, the bytes at the position reached a location, and the
position lies behind them; or an error is returned and the position is where it was. -/
def WriteExact (nn : NamenodeState) (pos : BufferPos) (len blockoffset : ℕ)
    (block newblock : ExtendedBlock) (locs : List (WriteOp → WriteReply)) : Prop :=
  ∃ r, writeBlock nn pos len blockoffset block newblock locs = .ok r ∧
    (r.res = len ∧ r.pos.bufferoffset = pos.bufferoffset + len ∧
      (∃ packets, r.received = some packets ∧
        packets.flatMap SentPacket.data = (pos.flat.drop pos.bufferoffset).take len) ∨
    r.res < 0 ∧ r.pos.bufferoffset = pos.bufferoffset)

/-- The position never comes back, and a location that was written took `len` bytes in
packets that tile them. -/
theorem writeLocations_inv {res res' : ℤ} {pos' : BufferPos} {out : Option (List SentPacket)}
    (hlen : len < 2 ^ 64) (hd : Supplies pos.buffers data) (hoff : pos.bufferoffset ≤ data.length)
    {replies : List WriteReply}
    (h : writeLocations nn len blockoffset replies res pos = .ok (res', pos', out)) :
    BufferPos.Moved data pos pos' ∧ (out.isSome → pos.bufferoffset + len ≤ pos'.bufferoffset ∧
      nn.Supported ∧ Tiles nn.packetsize nn.bytesperchecksum blockoffset len) := by
  induction replies generalizing res pos with
  | nil =>
    cases h
    exact ⟨⟨rfl, le_rfl, hoff⟩, by simp⟩
  | cons reply replies ih =>
    unfold writeLocations at h
    by_cases hconnect : reply.connect < 0
    · rw [if_pos hconnect] at h
      exact ih hd hoff h
    rw [if_neg hconnect] at h
    by_cases hcall : reply.call = 0
    · rw [if_pos hcall, bind_ok_iff] at h
      obtain ⟨⟨res₁, pos₁, received⟩, hsend, h⟩ := h
      obtain ⟨hmoved, hres⟩ := sendPackets_inv hlen hd hoff hsend
      simp only at h
      by_cases h0 : res₁ = 0
      · rw [if_pos h0] at h
        cases h
        rcases hres with hneg | ⟨-, hend, hsup, htiles, -⟩
        · omega
        · exact ⟨hmoved, fun _ => ⟨by omega, hsup, htiles⟩⟩
      · rw [if_neg h0] at h
        obtain ⟨hrest, hout⟩ := ih (by rw [hmoved.buffers]; exact hd) hmoved.within h
        refine ⟨hmoved.trans hrest, fun hsome => ?_⟩
        obtain ⟨hfar, hboth⟩ := hout hsome
        have := hmoved.le
        exact ⟨by omega, hboth⟩
    · rw [if_neg hcall] at h
      exact ih hd hoff h

/-- How the loop over the locations may end. -/
def Ends (data : List UInt8) (pos : BufferPos) (len : ℕ) (pos' : BufferPos) :
    Option (List SentPacket) → Prop
  | none => pos'.bufferoffset = pos.bufferoffset
  | some packets => (len : ℤ) ≤ INT_MAX ∧ pos'.bufferoffset = pos.bufferoffset + len ∧
      packets.flatMap SentPacket.data = (data.drop pos.bufferoffset).take len

theorem writeLocations_eq_sent {reply : WriteReply} (hconnect : 0 ≤ reply.connect)
    (hcall : reply.call = 0) {pos' : BufferPos} {packets : List SentPacket}
    (hsend : sendPackets nn reply.packets pos len blockoffset = .ok (0, pos', packets))
    (replies : List WriteReply) (res : ℤ) :
    writeLocations nn len blockoffset (reply :: replies) res pos =
      .ok (0, pos', some packets) := by
  rw [writeLocations, if_neg (by omega), if_pos hcall, hsend, ok_bind]
  rfl

section Locations

variable (hd : Supplies pos.buffers data) (hroom : pos.bufferoffset + len ≤ data.length)

include hd hroom

theorem writeLocations_harmless {reply : WriteReply}
    (h : Harmless nn (data.length - pos.bufferoffset) len blockoffset reply)
    (replies : List WriteReply) (res : ℤ) :
    ∃ res', writeLocations nn len blockoffset (reply :: replies) res pos =
      writeLocations nn len blockoffset replies res' pos := by
  have hfit := hd.lt
  rw [writeLocations]
  by_cases hconnect : reply.connect < 0
  · exact ⟨_, if_pos hconnect⟩
  rw [if_neg hconnect]
  by_cases hcall : reply.call = 0
  · rcases h with h | h | h
    · exact absurd h hconnect
    · exact absurd hcall h
    · obtain ⟨res₁, hneg, received, hsend⟩ := sendPackets_stops (by omega) hd (by omega) h
      refine ⟨res₁, ?_⟩
      rw [if_pos hcall, hsend, ok_bind]
      exact if_neg (by omega)
  · exact ⟨_, if_neg hcall⟩

theorem writeLocations_completes {reply : WriteReply} (h : Completes nn len blockoffset reply)
    (hlimit : data.length ≤ pos.flat.length)
    (htiles : Tiles nn.packetsize nn.bytesperchecksum blockoffset len) (replies : List WriteReply)
    (res : ℤ) : ∃ packets, writeLocations nn len blockoffset (reply :: replies) res pos =
        .ok (0, pos.advance len, some packets) ∧
      PacketsOf nn 0 blockoffset ((data.drop pos.bufferoffset).take len) packets := by
  obtain ⟨hconnect, hcall, hsup, hacked⟩ := h
  obtain ⟨packets, hsend, hrest⟩ := sendPackets_complete hsup hd hroom hlimit htiles hacked
  exact ⟨packets, writeLocations_eq_sent hconnect hcall hsend replies res, hrest⟩

theorem not_harmless_of_completes {reply : WriteReply} (h : Completes nn len blockoffset reply)
    (hlimit : data.length ≤ pos.flat.length)
    (htiles : Tiles nn.packetsize nn.bytesperchecksum blockoffset len) :
    ¬ Harmless nn (data.length - pos.bufferoffset) len blockoffset reply := by
  have hfit := hd.lt
  obtain ⟨hconnect, hcall, hsup, hacked⟩ := h
  rintro (hneg | hne | hstops)
  · omega
  · exact hne hcall
  · obtain ⟨packets, hsend, -⟩ := sendPackets_complete hsup hd hroom hlimit htiles hacked
    obtain ⟨res, hneg, received, hrun⟩ := sendPackets_stops (by omega) hd (by omega) hstops
    rw [hsend] at hrun
    have := (Prod.mk.inj (Except.ok.inj hrun)).1
    omega

/-- Any other location leaves the position where no later one can make up for it. -/
theorem not_ends_of_other {reply : WriteReply}
    (hharm : ¬ Harmless nn (data.length - pos.bufferoffset) len blockoffset reply)
    (hcomp : ¬ (Completes nn len blockoffset reply ∧
      Tiles nn.packetsize nn.bytesperchecksum blockoffset len))
    {replies : List WriteReply} {res res' : ℤ} {pos' : BufferPos} {out : Option (List SentPacket)}
    (h : writeLocations nn len blockoffset (reply :: replies) res pos = .ok (res', pos', out)) :
    ¬ Ends data pos len pos' out := by
  have hfit := hd.lt
  simp only [Harmless, not_or, not_lt, not_not] at hharm
  obtain ⟨hconnect, hcall, hstops⟩ := hharm
  rw [writeLocations, if_neg (by omega), if_pos hcall, bind_ok_iff] at h
  obtain ⟨⟨res₁, pos₁, received⟩, hsend, h⟩ := h
  obtain ⟨hmoved, hneg | ⟨-, -, hsup, htiles, hacked⟩⟩ :=
    sendPackets_inv (by omega) hd (by omega) hsend
  · have hfar : pos.bufferoffset < pos₁.bufferoffset := by
      rcases hmoved.le.lt_or_eq with hlt | heq
      · exact hlt
      · exact absurd (stops_of_unmoved (by omega) hd (by omega) hsend hneg heq.symm) hstops
    simp only at h
    rw [if_neg (by omega)] at h
    obtain ⟨hrest, hout⟩ := writeLocations_inv (by omega) (by rw [hmoved.buffers]; exact hd)
      hmoved.within h
    have hle := hrest.le
    intro hends
    cases out with
    | none =>
      have : pos'.bufferoffset = pos.bufferoffset := hends
      omega
    | some packets =>
      have := (hout rfl).1
      have := hends.2.1
      omega
  · exact absurd ⟨⟨hconnect, hcall, hsup, hacked⟩, htiles⟩ hcomp

/-- From the position a write starts at, the loop ends well exactly when the locations are
tried safely. -/
theorem writeLocations_iff (hlimit : data.length ≤ pos.flat.length) (replies : List WriteReply)
    (res : ℤ) :
    RetrySafe nn (data.length - pos.bufferoffset) len blockoffset replies ↔ ∃ res' pos' out,
      writeLocations nn len blockoffset replies res pos = .ok (res', pos', out) ∧
        Ends data pos len pos' out := by
  have hfit := hd.lt
  induction replies generalizing res with
  | nil => exact ⟨fun _ => ⟨res, pos, none, rfl, rfl⟩, fun _ => trivial⟩
  | cons reply replies ih =>
    unfold RetrySafe
    by_cases hharm : Harmless nn (data.length - pos.bufferoffset) len blockoffset reply
    · obtain ⟨res₁, hrun⟩ := writeLocations_harmless hd hroom hharm replies res
      rw [hrun]
      refine ⟨fun h => ?_, fun h => Or.inr ⟨hharm, (ih res₁).mpr h⟩⟩
      rcases h with ⟨hcomp, -, htiles⟩ | ⟨-, h⟩
      · exact absurd hharm (not_harmless_of_completes hd hroom hcomp hlimit htiles)
      · exact (ih res₁).mp h
    by_cases hcomp : Completes nn len blockoffset reply ∧
        Tiles nn.packetsize nn.bytesperchecksum blockoffset len
    · obtain ⟨packets, hrun, hpackets⟩ :=
        writeLocations_completes hd hroom hcomp.1 hlimit hcomp.2 replies res
      rw [hrun]
      refine ⟨fun h => ?_, ?_⟩
      · rcases h with ⟨-, hint, -⟩ | ⟨h, -⟩
        · exact ⟨_, _, _, rfl, hint, pos.bufferoffset_advance len (by omega),
            hpackets.flatMap_data⟩
        · exact absurd h hharm
      · rintro ⟨res', pos', out, hout, hends⟩
        cases hout
        exact Or.inl ⟨hcomp.1, hends.1, hcomp.2⟩
    · refine ⟨fun h => ?_, ?_⟩
      · rcases h with ⟨h, -, htiles⟩ | ⟨h, -⟩
        · exact absurd ⟨h, htiles⟩ hcomp
        · exact absurd h hharm
      · rintro ⟨res', pos', out, hout, hends⟩
        exact absurd hends (not_ends_of_other hd hroom hharm hcomp hout)

end Locations

/-- `hadoop_fuse_write_block` after its loop. -/
theorem writeBlock_eq {block newblock : ExtendedBlock} {locs : List (WriteOp → WriteReply)}
    (hlocs : locs ≠ []) (r : BlockWritten) :
    writeBlock nn pos len blockoffset block newblock locs = .ok r ↔ ∃ res,
      writeLocations nn len blockoffset (writeReplies block newblock
        (max (newblock.numbytes.getD 0) (blockoffset + len)) locs) 0 pos =
          .ok (res, r.pos, r.received) ∧
      (r.received.isSome ∧ r.res = asInt len ∧ r.newblock = { newblock with
          numbytes := some (max (newblock.numbytes.getD 0) (blockoffset + len)) } ∨
        r.received = none ∧ r.res = (if res < 0 then res else - EIO) ∧ r.newblock = newblock) := by
  obtain ⟨rres, rpos, rblock, rout⟩ := r
  unfold writeBlock
  simp only [hlocs, if_false]
  rw [bind_ok_iff]
  refine ⟨?_, ?_⟩
  · rintro ⟨⟨res, pos', out⟩, hrun, h⟩
    rcases out with _ | packets
    · obtain ⟨h1, rfl, h3, rfl⟩ := BlockWritten.mk.inj (Except.ok.inj h)
      exact ⟨res, hrun, Or.inr ⟨rfl, h1.symm, h3.symm⟩⟩
    · obtain ⟨h1, rfl, h3, rfl⟩ := BlockWritten.mk.inj (Except.ok.inj h)
      exact ⟨res, hrun, Or.inl ⟨rfl, h1.symm, h3.symm⟩⟩
  · rintro ⟨res, hrun, ⟨hsome, h1, h3⟩ | ⟨hnone, h1, h3⟩⟩
    · obtain ⟨packets, rfl⟩ := Option.isSome_iff_exists.mp hsome
      exact ⟨_, hrun, by rw [h1, h3]; rfl⟩
    · subst hnone
      exact ⟨_, hrun, by rw [h1, h3]; rfl⟩

/-- Packets of two bytes, one chunk each. -/
def twoBytePackets : NamenodeState where
  packetsize := 2
  bytesperchecksum := 2
  checksumtype := .null
  crc32c := fun _ => 0
  packetsize_pos := by decide
  packetsize_lt := by decide
  bytesperchecksum_pos := by decide
  bytesperchecksum_lt := by decide

def eightBytes : BufferPos := ⟨[⟨some [1, 2, 3, 4, 5, 6, 7, 8], 8, by simp⟩], 0, 8⟩

def takes (n : ℕ) : WriteOp → WriteReply := fun _ =>
  ⟨0, 0, fun seqno => ⟨if seqno < n then 0 else - EIO, 0, 0, ⟨seqno, [true]⟩⟩⟩

def unreachable : WriteOp → WriteReply := fun _ => ⟨- EIO, 0, fun _ => ⟨0, 0, 0, ⟨0, []⟩⟩⟩

/-- A write over any locations keeps to its bytes exactly when its locations are tried
safely. -/
theorem write_exact_iff (nn : NamenodeState) (pos : BufferPos) (len blockoffset : ℕ)
    (block newblock : ExtendedBlock) (locs : List (WriteOp → WriteReply)) (hlocs : locs ≠ [])
    (hfit : pos.flat.length < 2 ^ 64) (hroom : pos.bufferoffset + len ≤ pos.flat.length) :
    WriteExact nn pos len blockoffset block newblock locs ↔
      RetrySafe nn (pos.flat.length - pos.bufferoffset) len blockoffset
        (writeReplies block newblock (max (newblock.numbytes.getD 0) (blockoffset + len))
          locs) := by
  have hd := supplies_flat hfit
  rw [writeLocations_iff hd hroom le_rfl _ 0]
  unfold WriteExact
  simp only [writeBlock_eq hlocs]
  refine ⟨?_, ?_⟩
  · rintro ⟨r, ⟨res, hrun, hr⟩, h⟩
    refine ⟨res, r.pos, r.received, hrun, ?_⟩
    obtain ⟨-, hfar⟩ := writeLocations_inv (by omega) hd (by omega) hrun
    rcases hr with ⟨hsome, hres, -⟩ | ⟨hnone, -, -⟩
    · -- the number of bytes is not taken for an error
      have hle := (hfar hsome).1
      rcases h with ⟨hlen, hend, packets, hp, hflat⟩ | ⟨hneg, hsame⟩
      · rw [hp]
        refine ⟨?_, hend, hflat⟩
        rw [hlen] at hres
        exact hres ▸ asInt_le len
      · obtain rfl : len = 0 := by omega
        rw [hres] at hneg
        exact absurd hneg (by decide)
    · rw [hnone]
      rcases h with ⟨-, -, packets, hp, -⟩ | ⟨-, hsame⟩
      · rw [hnone] at hp
        cases hp
      · exact hsame
  · rintro ⟨res, pos', out, hrun, hends⟩
    rcases out with _ | packets
    · have herr : (if res < 0 then res else - EIO) < 0 := by
        split_ifs with hneg
        · exact hneg
        · decide
      exact ⟨⟨_, pos', _, none⟩, ⟨res, hrun, Or.inr ⟨rfl, rfl, rfl⟩⟩, Or.inr ⟨herr, hends⟩⟩
    · obtain ⟨hint, hend, hflat⟩ := hends
      exact ⟨⟨len, pos', _, some packets⟩,
        ⟨res, hrun, Or.inl ⟨rfl, (asInt_of_le (by omega) hint).symm, rfl⟩⟩,
        Or.inl ⟨rfl, hend, packets, rfl, hflat⟩⟩

/-- Half of the bytes, past a node that cannot be reached. -/
theorem write_exact_unreachable :
    eightBytes.bufferoffset + 4 ≤ eightBytes.flat.length ∧
      WriteExact twoBytePackets eightBytes 4 0 ⟨1, 1, none⟩ ⟨1, 1, none⟩ [unreachable, takes 8] :=
  ⟨by decide, (write_exact_iff twoBytePackets eightBytes 4 0 ⟨1, 1, none⟩ ⟨1, 1, none⟩
    [unreachable, takes 8] (by simp) (by decide) (by decide)).mpr (by decide)⟩

/-- Past a node that has acknowledged one packet, the next node takes bytes 3 to 6 for the
first four, and the write reports success. -/
theorem write_inexact_second_node :
    (writeBlock twoBytePackets eightBytes 4 0 ⟨1, 1, none⟩ ⟨1, 1, none⟩ [takes 1, takes 8]).map
        (fun r => (r.res, r.pos.bufferoffset,
          r.received.map fun packets => packets.flatMap SentPacket.data)) =
      .ok (4, 6, some [3, 4, 5, 6]) ∧
    ¬ WriteExact twoBytePackets eightBytes 4 0 ⟨1, 1, none⟩ ⟨1, 1, none⟩ [takes 1, takes 8] := by
  have hrun : (writeBlock twoBytePackets eightBytes 4 0 ⟨1, 1, none⟩ ⟨1, 1, none⟩
      [takes 1, takes 8]).map (fun r => (r.res, r.pos.bufferoffset,
        r.received.map fun packets => packets.flatMap SentPacket.data)) =
      .ok (4, 6, some [3, 4, 5, 6]) := by decide +kernel
  refine ⟨hrun, ?_⟩
  rintro ⟨r, hr, h⟩
  have hview := map_ok hrun hr
  simp only [Prod.mk.injEq] at hview
  obtain ⟨hres, hoff, -⟩ := hview
  have h0 : eightBytes.bufferoffset = 0 := rfl
  rcases h with ⟨-, hend, -⟩ | ⟨hneg, -⟩
  · omega
  · omega

end Defuse
