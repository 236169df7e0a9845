import Defuse.Proofs.OverlayWrite

/-! `hadoop_fuse_do_write` at the end of a file: which blocks the bytes go to, and in which order
the name node is asked for them. -/

namespace Defuse

open CSem

/-- A file that is open for writing. -/
structure Hdfs.Stored (s : Hdfs) : Prop where
  whole : ∀ b ∈ s.blocks, b.bytes.length = b.numbytes
  fits : total s.blocks < 2 ^ 63
  nodup : (s.blocks.map StoredBlock.blockid).Nodup
  fresh : ∀ b ∈ s.blocks, b.blockid < s.fresh

theorem Hdfs.Sound.stored {s : Hdfs} (h : s.Sound) : s.Stored :=
  ⟨h.whole, h.fits, h.nodup, h.fresh⟩

/-- `hadoop_fuse_write_block` transfers the `len` bytes at the position to the place `blockoffset`
of the block, moves the position behind them and returns `len`. -/
def Net.Transfers (net : Net) (nn : NamenodeState) (buffers : List FuseBuffer)
    (blockoffset len : ℕ) : Prop :=
  ∀ (pos : BufferPos) (block newblock : ExtendedBlock) (s : Hdfs), pos.buffers = buffers →
    pos.bufferoffset + len ≤ pos.flat.length →
    ∃ r t, net.writeBlock nn pos len blockoffset block newblock s = .ok (r, t) ∧
      r.res = len ∧ r.pos = pos.advance len ∧
      t.blocks = updateBlock block.blockid (fun x => { x with
        bytes := overlay x.bytes blockoffset ((pos.flat.drop pos.bufferoffset).take len) }) s.blocks

def FillsBlocks (blocksize n len : ℕ) : Prop :=
  0 < len ∧ (len = blocksize ∧ blocksize ≤ n ∨ len = n % blocksize)

/-- The transfers of a write of `n` bytes to the end of the file: the room in the last block first,
and then new blocks. -/
def Hdfs.WriteTransfer (s : Hdfs) (n blockoffset len : ℕ) : Prop :=
  let filled := (s.blocks.getLast?.map StoredBlock.numbytes).getD s.fh.blocksize
  let first := min (s.fh.blocksize - filled) n
  blockoffset = filled ∧ len = first ∧ 0 < len ∨
    blockoffset = 0 ∧ FillsBlocks s.fh.blocksize (n - first) len

/-! Requests -/

def Request.sent : Request → ℕ
  | .writeBlock _ _ _ len => len
  | _ => 0

/-- A block is added, or one with a number from `fresh` on is written to. -/
def Request.AddsFrom (fresh : ℕ) : Request → Prop
  | .addBlock _ _ => True
  | .writeBlock block _ _ _ => fresh ≤ block.blockid
  | _ => False

def sent (reqs : List Request) : ℕ := (reqs.map Request.sent).sum

/-- The order of the requests, with the number of bytes in the last block and the block that was
written last: no transfer goes past `blocksize`, a block is added when the last one is full, and
`previous` is the block that was written last. -/
def LaidOut (blocksize : ℕ) : Option ℕ → Option ExtendedBlock → List Request → Prop
  | _, _, [] => True
  | filled, written, .addBlock previous _ :: reqs =>
    (∀ n ∈ filled, blocksize ≤ n) ∧ (∀ b ∈ written, previous = some b) ∧
      LaidOut blocksize (some 0) written reqs
  | _, _, .writeBlock _ newblock blockoffset len :: reqs =>
    blockoffset + len ≤ blocksize ∧ LaidOut blocksize (some (blockoffset + len))
      (some { newblock with
        numbytes := some (max (newblock.numbytes.getD 0) (blockoffset + len)) }) reqs
  | filled, written, _ :: reqs => LaidOut blocksize filled written reqs

/-- New blocks that hold `bytes`, and the requests that made them. -/
structure Lays (blocksize : ℕ) (filled : Option ℕ) (written : Option ExtendedBlock)
    (bytes : List UInt8) (s t : Hdfs) (news : List StoredBlock) (reqs : List Request) : Prop where
  visible_eq : visible news = bytes
  sized : ∀ b ∈ news, b.bytes.length ≤ blocksize
  log_eq : t.log = s.log ++ reqs
  sent_eq : sent reqs = bytes.length
  laidOut : LaidOut blocksize filled written reqs
  adds : ∀ req ∈ reqs, req.AddsFrom s.fresh

/-- The file has got `bytes` at its end once `last` is committed. -/
structure Appended (bytes : List UInt8) (s : Hdfs) (last : Option ExtendedBlock) (t : Hdfs) :
    Prop where
  content_eq : (t.commit last).content = s.content ++ bytes
  sized : ∀ b ∈ (t.commit last).blocks, b ∈ s.blocks ∨ b.bytes.length ≤ s.fh.blocksize
  requests : ∃ reqs, t.log = s.log ++ reqs ∧ sent reqs = bytes.length ∧
    LaidOut s.fh.blocksize (s.blocks.getLast?.map StoredBlock.numbytes) none reqs

variable {net : Net} {nn : NamenodeState} {s t : Hdfs} {pos : BufferPos} {bytes : List UInt8}
  {blocksize blockoffset len limit : ℕ} {res : ℤ} {last written : Option ExtendedBlock}
  {filled : Option ℕ} {xs news : List StoredBlock} {y : StoredBlock} {reqs : List Request}

theorem asInt_length (h : len < 2 ^ 31) : asInt len = len := by
  refine asInt_of_le (Int.natCast_nonneg len) ?_
  unfold INT_MAX
  omega

theorem Net.Transfers.sends (h : net.Transfers nn pos.buffers blockoffset len)
    (hlen : len < 2 ^ 31) (hroom : pos.bufferoffset + len ≤ pos.flat.length)
    (block newblock : ExtendedBlock) (s : Hdfs) :
    net.Sends nn pos len blockoffset block newblock
      ((pos.flat.drop pos.bufferoffset).take len) s := by
  obtain ⟨r, t, hrun, hres, hpos, hblocks⟩ := h pos block newblock s rfl hroom
  obtain ⟨-, hout, packets, -, ht⟩ := writeBlock_inv hrun
  have hnew : r.newblock = { newblock with
      numbytes := some (max (newblock.numbytes.getD 0) (blockoffset + len)) } := by
    rcases hout with ⟨-, -, hnew⟩ | ⟨-, hneg, -⟩
    · exact hnew
    · -- a transfer that failed does not return a length
      omega
  have hr : (⟨asInt len, pos.advance len, { newblock with
      numbytes := some (max (newblock.numbytes.getD 0) (blockoffset + len)) }, r.received⟩ :
        BlockWritten) = r := by
    rw [asInt_length hlen, ← hres, ← hpos, ← hnew]
  refine ⟨r.received, ?_⟩
  rw [hr, hrun, ← hblocks, ht]

theorem transfers_of_obliges (hnet : ∀ k, net.ObligesAt k) (hsup : nn.Supported)
    {buffers : List FuseBuffer} (hfit : (buffers.flatMap FuseBuffer.bytes).length < 2 ^ 64)
    (hlen : len < 2 ^ 31) (htiles : Tiles nn.packetsize nn.bytesperchecksum blockoffset len) :
    net.Transfers nn buffers blockoffset len := by
  rintro pos block newblock s rfl hroom
  obtain ⟨received, hwrite⟩ := writeBlock_ok (hnet s.log.length) hsup (supplies_flat hfit) hroom
    le_rfl htiles block newblock
  refine ⟨_, _, hwrite, ?_, rfl, rfl⟩
  dsimp only
  rw [asInt_length hlen]

/-! New blocks -/

theorem Request.AddsFrom.mono {req : Request} {m n : ℕ} (h : req.AddsFrom n) (hle : m ≤ n) :
    req.AddsFrom m := by
  cases req with
  | addBlock => trivial
  | writeBlock => exact hle.trans h
  | _ => exact h

theorem lays_nil (h : t.log = s.log) : Lays blocksize filled written [] s t [] [] :=
  ⟨rfl, by simp, by simp [h], rfl, trivial, by simp⟩

/-- One more block in front. -/
theorem Lays.next {n : ℕ} (hn : bytes.length = n) (hle : n ≤ blocksize)
    (hfull : ∀ m ∈ filled, blocksize ≤ m) (hprev : ∀ b ∈ written, last = some b)
    {bytes' : List UInt8}
    (h : Lays blocksize (some n) (some ⟨s.fresh, s.fresh, some n⟩) bytes'
      (s.extended last bytes (s.log ++ [.addBlock last s.fh.fileid,
        .writeBlock ⟨s.fresh, s.fresh, some 0⟩ ⟨s.fresh, s.fresh, some 0⟩ 0 n])) t news reqs) :
    Lays blocksize filled written (bytes ++ bytes') s t (⟨s.fresh, s.fresh, n, bytes⟩ :: news)
      (.addBlock last s.fh.fileid :: .writeBlock ⟨s.fresh, s.fresh, some 0⟩
        ⟨s.fresh, s.fresh, some 0⟩ 0 n :: reqs) := by
  obtain ⟨hvisible, hsized, hlog, hsent, hlaid, hadds⟩ := h
  refine ⟨?_, ?_, ?_, ?_, ⟨hfull, hprev, by omega, ?_⟩, ?_⟩
  · rw [visible_cons, hvisible, ← hn, List.take_length]
  · intro b hb
    rcases List.mem_cons.mp hb with rfl | hb
    · exact hn.trans_le hle
    · exact hsized b hb
  · rw [hlog]
    simp [Hdfs.extended]
  · rw [List.length_append, hn, ← hsent]
    simp [sent, Request.sent]
  · simpa using hlaid
  · intro req hreq
    rcases List.mem_cons.mp hreq with rfl | hreq
    · trivial
    rcases List.mem_cons.mp hreq with rfl | hreq
    · exact le_rfl
    · exact (hadds req hreq).mono (Nat.le_succ _)

section FillsBlocks

variable {n : ℕ}

theorem FillsBlocks.le (h : FillsBlocks blocksize n len) (h0 : 0 < blocksize) : len ≤ blocksize := by
  rcases h.2 with ⟨rfl, -⟩ | rfl
  · exact le_rfl
  · exact (Nat.mod_lt n h0).le

theorem fillsBlocks_first (h0 : 0 < blocksize) (hn : 0 < n) :
    FillsBlocks blocksize n (min blocksize n) := by
  rcases Nat.lt_or_ge n blocksize with hlt | hge
  · rw [Nat.min_eq_right hlt.le]
    exact ⟨hn, Or.inr (Nat.mod_eq_of_lt hlt).symm⟩
  · rw [Nat.min_eq_left hge]
    exact ⟨h0, Or.inl ⟨rfl, hge⟩⟩

theorem FillsBlocks.rest (h : FillsBlocks blocksize (n - min blocksize n) len) :
    FillsBlocks blocksize n len := by
  obtain ⟨hpos, hfull | hlast⟩ := h
  · exact ⟨hpos, Or.inl ⟨hfull.1, by omega⟩⟩
  · rcases Nat.lt_or_ge n blocksize with hlt | hge
    · rw [Nat.min_eq_right hlt.le, Nat.sub_self, Nat.zero_mod] at hlast
      omega
    · rw [Nat.min_eq_left hge] at hlast
      refine ⟨hpos, Or.inr ?_⟩
      rw [hlast]
      conv_rhs => rw [← Nat.sub_add_cancel hge, Nat.add_mod_right]

end FillsBlocks

/-- The loop puts the rest of the buffers into new blocks. -/
theorem doWriteLoop_lays (hfails : ∀ k, net.fails k = none) (h0 : 0 < blocksize)
    (hb : blocksize < 2 ^ 31)
    (htrans : ∀ len, FillsBlocks blocksize (pos.len - pos.bufferoffset) len →
      net.Transfers nn pos.buffers 0 len)
    (hsize : s.fh.blocksize = blocksize) (hpos : pos.Feeds pos.flat)
    (hfresh : ∀ b ∈ s.blocks, b.blockid < s.fresh) (hlimit : pos.len - pos.bufferoffset < limit)
    (hres : 0 ≤ res) (hfull : pos.bufferoffset < pos.len → ∀ m ∈ filled, blocksize ≤ m)
    (hprev : ∀ b ∈ written, last = some b) :
    ∃ res' last' t news reqs, doWriteLoop net nn limit res pos last s = .ok (res', last', t) ∧
      0 ≤ res' ∧ (t.commit last').blocks = (s.commit last).blocks ++ news ∧
      Lays blocksize filled written (pos.rest pos.flat) s t news reqs := by
  induction limit generalizing res pos last s filled written with
  | zero => omega
  | succ limit ih =>
    by_cases hmore : pos.bufferoffset < pos.len
    · obtain ⟨n, hn⟩ : ∃ n, n = min blocksize (pos.len - pos.bufferoffset) := ⟨_, rfl⟩
      have hle : n ≤ pos.len - pos.bufferoffset := hn ▸ Nat.min_le_right _ _
      have hlen := hpos.len_le
      have hwrite : bytestowrite pos 0 s.fh.blocksize = n := by
        rw [bytestowrite_new hpos (by omega), hsize, hn]
      have hint : 0 ≤ asInt n := by
        rw [asInt_length (by omega)]
        omega
      have hfirst : FillsBlocks blocksize (pos.len - pos.bufferoffset) n :=
        hn ▸ fillsBlocks_first h0 (by omega)
      have hnext := doWriteLoop_next (hfails _) hmore hfresh hwrite hint
        ((htrans n hfirst).sends (by omega) (by omega)
          ⟨s.fresh, s.fresh, some 0⟩ ⟨s.fresh, s.fresh, some 0⟩ (s.added last)) limit res
      have hoff := hpos.offset_advance hle
      have hlen' : (pos.advance n).len = pos.len := rfl
      -- a round that leaves something has filled its block
      have hfilled : (pos.advance n).bufferoffset < (pos.advance n).len →
          ∀ m ∈ some n, blocksize ≤ m := by
        intro hlt m hm
        cases hm
        omega
      have htrans' : ∀ len, FillsBlocks blocksize ((pos.advance n).len - (pos.advance n).bufferoffset)
          len → net.Transfers nn pos.buffers 0 len := by
        intro len hlen
        rw [hlen', hoff, ← Nat.sub_sub, hn] at hlen
        exact htrans len hlen.rest
      obtain ⟨res', last', t, news, reqs, hloop, hres', hblocks, hlays⟩ :=
        @ih _ (pos.advance n) (asInt n) (some ⟨s.fresh, s.fresh, some n⟩)
          (some ⟨s.fresh, s.fresh, some n⟩) (some n) htrans'
          ((congrArg FileHandle.blocksize (extended_fh s last _ _)).trans hsize) (hpos.advance hle)
          (extended_fresh hfresh _ _) (by omega) hint hfilled (fun b hb => hb)
      have hbytes : ((pos.flat.drop pos.bufferoffset).take n).length = n := by
        rw [List.length_take, List.length_drop]
        omega
      have hall := hlays.next hbytes (by omega) (hfull hmore) hprev
      have hflat : (pos.advance n).flat = pos.flat := rfl
      rw [hflat, ← hpos.rest_eq hle] at hall
      refine ⟨res', last', t, _, _, hnext.trans hloop, hres', ?_, hall⟩
      rw [hblocks, extended_commit_blocks hfresh, List.append_assoc, List.singleton_append]
    · have hnone : pos.rest pos.flat = [] := by
        rw [BufferPos.rest, show pos.len - pos.bufferoffset = 0 by omega, List.take_zero]
      refine ⟨res, last, s, [], [], ?_, hres, (List.append_nil _).symm, ?_⟩
      · rw [doWriteLoop, if_neg hmore]
        rfl
      · rw [hnone]
        exact lays_nil rfl

/-! The whole write -/

theorem content_eq_visible (s : Hdfs) : s.content = visible s.blocks := rfl

/-- Without room in the last block all bytes go to new ones. -/
theorem doWrite_appends_closed {lastlocation : Option Located} {offset : ℕ} (hs : s.Stored)
    (hfails : ∀ k, net.fails k = none) (h0 : 0 < s.fh.blocksize) (hb : s.fh.blocksize < 2 ^ 31)
    (hzero : pos.bufferoffset = 0) (hlen : pos.len = pos.flat.length) (hpos : pos.Feeds pos.flat)
    (htrans : ∀ len, FillsBlocks s.fh.blocksize pos.len len → net.Transfers nn pos.buffers 0 len)
    (hlast : Settled last s.blocks)
    (hnone : openBlock lastlocation offset s.fh.blocksize = none)
    (hfull : ∀ y ∈ s.blocks.getLast?, s.fh.blocksize ≤ y.numbytes) :
    ∃ res last' t, doWrite net nn pos offset lastlocation last s = .ok (res, last', t) ∧
      0 ≤ res ∧ Appended pos.flat s last' t := by
  obtain ⟨res, last', t, news, reqs, hrun, hres, hblocks, hlays⟩ :=
    @doWriteLoop_lays net nn s pos s.fh.blocksize (pos.len + 1) 0 last none
      (s.blocks.getLast?.map StoredBlock.numbytes) hfails h0 hb
      (fun len hfills => htrans len (by rwa [hzero, Nat.sub_zero] at hfills)) rfl hpos hs.fresh
      (by omega) le_rfl (fun _ => by simpa using hfull) (by simp)
  have hrest : pos.rest pos.flat = pos.flat := by
    rw [BufferPos.rest, hzero, hlen, List.drop_zero, Nat.sub_zero, List.take_length]
  rw [hrest] at hlays
  rw [hlast.commit_eq] at hblocks
  refine ⟨res, last', t, ?_, hres, ?_, ?_, reqs, hlays.log_eq, hlays.sent_eq, hlays.laidOut⟩
  · rw [doWrite_closed hnone]
    exact hrun
  · rw [content_eq_visible, hblocks, visible_append, hlays.visible_eq]
    rfl
  · intro b hb
    rw [hblocks] at hb
    exact (List.mem_append.mp hb).imp_right (hlays.sized b)

def StoredBlock.grown (y : StoredBlock) (generationstamp : ℕ) (bytes : List UInt8) : StoredBlock :=
  ⟨y.blockid, generationstamp, y.numbytes + bytes.length, y.bytes ++ bytes⟩

/-- The file after `bytes` were written to the end of its last block. -/
def Hdfs.toppedUp (s : Hdfs) (xs : List StoredBlock) (y : StoredBlock) (bytes : List UInt8) : Hdfs :=
  { s with
    blocks := xs ++ [y.grown s.fresh bytes]
    fresh := s.fresh + 1
    log := s.log ++ [.updateBlockForPipeline y.extended,
      .writeBlock y.extended ⟨y.blockid, s.fresh, some y.numbytes⟩ y.numbytes bytes.length,
      .updatePipeline y.extended (y.grown s.fresh bytes).extended] }

theorem written_end (hy : y.bytes.length = y.numbytes) (generationstamp : ℕ) (bytes : List UInt8) :
    y.written generationstamp y.numbytes bytes = y.grown generationstamp bytes := by
  have hmax : max y.numbytes (y.numbytes + bytes.length) = y.numbytes + bytes.length := by omega
  unfold StoredBlock.written StoredBlock.grown
  rw [hmax]
  nth_rewrite 2 [← hy]
  rw [overlay_end]

theorem toppedUp_settled (hnodup : ((xs ++ [y]).map StoredBlock.blockid).Nodup) (s : Hdfs)
    (bytes : List UInt8) :
    Settled (some (y.grown s.fresh bytes).extended) (s.toppedUp xs y bytes).blocks := by
  have hids : (s.toppedUp xs y bytes).blocks.map StoredBlock.blockid =
      (xs ++ [y]).map StoredBlock.blockid := by
    simp [Hdfs.toppedUp, StoredBlock.grown]
  exact settled_recorded (hids ▸ hnodup) (by simp [Hdfs.toppedUp])

theorem toppedUp_fresh (hfresh : ∀ b ∈ s.blocks, b.blockid < s.fresh) (hxs : s.blocks = xs ++ [y])
    (bytes : List UInt8) :
    ∀ b ∈ (s.toppedUp xs y bytes).blocks, b.blockid < (s.toppedUp xs y bytes).fresh :=
  written_fresh hfresh hxs rfl

/-- Room in the last block is filled before the loop. -/
theorem doWrite_fills (hs : s.Stored) (hxs : s.blocks = xs ++ [y])
    (hfails : ∀ k, net.fails k = none) (hb : s.fh.blocksize < 2 ^ 31)
    (hroom : y.numbytes < s.fh.blocksize) (hzero : pos.bufferoffset = 0)
    (hpos : pos.Feeds pos.flat) (hlen : len = min (s.fh.blocksize - y.numbytes) pos.len)
    (htrans : net.Transfers nn pos.buffers y.numbytes len) (last : Option ExtendedBlock) :
    doWrite net nn pos (total xs + y.numbytes) (some ⟨total xs, y.extended⟩) last s =
      doWriteLoop net nn (pos.len + 1) 0 (pos.advance len)
        (some (y.grown s.fresh (pos.flat.take len)).extended)
        (s.toppedUp xs y (pos.flat.take len)) := by
  have hle := hpos.len_le
  have hoffset : total xs + y.numbytes - total xs = y.numbytes := by omega
  have hfits := hs.fits
  rw [hxs, total_append, total_cons, total_nil] at hfits
  have hnodup := hs.nodup
  rw [hxs] at hnodup
  have hlength : (pos.flat.take len).length = len := by
    rw [List.length_take]
    omega
  have hwrite : bytestowrite pos y.numbytes s.fh.blocksize = len := by
    rw [bytestowrite_eq hpos hroom.le (by omega), hzero, Nat.sub_zero, hlen]
  have hint : 0 ≤ asInt len := by
    rw [asInt_length (by omega)]
    omega
  have hsends := htrans.sends (by omega) (by omega) y.extended
    ⟨y.blockid, s.fresh, some y.numbytes⟩ (s.versioned y.extended)
  rw [hzero, List.drop_zero] at hsends
  have hnext := @doWrite_next net nn s pos xs y (total xs) (total xs + y.numbytes) hfails hxs
    (last_id_of_nodup hnodup) (by omega) (by omega) (by omega) len (pos.flat.take len)
    (by rw [hoffset]; exact hwrite) hlength hint (by rw [hoffset]; exact hsends) last
  dsimp only at hnext
  rw [hoffset, written_end (hs.whole y (by simp [hxs]))] at hnext
  unfold Hdfs.toppedUp
  rw [hlength]
  exact hnext

/-- What the loop adds then stands behind the filled block. -/
theorem Lays.fills (hs : s.Stored) (hxs : s.blocks = xs ++ [y])
    (hle : y.numbytes + bytes.length ≤ s.fh.blocksize)
    (hblocks : (t.commit last).blocks = (s.toppedUp xs y bytes).blocks ++ news)
    {bytes' : List UInt8}
    (h : Lays s.fh.blocksize (some (y.numbytes + bytes.length))
      (some (y.grown s.fresh bytes).extended) bytes' (s.toppedUp xs y bytes) t news reqs) :
    Appended (bytes ++ bytes') s last t := by
  obtain ⟨hvisible, hsized, hlog, hsent, hlaid, -⟩ := h
  have hy : y.bytes.length = y.numbytes := hs.whole y (by simp [hxs])
  have hbytes : (y.grown s.fresh bytes).bytes.length = y.numbytes + bytes.length := by
    rw [← hy]
    exact List.length_append
  have hmax : max y.numbytes (y.numbytes + bytes.length) = y.numbytes + bytes.length := by omega
  refine ⟨?_, ?_, .updateBlockForPipeline y.extended ::
    .writeBlock y.extended ⟨y.blockid, s.fresh, some y.numbytes⟩ y.numbytes bytes.length ::
    .updatePipeline y.extended (y.grown s.fresh bytes).extended :: reqs, ?_, ?_, hle, ?_⟩
  · have hgrown : (y.grown s.fresh bytes).bytes.take (y.grown s.fresh bytes).numbytes =
        y.bytes ++ bytes := List.take_of_length_le hbytes.le
    have hold : y.bytes.take y.numbytes = y.bytes := List.take_of_length_le hy.le
    rw [content_eq_visible, content_eq_visible, hblocks, hxs]
    change visible (xs ++ [y.grown s.fresh bytes] ++ news) = _
    simp only [visible_append, visible_cons, visible_nil, List.append_nil, hvisible, hgrown, hold,
      List.append_assoc]
  · intro b hb
    rw [hblocks] at hb
    rcases List.mem_append.mp hb with hb | hb
    · rcases List.mem_append.mp hb with hb | hb
      · exact Or.inl (by simp [hxs, hb])
      · rw [List.mem_singleton.mp hb, hbytes]
        exact Or.inr hle
    · exact Or.inr (hsized b hb)
  · rw [hlog]
    simp [Hdfs.toppedUp]
  · rw [List.length_append, ← hsent]
    simp [sent, Request.sent]
  · rw [Option.getD_some, hmax]
    exact hlaid

theorem doWrite_appends_open (hs : s.Stored) (hxs : s.blocks = xs ++ [y])
    (hfails : ∀ k, net.fails k = none) (hb : s.fh.blocksize < 2 ^ 31)
    (hzero : pos.bufferoffset = 0) (hlen : pos.len = pos.flat.length) (h0 : 0 < pos.len)
    (hpos : pos.Feeds pos.flat)
    (hfirst : net.Transfers nn pos.buffers y.numbytes (min (s.fh.blocksize - y.numbytes) pos.len))
    (htrans : ∀ len, FillsBlocks s.fh.blocksize
      (pos.len - min (s.fh.blocksize - y.numbytes) pos.len) len → net.Transfers nn pos.buffers 0 len)
    (hroom : y.numbytes < s.fh.blocksize) (last : Option ExtendedBlock) :
    ∃ res last' t, doWrite net nn pos (total xs + y.numbytes) (some ⟨total xs, y.extended⟩) last s =
      .ok (res, last', t) ∧ 0 ≤ res ∧ Appended pos.flat s last' t := by
  obtain ⟨n, hn⟩ : ∃ n, n = min (s.fh.blocksize - y.numbytes) pos.len := ⟨_, rfl⟩
  have hle : n ≤ pos.len - pos.bufferoffset := by omega
  have hoff := hpos.offset_advance hle
  have hend : (pos.advance n).len = pos.len := rfl
  rw [← hn] at hfirst htrans
  have hfills := doWrite_fills hs hxs hfails hb hroom hzero hpos hn hfirst last
  obtain ⟨bytes, hbytes⟩ : ∃ bytes, bytes = pos.flat.take n := ⟨_, rfl⟩
  have hlength : bytes.length = n := by
    rw [hbytes, List.length_take]
    omega
  rw [← hbytes] at hfills
  -- with bytes left over the block has been filled up
  have hfull : (pos.advance n).bufferoffset < (pos.advance n).len →
      ∀ m ∈ some (y.numbytes + bytes.length), s.fh.blocksize ≤ m := by
    intro hlt m hm
    cases hm
    omega
  obtain ⟨res, last', t, news, reqs, hloop, hres, hblocks, hlays⟩ :=
    @doWriteLoop_lays net nn (s.toppedUp xs y bytes) (pos.advance n) s.fh.blocksize (pos.len + 1) 0
      (some (y.grown s.fresh bytes).extended) (some (y.grown s.fresh bytes).extended)
      (some (y.numbytes + bytes.length)) hfails (by omega) hb
      (fun len hlen => htrans len (by rwa [hend, hoff, hzero, Nat.zero_add] at hlen)) rfl
      (hpos.advance hle) (toppedUp_fresh hs.fresh hxs bytes) (by omega) le_rfl hfull (fun b hb => hb)
  have hnodup := hs.nodup
  rw [hxs] at hnodup
  rw [(toppedUp_settled hnodup s bytes).commit_eq] at hblocks
  have hall : pos.rest pos.flat = pos.flat := by
    rw [BufferPos.rest, hzero, hlen, List.drop_zero, Nat.sub_zero, List.take_length]
  have hsplit := hpos.rest_eq hle
  rw [hall, hzero, List.drop_zero, ← hbytes] at hsplit
  refine ⟨res, last', t, hfills.trans hloop, hres, ?_⟩
  rw [hsplit]
  exact hlays.fills hs hxs (by omega) hblocks

/-- `hadoop_fuse_do_write` at the end of a file, when every request succeeds and every transfer it
makes is complete: it returns, all bytes stand behind the old ones, and blocks are filled one after
the other. -/
theorem doWrite_lays_out (hs : s.Stored) (hfails : ∀ k, net.fails k = none)
    (h0 : 0 < s.fh.blocksize) (hb : s.fh.blocksize < 2 ^ 31) (hzero : pos.bufferoffset = 0)
    (hlen : pos.len = pos.flat.length) (hpos : 0 < pos.len) (hfit : pos.len < 2 ^ 64)
    (htrans : ∀ blockoffset len, s.WriteTransfer pos.len blockoffset len →
      net.Transfers nn pos.buffers blockoffset len)
    (hlast : Settled last s.blocks) :
    ∃ res last' t, doWrite net nn pos s.filelength (locatedFrom 0 s.blocks).getLast? last s =
      .ok (res, last', t) ∧ 0 ≤ res ∧ Appended pos.flat s last' t := by
  have hfeeds : pos.Feeds pos.flat :=
    ⟨supplies_flat (by omega), le_rfl, hlen.le, by omega⟩
  unfold Hdfs.WriteTransfer at htrans
  rcases List.eq_nil_or_concat' s.blocks with hnil | ⟨xs, y, hxs⟩
  · rw [hnil] at htrans
    have hnew : ∀ len, FillsBlocks s.fh.blocksize pos.len len → net.Transfers nn pos.buffers 0 len :=
      fun len hfills => htrans 0 len (Or.inr ⟨rfl, by simpa using hfills⟩)
    refine doWrite_appends_closed hs hfails h0 hb hzero hlen hfeeds hnew hlast ?_ ?_
    · rw [hnil]
      rfl
    · rw [hnil]
      simp
  · have hend : s.filelength = total xs + y.numbytes := by
      change total s.blocks = _
      rw [hxs, total_append, total_cons, total_nil, Nat.add_zero]
    have hloc : (locatedFrom 0 s.blocks).getLast? = some ⟨total xs, y.extended⟩ := by
      rw [hxs, locatedFrom_append]
      simp
    have hfits := hs.fits
    rw [hxs, total_append, total_cons, total_nil] at hfits
    have hfilled : (s.blocks.getLast?.map StoredBlock.numbytes).getD s.fh.blocksize = y.numbytes := by
      rw [hxs, List.getLast?_concat]
      rfl
    rw [hfilled] at htrans
    rw [hend, hloc]
    by_cases hroom : y.numbytes < s.fh.blocksize
    · exact doWrite_appends_open hs hxs hfails hb hzero hlen hpos hfeeds
        (htrans _ _ (Or.inl ⟨rfl, rfl, by omega⟩))
        (fun len hfills => htrans 0 len (Or.inr ⟨rfl, hfills⟩)) hroom last
    · have hfull : s.fh.blocksize - y.numbytes = 0 := by omega
      have hnew : ∀ len, FillsBlocks s.fh.blocksize pos.len len →
          net.Transfers nn pos.buffers 0 len := by
        intro len hfills
        refine htrans 0 len (Or.inr ⟨rfl, ?_⟩)
        rwa [hfull, Nat.zero_min, Nat.sub_zero]
      refine doWrite_appends_closed hs hfails h0 hb hzero hlen hfeeds hnew hlast ?_ ?_
      · exact openBlock_none (by omega) (by omega)
      · rw [hxs]
        simpa using hroom

/-- Packets of two checksum chunks of five bytes. -/
def tenBytePackets : NamenodeState :=
  { twoBytePackets with
    packetsize := 10
    bytesperchecksum := 5
    packetsize_pos := by decide
    packetsize_lt := by decide
    bytesperchecksum_pos := by decide
    bytesperchecksum_lt := by decide }

def tenBytes : BufferPos := ⟨[.ofBytes [1, 2, 3], .zeros 7], 0, 10⟩

/-- One byte fits into the last block, five fill the next one. -/
theorem doWrite_lays_out_over_three_blocks :
    ∃ res last' t, doWrite obligingNet tenBytePackets tenBytes
        (storedFile 5 [0, 1, 2, 3, 4, 5, 6, 7, 8]).filelength
        (locatedFrom 0 (storedFile 5 [0, 1, 2, 3, 4, 5, 6, 7, 8]).blocks).getLast? none
        (storedFile 5 [0, 1, 2, 3, 4, 5, 6, 7, 8]) = .ok (res, last', t) ∧ 0 ≤ res ∧
      Appended tenBytes.flat (storedFile 5 [0, 1, 2, 3, 4, 5, 6, 7, 8]) last' t := by
  refine doWrite_lays_out (storedFile_holds [0, 1, 2, 3, 4, 5, 6, 7, 8] (by decide)
    (by decide)).stored (fun _ => rfl) (by decide) (by decide) rfl rfl (by decide) (by decide)
    (fun blockoffset len htransfer => ?_) (settled_none _)
  have hcases : blockoffset = 4 ∧ len = 1 ∨ blockoffset = 0 ∧ (len = 5 ∨ len = 4) := by
    rcases htransfer with ⟨hoff, hlen, -⟩ | ⟨hoff, -, ⟨hlen, -⟩ | hlen⟩
    · exact Or.inl ⟨hoff, hlen⟩
    · exact Or.inr ⟨hoff, Or.inl hlen⟩
    · exact Or.inr ⟨hoff, Or.inr hlen⟩
  obtain ⟨hlt, htiles⟩ : len < 2 ^ 31 ∧ Tiles 10 5 blockoffset len := by
    rcases hcases with ⟨rfl, rfl⟩ | ⟨rfl, rfl | rfl⟩ <;> decide
  exact transfers_of_obliges obligingNet_obliges (by decide) (by decide) hlt htiles

end Defuse
