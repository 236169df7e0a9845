import Defuse.Proofs.Requests

/-! `hadoop_fuse_do_write`: the last block is filled up, and what is left goes to new blocks. -/

namespace Defuse

open CSem

/-- The position lies in the buffers, and these hold `data` as far as it is written. -/
structure BufferPos.Feeds (pos : BufferPos) (data : List UInt8) : Prop where
  supplies : Supplies pos.buffers data
  limit : data.length ≤ pos.flat.length
  len_le : pos.len ≤ data.length
  off_le : pos.bufferoffset ≤ pos.len

def BufferPos.rest (pos : BufferPos) (data : List UInt8) : List UInt8 :=
  (data.drop pos.bufferoffset).take (pos.len - pos.bufferoffset)

/-- A transfer of `len` bytes to the place `blockoffset` of a block goes through, and its result
is not taken for an error. -/
def Sendable (nn : NamenodeState) (blockoffset len : ℕ) : Prop :=
  Tiles nn.packetsize nn.bytesperchecksum blockoffset len ∧ 0 ≤ asInt len

def Spreads (nn : NamenodeState) (blocksize left : ℕ) : Prop :=
  (blocksize ≤ left → Sendable nn 0 blocksize) ∧
    (left % blocksize ≠ 0 → Sendable nn 0 (left % blocksize))

instance (nn : NamenodeState) (blockoffset len : ℕ) : Decidable (Sendable nn blockoffset len) :=
  inferInstanceAs (Decidable (_ ∧ _))

instance (nn : NamenodeState) (blocksize left : ℕ) : Decidable (Spreads nn blocksize left) :=
  inferInstanceAs (Decidable ((_ → _) ∧ (_ → _)))

section Lengths

variable {nn : NamenodeState} {pos : BufferPos} {data : List UInt8} {blocksize left : ℕ}

theorem spreads_zero (nn : NamenodeState) (hb : 0 < blocksize) : Spreads nn blocksize 0 :=
  ⟨fun h => absurd h (by omega), fun h => absurd (Nat.zero_mod blocksize) h⟩

theorem spreads_iff (hb : 0 < blocksize) (hl : 0 < left) :
    Spreads nn blocksize left ↔ Sendable nn 0 (min blocksize left) ∧
      Spreads nn blocksize (left - min blocksize left) := by
  rcases Nat.lt_or_ge left blocksize with h | h
  · rw [Nat.min_eq_right (by omega), Nat.sub_self]
    unfold Spreads
    rw [Nat.mod_eq_of_lt h]
    refine ⟨fun hs => ⟨hs.2 (by omega), spreads_zero nn hb⟩, fun hs => ⟨fun hle => ?_, fun _ => hs.1⟩⟩
    omega
  · have hmod : (left - blocksize) % blocksize = left % blocksize := by
      conv_rhs => rw [← Nat.sub_add_cancel h, Nat.add_mod_right]
    rw [Nat.min_eq_left h]
    unfold Spreads
    rw [hmod]
    exact ⟨fun hs => ⟨hs.1 h, fun _ => hs.1 h, hs.2⟩, fun hs => ⟨fun _ => hs.1, hs.2.2⟩⟩

theorem bytestowrite_eq (h : pos.Feeds data) {blockoffset : ℕ} (hb : blockoffset ≤ blocksize)
    (hlt : blocksize < 2 ^ 64) : bytestowrite pos blockoffset blocksize =
      min (blocksize - blockoffset) (pos.len - pos.bufferoffset) := by
  have hfit := h.supplies.lt
  have hlen := h.len_le
  have hoff := h.off_le
  unfold bytestowrite
  congr 1
  · unfold asU64
    omega
  · unfold asU64
    omega

theorem bytestowrite_new (h : pos.Feeds data) (hlt : blocksize < 2 ^ 64) :
    bytestowrite pos 0 blocksize = min blocksize (pos.len - pos.bufferoffset) := by
  rw [bytestowrite_eq h (Nat.zero_le _) hlt, Nat.sub_zero]

theorem BufferPos.Feeds.offset_advance (h : pos.Feeds data) {n : ℕ}
    (hn : n ≤ pos.len - pos.bufferoffset) :
    (pos.advance n).bufferoffset = pos.bufferoffset + n := by
  have hfit := h.supplies.lt
  have hlen := h.len_le
  have hoff := h.off_le
  exact pos.bufferoffset_advance n (by omega)

theorem BufferPos.Feeds.left_advance (h : pos.Feeds data) {n : ℕ}
    (hn : n ≤ pos.len - pos.bufferoffset) :
    (pos.advance n).len - (pos.advance n).bufferoffset = pos.len - pos.bufferoffset - n := by
  rw [h.offset_advance hn, Nat.sub_sub]
  rfl

theorem BufferPos.Feeds.advance (h : pos.Feeds data) {n : ℕ}
    (hn : n ≤ pos.len - pos.bufferoffset) : (pos.advance n).Feeds data := by
  have hoff := h.off_le
  refine ⟨h.supplies, h.limit, h.len_le, ?_⟩
  rw [h.offset_advance hn]
  change pos.bufferoffset + n ≤ pos.len
  omega

theorem BufferPos.Feeds.rest_eq (h : pos.Feeds data) {n : ℕ}
    (hn : n ≤ pos.len - pos.bufferoffset) :
    pos.rest data = (data.drop pos.bufferoffset).take n ++ (pos.advance n).rest data := by
  have hlen : (pos.advance n).len = pos.len := rfl
  unfold BufferPos.rest
  rw [h.offset_advance hn, hlen, ← List.drop_drop, ← List.take_add]
  congr 1
  omega

end Lengths

/-! New blocks -/

section Loop

variable {net : Net} {nn : NamenodeState} {s s' : Hdfs} {pos : BufferPos} {data : List UInt8}
  {limit : ℕ} {res res' : ℤ} {last last' : Option ExtendedBlock}

/-- The file with a block of `bytes` behind its last one, which is not committed yet. -/
def Hdfs.extended (s : Hdfs) (last : Option ExtendedBlock) (bytes : List UInt8)
    (log : List Request) : Hdfs :=
  { s.commit last with
    blocks := (s.commit last).blocks ++ [⟨s.fresh, s.fresh, 0, bytes⟩]
    fresh := s.fresh + 1
    log := log }

/-- The file after `addBlock`. -/
def Hdfs.added (s : Hdfs) (last : Option ExtendedBlock) : Hdfs :=
  { s.commit last with
    blocks := (s.commit last).blocks ++ [⟨s.fresh, s.fresh, 0, []⟩]
    fresh := s.fresh + 1
    log := s.log ++ [.addBlock last s.fh.fileid] }

theorem sends_or_fails (nn : NamenodeState) (hnet : net.ObligesAt s.log.length)
    (hpos : pos.Feeds data) {n : ℕ} (hroom : pos.bufferoffset + n ≤ data.length)
    (blockoffset : ℕ) (block newblock : ExtendedBlock) :
    nn.Supported ∧ Sendable nn blockoffset n ∧
      net.Sends nn pos n blockoffset block newblock ((data.drop pos.bufferoffset).take n) s ∨
    ¬ (nn.Supported ∧ Sendable nn blockoffset n) ∧ ∀ r s',
      net.writeBlock nn pos n blockoffset block newblock s = .ok (r, s') → r.res < 0 := by
  have hlong := hpos.supplies.lt
  by_cases hgood : nn.Supported ∧ Tiles nn.packetsize nn.bytesperchecksum blockoffset n
  · have hsends := writeBlock_ok hnet hgood.1 hpos.supplies hroom hpos.limit hgood.2 block newblock
    by_cases hneg : asInt n < 0
    · -- the transfer is complete, and its length is taken for an error
      obtain ⟨received, hwrite⟩ := hsends
      refine Or.inr ⟨fun h => hneg.not_ge h.2.2, fun r s' h => ?_⟩
      rw [hwrite] at h
      rw [← (Prod.mk.inj (Except.ok.inj h)).1]
      dsimp only
      exact hneg
    · exact Or.inl ⟨hgood.1, ⟨hgood.2, not_lt.mp hneg⟩, hsends⟩
  · refine Or.inr ⟨fun h => hgood ⟨h.1, h.2.1⟩, fun r s' h => ?_⟩
    rcases writeBlock_result (by omega) hpos.supplies (by omega) h with hneg | hsent
    · exact hneg
    · exact absurd hsent hgood

theorem added_fh (s : Hdfs) (last : Option ExtendedBlock) : (s.added last).fh = s.fh :=
  commit_fh last

theorem addBlock_ok (h : net.fails s.log.length = none) (last : Option ExtendedBlock) :
    net.addBlock last s.fh.fileid s = (.ok ⟨s.fresh, s.fresh, some 0⟩, s.added last) := by
  unfold Net.addBlock Hdfs.added
  rw [request_ok h]
  cases last <;> rfl

theorem doWriteLoop_add (nn : NamenodeState) (h : net.fails s.log.length = none)
    (hmore : pos.bufferoffset < pos.len) (limit : ℕ) (res : ℤ) (last : Option ExtendedBlock) :
    doWriteLoop net nn (limit + 1) res pos last s =
      (net.writeBlock nn pos (bytestowrite pos 0 s.fh.blocksize) 0 ⟨s.fresh, s.fresh, some 0⟩
          ⟨s.fresh, s.fresh, some 0⟩ (s.added last) >>= fun r =>
        if r.1.res < 0 then .ok (r.1.res, last, (net.abandonBlock r.1.newblock r.2).2)
        else doWriteLoop net nn limit r.1.res r.1.pos (some r.1.newblock) r.2) := by
  rw [doWriteLoop, if_pos hmore, addBlock_ok h]
  simp only [added_fh]
  rfl

theorem doWriteLoop_done (net : Net) (nn : NamenodeState) (s : Hdfs)
    (hdone : ¬ pos.bufferoffset < pos.len) (limit : ℕ) (res : ℤ) (last : Option ExtendedBlock) :
    doWriteLoop net nn (limit + 1) res pos last s = .ok (res, last, s) := by
  rw [doWriteLoop, if_neg hdone]
  rfl

theorem added_written (hfresh : ∀ b ∈ s.blocks, b.blockid < s.fresh)
    (last : Option ExtendedBlock) (bytes : List UInt8) :
    updateBlock s.fresh (fun x => { x with bytes := overlay x.bytes 0 bytes })
        (s.added last).blocks =
      (s.commit last).blocks ++ [⟨s.fresh, s.fresh, 0, bytes⟩] := by
  unfold Hdfs.added
  rw [updateBlock_last (fun b hb => (commit_ids hfresh b hb).ne) rfl]
  simp [overlay]

theorem doWriteLoop_next (h : net.fails s.log.length = none) (hmore : pos.bufferoffset < pos.len)
    (hfresh : ∀ b ∈ s.blocks, b.blockid < s.fresh) {n : ℕ} {bytes : List UInt8}
    (hn : bytestowrite pos 0 s.fh.blocksize = n) (hint : 0 ≤ asInt n)
    (hsends : net.Sends nn pos n 0 ⟨s.fresh, s.fresh, some 0⟩ ⟨s.fresh, s.fresh, some 0⟩ bytes
      (s.added last)) (limit : ℕ) (res : ℤ) :
    doWriteLoop net nn (limit + 1) res pos last s =
      doWriteLoop net nn limit (asInt n) (pos.advance n) (some ⟨s.fresh, s.fresh, some n⟩)
        (s.extended last bytes (s.log ++ [.addBlock last s.fh.fileid,
          .writeBlock ⟨s.fresh, s.fresh, some 0⟩ ⟨s.fresh, s.fresh, some 0⟩ 0 n])) := by
  obtain ⟨received, hwrite⟩ := hsends
  have hlog : (s.added last).log ++ [.writeBlock ⟨s.fresh, s.fresh, some 0⟩
      ⟨s.fresh, s.fresh, some 0⟩ 0 n] = s.log ++ [.addBlock last s.fh.fileid,
        .writeBlock ⟨s.fresh, s.fresh, some 0⟩ ⟨s.fresh, s.fresh, some 0⟩ 0 n] :=
    List.append_assoc _ _ _
  rw [doWriteLoop_add nn h hmore, hn, hwrite, ok_bind]
  dsimp only
  rw [if_neg (not_lt.mpr hint), added_written hfresh, Option.getD_some, Nat.zero_add,
    Nat.max_eq_right (Nat.zero_le n)]
  unfold Hdfs.extended
  rw [← hlog]
  rfl

/-- The next block is sent, or the loop ends with an error. -/
theorem doWriteLoop_cases (hnet : ∀ k, net.ObligesAt k) (hpos : pos.Feeds data)
    (hb : s.fh.blocksize < 2 ^ 64) (hfresh : ∀ b ∈ s.blocks, b.blockid < s.fresh)
    (hmore : pos.bufferoffset < pos.len) (limit : ℕ) (res : ℤ) (last : Option ExtendedBlock) :
    let n := min s.fh.blocksize (pos.len - pos.bufferoffset)
    nn.Supported ∧ Sendable nn 0 n ∧ (∃ log, doWriteLoop net nn (limit + 1) res pos last s =
        doWriteLoop net nn limit (asInt n) (pos.advance n) (some ⟨s.fresh, s.fresh, some n⟩)
          (s.extended last ((data.drop pos.bufferoffset).take n) log)) ∨
    ¬ (nn.Supported ∧ Sendable nn 0 n) ∧ ∀ res' last' s',
      doWriteLoop net nn (limit + 1) res pos last s = .ok (res', last', s') → res' < 0 := by
  intro n
  have hlen := hpos.len_le
  have hn : bytestowrite pos 0 s.fh.blocksize = n := bytestowrite_new hpos hb
  have hrun := doWriteLoop_add nn (hnet s.log.length).answers hmore limit res last
  rw [hn] at hrun
  obtain ⟨hsup, hsendable, hsends⟩ | ⟨hbad, hfails⟩ :=
    sends_or_fails nn (hnet (s.added last).log.length) hpos
      (by omega : pos.bufferoffset + n ≤ data.length) 0 ⟨s.fresh, s.fresh, some 0⟩
      ⟨s.fresh, s.fresh, some 0⟩
  · exact Or.inl ⟨hsup, hsendable, _,
      doWriteLoop_next (hnet _).answers hmore hfresh hn hsendable.2 hsends limit res⟩
  · refine Or.inr ⟨hbad, fun res' last' s' h => ?_⟩
    rw [hrun, bind_ok_iff] at h
    obtain ⟨⟨r, s₂⟩, hwrite, h⟩ := h
    have hneg := hfails r s₂ hwrite
    rw [if_pos hneg] at h
    cases h
    exact hneg

theorem extended_fresh (hfresh : ∀ b ∈ s.blocks, b.blockid < s.fresh) (bytes : List UInt8)
    (log : List Request) :
    ∀ b ∈ (s.extended last bytes log).blocks, b.blockid < (s.extended last bytes log).fresh := by
  intro b hb
  change b.blockid < s.fresh + 1
  rcases List.mem_append.mp hb with hold | hnew
  · have := commit_ids hfresh b hold
    omega
  · rw [List.mem_singleton.mp hnew]
    exact Nat.lt_succ_self _

theorem extended_commit_blocks (hfresh : ∀ b ∈ s.blocks, b.blockid < s.fresh) (bytes : List UInt8)
    (log : List Request) (n : ℕ) :
    ((s.extended last bytes log).commit (some ⟨s.fresh, s.fresh, some n⟩)).blocks =
      (s.commit last).blocks ++ [⟨s.fresh, s.fresh, n, bytes⟩] :=
  updateBlock_last (fun b hb => (commit_ids hfresh b hb).ne) rfl

theorem extended_fh (s : Hdfs) (last : Option ExtendedBlock) (bytes : List UInt8)
    (log : List Request) :
    (s.extended last bytes log).fh = s.fh := commit_fh last

section Obliging

variable (hnet : ∀ k, net.ObligesAt k) (hpos : pos.Feeds data) (h0 : 0 < s.fh.blocksize)
  (hb : s.fh.blocksize < 2 ^ 64) (hfresh : ∀ b ∈ s.blocks, b.blockid < s.fresh)

include hnet hpos h0 hb hfresh

/-- The rest of the bytes ends up behind what was there. -/
theorem doWriteLoop_ok (hlimit : pos.len - pos.bufferoffset < limit)
    (hsup : pos.bufferoffset < pos.len → nn.Supported)
    (hspreads : Spreads nn s.fh.blocksize (pos.len - pos.bufferoffset)) (hres : 0 ≤ res)
    (last : Option ExtendedBlock) :
    ∃ res' last' s' news, doWriteLoop net nn limit res pos last s = .ok (res', last', s') ∧
      0 ≤ res' ∧ s'.fh = s.fh ∧ (s'.commit last').blocks = (s.commit last).blocks ++ news ∧
      visible news = pos.rest data := by
  induction limit generalizing res pos last s with
  | zero => omega
  | succ limit ih =>
    by_cases hmore : pos.bufferoffset < pos.len
    · obtain ⟨hsend, hrest⟩ := (spreads_iff h0 (by omega)).mp hspreads
      rcases doWriteLoop_cases hnet hpos hb hfresh hmore limit res last
        with ⟨-, -, log, hrun⟩ | ⟨hbad, -⟩
      · set n := min s.fh.blocksize (pos.len - pos.bufferoffset) with hn
        set bytes := (data.drop pos.bufferoffset).take n with hbytes
        have hle : n ≤ pos.len - pos.bufferoffset := Nat.min_le_right _ _
        have hleft := hpos.left_advance hle
        have hfh := extended_fh s last bytes log
        obtain ⟨res', last', s', news, hloop, hres', hfh', hblocks, hnews⟩ :=
          ih (hpos.advance hle) (by rw [hfh]; exact h0) (by rw [hfh]; exact hb)
            (extended_fresh hfresh bytes log) (by omega) (fun _ => hsup hmore)
            (by rw [hfh, hleft]; exact hrest) hsend.2
            (some ⟨s.fresh, s.fresh, some n⟩)
        refine ⟨res', last', s', ⟨s.fresh, s.fresh, n, bytes⟩ :: news, hrun.trans hloop, hres',
          hfh'.trans hfh, ?_, ?_⟩
        · rw [hblocks, extended_commit_blocks hfresh, List.append_assoc, List.singleton_append]
        · have hfull : bytes.take n = bytes := by
            rw [hbytes, List.take_take, Nat.min_self]
          rw [visible_cons, hnews, hfull, hpos.rest_eq hle]
      · exact absurd ⟨hsup hmore, hsend⟩ hbad
    · have hnone : pos.len - pos.bufferoffset = 0 := by omega
      refine ⟨res, last, s, [], doWriteLoop_done net nn s hmore limit res last, hres, rfl,
        (List.append_nil _).symm, ?_⟩
      rw [BufferPos.rest, hnone, List.take_zero]
      rfl

/-- Nothing else ends without an error. -/
theorem doWriteLoop_inv (hres : 0 ≤ res')
    (h : doWriteLoop net nn limit res pos last s = .ok (res', last', s')) :
    Spreads nn s.fh.blocksize (pos.len - pos.bufferoffset) ∧
      (pos.bufferoffset < pos.len → nn.Supported) := by
  induction limit generalizing res pos last s with
  | zero => cases h
  | succ limit ih =>
    by_cases hmore : pos.bufferoffset < pos.len
    · rcases doWriteLoop_cases hnet hpos hb hfresh hmore limit res last
        with ⟨hsup, hsend, log, hrun⟩ | ⟨-, hneg⟩
      · have hle : min s.fh.blocksize (pos.len - pos.bufferoffset) ≤ pos.len - pos.bufferoffset :=
          Nat.min_le_right _ _
        rw [hrun] at h
        have hrest := (ih (hpos.advance hle) (by rw [extended_fh]; exact h0)
          (by rw [extended_fh]; exact hb) (extended_fresh hfresh _ log) h).1
        rw [extended_fh, hpos.left_advance hle] at hrest
        exact ⟨(spreads_iff h0 (by omega)).mpr ⟨hsend, hrest⟩, fun _ => hsup⟩
      · have := hneg _ _ _ h
        omega
    · rw [show pos.len - pos.bufferoffset = 0 by omega]
      exact ⟨spreads_zero nn h0, fun hlt => absurd hlt hmore⟩

end Obliging

end Loop

/-! The open block -/

section OpenBlock

variable {net : Net} {nn : NamenodeState} {s s' : Hdfs} {pos : BufferPos} {data : List UInt8}
  {xs : List StoredBlock} {y : StoredBlock} {start offset blocksize : ℕ} {b : ExtendedBlock}

theorem openBlock_some (h : start ≤ offset) (hlt : offset < start + blocksize)
    (hfit : start + blocksize < 2 ^ 64) :
    openBlock (some ⟨start, b⟩) offset blocksize = some ⟨start, b⟩ := by
  have hsum : asU64 ((start : ℤ) + blocksize) = start + blocksize := by
    unfold asU64
    omega
  unfold openBlock
  simp [Option.filter, hsum, h, hlt]

theorem openBlock_none (h : start + blocksize ≤ offset) (hfit : start + blocksize < 2 ^ 64) :
    openBlock (some ⟨start, b⟩) offset blocksize = none := by
  have hsum : asU64 ((start : ℤ) + blocksize) = start + blocksize := by
    unfold asU64
    omega
  unfold openBlock
  simp [Option.filter, hsum]
  omega

theorem doWrite_closed {lastlocation : Option Located}
    (h : openBlock lastlocation offset s.fh.blocksize = none) (last : Option ExtendedBlock) :
    doWrite net nn pos offset lastlocation last s =
      doWriteLoop net nn (pos.len + 1) 0 pos last s := by
  unfold doWrite
  rw [h]

/-- The last block of the file after `bytes` were written to it. -/
def StoredBlock.written (y : StoredBlock) (generationstamp blockoffset : ℕ) (bytes : List UInt8) :
    StoredBlock :=
  ⟨y.blockid, generationstamp, max y.numbytes (blockoffset + bytes.length),
    overlay y.bytes blockoffset bytes⟩

theorem written_fresh (hfresh : ∀ b ∈ s.blocks, b.blockid < s.fresh) (hs : s.blocks = xs ++ [y])
    {y' : StoredBlock} (hid : y'.blockid = y.blockid) :
    ∀ b ∈ xs ++ [y'], b.blockid < s.fresh + 1 := by
  intro b hmem
  rcases List.mem_append.mp hmem with hold | hnew
  · exact (hfresh b (by simp [hs, hold])).trans (Nat.lt_succ_self _)
  · rw [List.mem_singleton.mp hnew, hid]
    exact (hfresh y (by simp [hs])).trans (Nat.lt_succ_self _)

def Hdfs.versioned (s : Hdfs) (b : ExtendedBlock) : Hdfs :=
  { s with fresh := s.fresh + 1, log := s.log ++ [.updateBlockForPipeline b] }

theorem doWrite_open (nn : NamenodeState) (pos : BufferPos) (h : net.fails s.log.length = none)
    (hle : start ≤ offset) (hlt : offset < start + s.fh.blocksize)
    (hfit : start + s.fh.blocksize < 2 ^ 64) (y : StoredBlock) (last : Option ExtendedBlock) :
    doWrite net nn pos offset (some ⟨start, y.extended⟩) last s =
      (net.writeBlock nn pos (bytestowrite pos (offset - start) s.fh.blocksize) (offset - start)
          y.extended ⟨y.blockid, s.fresh, some y.numbytes⟩ (s.versioned y.extended) >>= fun r =>
        if r.1.res < 0 then .ok (r.1.res, last, r.2)
        else
          match net.updatePipeline y.extended r.1.newblock r.2 with
          | (.error res, s) => .ok (res, last, s)
          | (.ok _, s) => doWriteLoop net nn (pos.len + 1) 0 r.1.pos (some r.1.newblock) s) := by
  have hupdate : net.updateBlockForPipeline y.extended s =
      (.ok ⟨y.blockid, s.fresh, some y.numbytes⟩, s.versioned y.extended) := by
    unfold Net.updateBlockForPipeline
    rw [request_ok h]
    rfl
  unfold doWrite
  rw [openBlock_some hle hlt hfit]
  dsimp only
  rw [hupdate]
  rfl

/-- The open block is sent, and the loop starts behind it. -/
theorem doWrite_next (h : ∀ k, net.fails k = none) (hs : s.blocks = xs ++ [y])
    (hid : ∀ x ∈ xs, x.blockid ≠ y.blockid) (hle : start ≤ offset)
    (hlt : offset < start + s.fh.blocksize) (hfit : start + s.fh.blocksize < 2 ^ 64) {n : ℕ}
    {bytes : List UInt8} (hn : bytestowrite pos (offset - start) s.fh.blocksize = n)
    (hbytes : bytes.length = n) (hint : 0 ≤ asInt n)
    (hsends : net.Sends nn pos n (offset - start) y.extended ⟨y.blockid, s.fresh, some y.numbytes⟩
      bytes (s.versioned y.extended)) (last : Option ExtendedBlock) :
    let y' := y.written s.fresh (offset - start) bytes
    doWrite net nn pos offset (some ⟨start, y.extended⟩) last s =
      doWriteLoop net nn (pos.len + 1) 0 (pos.advance n) (some y'.extended)
        { s with
          blocks := xs ++ [y']
          fresh := s.fresh + 1
          log := s.log ++ [.updateBlockForPipeline y.extended, .writeBlock y.extended
            ⟨y.blockid, s.fresh, some y.numbytes⟩ (offset - start) n,
            .updatePipeline y.extended y'.extended] } := by
  intro y'
  obtain ⟨received, hwrite⟩ := hsends
  have hy' : y'.extended = ⟨y.blockid, s.fresh, some (max y.numbytes (offset - start + n))⟩ := by
    rw [← hbytes]
    rfl
  have hblocks : updateBlock y.blockid (StoredBlock.commit y'.extended)
      (updateBlock y.blockid (fun x => { x with
        bytes := overlay x.bytes (offset - start) bytes }) s.blocks) = xs ++ [y'] := by
    rw [hs, updateBlock_last hid rfl]
    exact updateBlock_last hid rfl
  rw [doWrite_open nn pos (h _) hle hlt hfit, hn, hwrite, ok_bind]
  dsimp only
  rw [if_neg (not_lt.mpr hint), Option.getD_some, ← hy']
  unfold Net.updatePipeline
  rw [request_ok (h _), ← hblocks]
  simp [Hdfs.versioned, Hdfs.logged, StoredBlock.extended]

/-- The open block is filled up before the loop starts, or an error is returned. -/
theorem doWrite_open_cases (hnet : ∀ k, net.ObligesAt k) (hpos : pos.Feeds data)
    (hzero : pos.bufferoffset = 0) (hs : s.blocks = xs ++ [y])
    (hid : ∀ x ∈ xs, x.blockid ≠ y.blockid) (hle : start ≤ offset)
    (hlt : offset < start + s.fh.blocksize) (hfit : start + s.fh.blocksize < 2 ^ 64)
    (last : Option ExtendedBlock) :
    let n := min (s.fh.blocksize - (offset - start)) pos.len
    let y' := y.written s.fresh (offset - start) (data.take n)
    nn.Supported ∧ Sendable nn (offset - start) n ∧ (∃ log,
      doWrite net nn pos offset (some ⟨start, y.extended⟩) last s =
        doWriteLoop net nn (pos.len + 1) 0 (pos.advance n) (some y'.extended)
          { s with blocks := xs ++ [y'], fresh := s.fresh + 1, log := log }) ∨
    ¬ (nn.Supported ∧ Sendable nn (offset - start) n) ∧ ∀ res' last' s',
      doWrite net nn pos offset (some ⟨start, y.extended⟩) last s = .ok (res', last', s') →
        res' < 0 := by
  intro n y'
  have hlong := hpos.supplies.lt
  have hlen := hpos.len_le
  have hn : bytestowrite pos (offset - start) s.fh.blocksize = n := by
    rw [bytestowrite_eq hpos (by omega) (by omega), hzero, Nat.sub_zero]
  have hbytes : (data.take n).length = n := by
    rw [List.length_take]
    omega
  have hrun := doWrite_open nn pos (hnet _).answers hle hlt hfit y last
  rw [hn] at hrun
  obtain ⟨hsup, hsendable, hsends⟩ | ⟨hbad, hfails⟩ :=
    sends_or_fails nn (hnet (s.versioned y.extended).log.length) hpos
      (by omega : pos.bufferoffset + n ≤ data.length) (offset - start) y.extended
      ⟨y.blockid, s.fresh, some y.numbytes⟩
  · rw [hzero, List.drop_zero] at hsends
    exact Or.inl ⟨hsup, hsendable, _,
      doWrite_next (fun k => (hnet k).answers) hs hid hle hlt hfit hn hbytes hsendable.2 hsends last⟩
  · refine Or.inr ⟨hbad, fun res' last' s' h => ?_⟩
    rw [hrun, bind_ok_iff] at h
    obtain ⟨⟨r, s₂⟩, hwrite, h⟩ := h
    have hneg := hfails r s₂ hwrite
    rw [if_pos hneg] at h
    cases h
    exact hneg

end OpenBlock

end Defuse
