import Defuse.Proofs.BlockLayout
import Defuse.Proofs.KeepsData

/-! `hadoop_fuse_ftruncate` to a smaller length, in a cluster that does what it is asked: the front
of the file is left, and the blocks that lie in it are not touched. -/

namespace Defuse

open CSem

/-- The block `id` is neither written to nor given up. -/
def Request.Spares (id : ℕ) : Request → Prop
  | .writeBlock block _ _ _ => block.blockid ≠ id
  | .updateBlockForPipeline block => block.blockid ≠ id
  | .updatePipeline oldblock _ => oldblock.blockid ≠ id
  | .abandonBlock b => b.blockid ≠ id
  | _ => True

def Hdfs.keptWhole (s : Hdfs) (newlength : ℕ) : List (ℕ × StoredBlock) :=
  (placeBlocks 0 s.blocks).filter fun pb => pb.1 + pb.2.numbytes ≤ newlength

/-- The first `newlength` bytes are left. The blocks that lie in them are where they were and have
not been written to, and every block that was given up started behind them. -/
structure ShrunkTo (newlength : ℕ) (s t : Hdfs) : Prop where
  content_eq : t.content = s.content.take newlength
  kept : s.keptWhole newlength <+: placeBlocks 0 t.blocks
  requests : ∃ reqs, t.log = s.log ++ reqs ∧
    (∀ pb ∈ s.keptWhole newlength, ∀ req ∈ reqs, req.Spares pb.2.blockid) ∧
    ∀ b, .abandonBlock b ∈ reqs → ∃ dropped ∈ placeBlocks 0 s.blocks, dropped.2.extended = b ∧
      ∀ pb ∈ s.keptWhole newlength, pb.1 + pb.2.numbytes ≤ dropped.1

/-- No block is cut, or the part that is kept of it can be read and sent. -/
def Cuttable (nn : NamenodeState) (s : Hdfs) (newlength : ℕ) : Prop :=
  startBefore s.blocks (newlength + 1) = newlength ∨
    nn.Supported ∧ 0 ≤ asInt (newlength - startBefore s.blocks newlength : ℕ)

instance (nn : NamenodeState) (s : Hdfs) (newlength : ℕ) : Decidable (Cuttable nn s newlength) :=
  inferInstanceAs (Decidable (_ ∨ _ ∧ _))

variable {net : Net} {nn : NamenodeState} {s t : Hdfs} {xs ys news : List StoredBlock}
  {y : StoredBlock} {newlength depth : ℕ} {reqs : List Request}

/-! The blocks -/

theorem keptWhole_eq (hs : s.blocks = xs ++ y :: ys) (hle : total xs ≤ newlength)
    (hlt : newlength < total xs + y.numbytes) : s.keptWhole newlength = placeBlocks 0 xs := by
  unfold Hdfs.keptWhole
  rw [hs, placeBlocks_append, List.filter_append, List.filter_eq_self.mpr,
    List.filter_eq_nil_iff.mpr, List.append_nil]
  · intro pb hpb
    obtain ⟨us, vs, hus, hstart⟩ := mem_placeBlocks hpb
    simp only [decide_eq_true_eq]
    rcases us with _ | ⟨u, us⟩
    · -- the block itself
      obtain ⟨rfl, -⟩ := List.cons.inj hus
      rw [total_nil] at hstart
      omega
    · obtain ⟨rfl, -⟩ := List.cons.inj hus
      rw [total_cons] at hstart
      omega
  · intro pb hpb
    obtain ⟨us, vs, hus, hstart⟩ := mem_placeBlocks hpb
    rw [hus, total_append, total_cons] at hle
    simp only [decide_eq_true_eq]
    omega

theorem content_take (h : s.Sound) (hs : s.blocks = xs ++ y :: ys) (hle : total xs ≤ newlength)
    (hlt : newlength < total xs + y.numbytes) :
    s.content.take newlength = visible xs ++ y.bytes.take (newlength - total xs) := by
  have hxs : (visible xs).length = total xs :=
    visible_length fun x hx => h.whole x (by simp [hs, hx])
  have hy : y.bytes.length = y.numbytes := h.whole y (by simp [hs])
  rw [content_eq_visible, hs, visible_append, visible_cons, List.take_append,
    List.take_of_length_le (by omega), hxs, List.take_append_of_le_length, List.take_take,
    Nat.min_eq_left (by omega)]
  rw [List.length_take]
  omega

/-! The requests -/

/-- No block of `xs` is written to, and only blocks of `ys` are given up. -/
def Request.Trims (xs ys : List StoredBlock) : Request → Prop
  | .writeBlock block _ _ _ => ∀ x ∈ xs, block.blockid ≠ x.blockid
  | .updateBlockForPipeline block => ∀ x ∈ xs, block.blockid ≠ x.blockid
  | .updatePipeline oldblock _ => ∀ x ∈ xs, oldblock.blockid ≠ x.blockid
  | .abandonBlock b => ∃ l ∈ locatedFrom (total xs) ys, l.b = b
  | _ => True

theorem dropLog_trims (xs ys : List StoredBlock) : ∀ req ∈ dropLog xs ys, req.Trims xs ys := by
  intro req hreq
  unfold dropLog at hreq
  split_ifs at hreq with hxs
  · simp only [List.mem_cons, List.not_mem_nil, or_false] at hreq
    rcases hreq with rfl | rfl
    · trivial
    · trivial
  · rcases List.mem_cons.mp hreq with rfl | hreq
    · trivial
    · obtain ⟨l, hl, rfl⟩ := List.mem_map.mp hreq
      exact ⟨l, List.mem_reverse.mp hl, rfl⟩

theorem closing_trims (n fileid : ℕ) (last : Option ExtendedBlock) :
    ∀ req ∈ closing n fileid last, req.Trims xs ys := by
  intro req hreq
  rw [List.eq_of_mem_replicate hreq]
  trivial

theorem Request.AddsFrom.trims {fresh : ℕ} {req : Request} (h : req.AddsFrom fresh)
    (hfresh : ∀ x ∈ xs, x.blockid < fresh) : req.Trims xs ys := by
  cases req with
  | addBlock => trivial
  | writeBlock => exact fun x hx => ((hfresh x hx).trans_le h).ne'
  | _ => exact absurd h id

theorem Request.Trims.spares {req : Request} (h : req.Trims xs ys)
    (hnodup : ((xs ++ ys).map StoredBlock.blockid).Nodup) {x : StoredBlock} (hx : x ∈ xs) :
    req.Spares x.blockid := by
  cases req with
  | abandonBlock b =>
    obtain ⟨l, hl, rfl⟩ := h
    exact (located_id_ne hnodup hx hl).symm
  | writeBlock => exact h x hx
  | updateBlockForPipeline => exact h x hx
  | updatePipeline => exact h x hx
  | _ => trivial

/-- What is left when the blocks `xs` stay and the front of `y` is written behind them. -/
theorem shrunkTo_of_trims (h : s.Sound) (hs : s.blocks = xs ++ y :: ys)
    (hle : total xs ≤ newlength) (hlt : newlength < total xs + y.numbytes)
    (hblocks : t.blocks = xs ++ news) (hnews : visible news = y.bytes.take (newlength - total xs))
    (hlog : t.log = s.log ++ reqs) (htrims : ∀ req ∈ reqs, req.Trims xs (y :: ys)) :
    ShrunkTo newlength s t := by
  have hkept := keptWhole_eq hs hle hlt
  have hnodup := h.nodup
  rw [hs] at hnodup
  refine ⟨?_, ?_, reqs, hlog, ?_, ?_⟩
  · rw [content_take h hs hle hlt, content_eq_visible, hblocks, visible_append, hnews]
  · rw [hkept, hblocks, placeBlocks_append]
    exact List.prefix_append _ _
  · intro pb hpb req hreq
    rw [hkept] at hpb
    obtain ⟨us, vs, hxs, -⟩ := mem_placeBlocks hpb
    exact (htrims req hreq).spares hnodup (by simp [hxs])
  · intro b hb
    obtain ⟨l, hl, rfl⟩ := htrims _ hb
    obtain ⟨dropped, hdropped, rfl⟩ := List.mem_map.mp hl
    refine ⟨dropped, ?_, rfl, fun pb hpb => ?_⟩
    · rw [hs, placeBlocks_append, Nat.zero_add]
      exact List.mem_append_right _ hdropped
    · rw [hkept] at hpb
      obtain ⟨us, vs, hxs, hstart⟩ := mem_placeBlocks hpb
      obtain ⟨us', vs', -, hstart'⟩ := mem_placeBlocks hdropped
      rw [hstart', hstart, hxs, total_append, total_cons]
      omega

/-! The runs -/

theorem shrinkEnd_ok (hfails : ∀ k, net.fails k = none) {r : ℤ × Option ExtendedBlock × Hdfs}
    (hres : 0 ≤ r.1) : ∃ n t, shrinkEnd net r = (0, t) ∧
      t.blocks = (r.2.2.commit r.2.1).blocks ∧
      t.log = r.2.2.log ++ closing n r.2.2.fh.fileid r.2.1 := by
  obtain ⟨n, hcomplete⟩ := complete_ok hfails r.2.2.fh.fileid r.2.1 r.2.2
  unfold shrinkEnd
  rw [if_neg (not_lt.mpr hres), hcomplete]
  exact ⟨n, _, rfl, rfl, rfl⟩

theorem shrinkEnd_error (net : Net) {r : ℤ × Option ExtendedBlock × Hdfs} (hres : r.1 < 0) :
    (shrinkEnd net r).1 < 0 := by
  unfold shrinkEnd
  rw [if_pos hres]
  exact hres

theorem buffer_flat (buffer : FuseBuffer) :
    BufferPos.flat ⟨[buffer], 0, buffer.len⟩ = buffer.bytes := List.flatMap_singleton _ _

theorem buffer_feeds {buffer : FuseBuffer} (hfit : buffer.len < 2 ^ 64) :
    BufferPos.Feeds ⟨[buffer], 0, buffer.len⟩ (BufferPos.flat ⟨[buffer], 0, buffer.len⟩) := by
  have hlength := buffer.bytes_length
  refine ⟨supplies_flat ?_, le_rfl, ?_, Nat.zero_le _⟩
  · rw [buffer_flat, hlength]
    exact hfit
  · rw [buffer_flat]
    exact hlength.ge

/-- One buffer is written to new blocks behind the ones there are. -/
theorem doWrite_buffer {last : Option ExtendedBlock} (buffer : FuseBuffer)
    (hnet : ∀ k, net.ObligesAt k) (hsup : nn.Supported)
    (hpacket : nn.packetsize % nn.bytesperchecksum = 0) (h0 : 0 < s.fh.blocksize)
    (hb : s.fh.blocksize < 2 ^ 31) (hfit : buffer.len < 2 ^ 64)
    (hfresh : ∀ b ∈ s.blocks, b.blockid < s.fresh) (hlast : Settled last s.blocks) (offset : ℕ) :
    ∃ res last' t news reqs,
      doWrite net nn ⟨[buffer], 0, buffer.len⟩ offset none last s = .ok (res, last', t) ∧
      0 ≤ res ∧ (t.commit last').blocks = s.blocks ++ news ∧
      Lays s.fh.blocksize none none buffer.bytes s t news reqs := by
  have hlength := buffer.bytes_length
  have htrans : ∀ len, FillsBlocks s.fh.blocksize (buffer.len - 0) len →
      net.Transfers nn [buffer] 0 len := by
    intro len hfills
    have hle := hfills.le h0
    refine transfers_of_obliges hnet hsup ?_ (by omega)
      ((tiles_grid (Nat.zero_mod _)).mpr (Or.inl hpacket))
    rw [List.flatMap_singleton, hlength]
    exact hfit
  obtain ⟨res, last', t, news, reqs, hloop, hres, hblocks, hlays⟩ :=
    @doWriteLoop_lays net nn s ⟨[buffer], 0, buffer.len⟩ s.fh.blocksize (buffer.len + 1) 0 last
      none none (fun k => (hnet k).answers) h0 hb htrans rfl (buffer_feeds hfit) hfresh
      (Nat.lt_succ_self _) le_rfl (by simp) (by simp)
  rw [hlast.commit_eq] at hblocks
  have hrest : BufferPos.rest ⟨[buffer], 0, buffer.len⟩ buffer.bytes = buffer.bytes :=
    List.take_of_length_le hlength.le
  rw [buffer_flat, hrest] at hlays
  exact ⟨res, last', t, news, reqs, (doWrite_closed rfl last).trans hloop, hres, hblocks, hlays⟩

section Runs

variable (hnet : ∀ k, net.ObligesAt k) (h : s.Sound) (hs : s.blocks = xs ++ y :: ys)

include hnet h hs

theorem ftruncate_boundary_exact (nn : NamenodeState) (depth : ℕ) :
    ∃ t, hadoopFuseFtruncate net nn (depth + 1) (total xs) s = .ok (0, t) ∧
      ShrunkTo (total xs) s t := by
  have hpos := h.nonempty y (by simp [hs])
  have hlt : total xs < total s.blocks := by
    rw [hs, total_append, total_cons]
    omega
  obtain ⟨t, hrun, -, hblocks, -, n, fileid, last, hlog⟩ :=
    shrink_boundary nn hnet (h.logged (.getBlockLocations 0 (2 ^ 63 - 1))) hs
  have hlog' : t.log = s.log ++ (.getBlockLocations 0 (2 ^ 63 - 1) ::
      (dropLog xs (y :: ys) ++ closing n fileid last)) := by
    rw [hlog]
    simp [Hdfs.logged]
  have hblocks' : t.blocks = xs ++ [] := by rw [hblocks, List.append_nil]
  refine ⟨t, (ftruncate_shrink nn h (hnet _).answers hlt depth).trans hrun,
    shrunkTo_of_trims h hs le_rfl (by omega) hblocks' (by simp) hlog' ?_⟩
  intro req hreq
  rcases List.mem_cons.mp hreq with rfl | hreq
  · trivial
  rcases List.mem_append.mp hreq with hreq | hreq
  · exact dropLog_trims xs (y :: ys) req hreq
  · exact closing_trims n fileid last req hreq

variable (hlt : total xs < newlength) (hcut : newlength < total xs + y.numbytes)

include hlt hcut

/-- The part that is kept of a block is written to new ones. -/
theorem ftruncate_cut_exact (hsup : nn.Supported)
    (hpacket : nn.packetsize % nn.bytesperchecksum = 0) (h0 : 0 < s.fh.blocksize)
    (hb : s.fh.blocksize < 2 ^ 31) (hint : ¬ asInt (newlength - total xs : ℕ) < 0) (depth : ℕ) :
    ∃ t, hadoopFuseFtruncate net nn (depth + 1) newlength s = .ok (0, t) ∧
      ShrunkTo newlength s t := by
  have hall : total s.blocks = total xs + (y.numbytes + total ys) := by
    rw [hs, total_append, total_cons]
  have hfits := h.fits
  obtain ⟨buffer, last, s₁, hrun, hlen, hbytes, hsettled, hblocks₁, hfresh, hsize, hlog₁⟩ :=
    shrink_cut nn (h.logged (.getBlockLocations 0 (2 ^ 63 - 1))) hs hlt hcut (hnet _) (hnet _)
      (fun k _ => (hnet k).answers) hint
  have hold : ∀ x ∈ xs, x.blockid < s₁.fresh := fun x hx =>
    (h.fresh x (by simp [hs, hx])).trans_le hfresh
  change s₁.fh.blocksize = s.fh.blocksize at hsize
  obtain ⟨res, last', t, news, reqs, hwrite, hres, hblocks, hlays⟩ :=
    doWrite_buffer (s := s₁) buffer hnet hsup hpacket (by omega) (by omega) (by omega)
      (by rw [hblocks₁]; exact hold) (by rw [hblocks₁]; exact hsettled) (total xs)
  obtain ⟨n, t', hend, hblocks', hlog⟩ :=
    shrinkEnd_ok (r := (res, last', t)) (fun k => (hnet k).answers) hres
  have hlog' : t'.log = s.log ++ (.getBlockLocations 0 (2 ^ 63 - 1) ::
      .getBlockLocations (total xs) (newlength - total xs) ::
      (dropLog xs (y :: ys) ++ (reqs ++ closing n t.fh.fileid last'))) := by
    rw [hlog, hlays.log_eq, hlog₁]
    simp [Hdfs.logged]
  have hblocks'' : t'.blocks = xs ++ news := by
    rw [hblocks', hblocks, hblocks₁]
  refine ⟨t', ?_, shrunkTo_of_trims h hs hlt.le hcut hblocks'' (hlays.visible_eq.trans hbytes) hlog'
    ?_⟩
  · rw [ftruncate_shrink nn h (hnet _).answers (by omega)]
    refine hrun.trans ?_
    rw [hwrite, ok_bind, hend]
  · intro req hreq
    rcases List.mem_cons.mp hreq with rfl | hreq
    · trivial
    rcases List.mem_cons.mp hreq with rfl | hreq
    · trivial
    rcases List.mem_append.mp hreq with hreq | hreq
    · exact dropLog_trims xs (y :: ys) req hreq
    rcases List.mem_append.mp hreq with hreq | hreq
    · exact (hlays.adds req hreq).trims hold
    · exact closing_trims n _ last' req hreq

theorem ftruncate_cut_unread (nn : NamenodeState) (hneg : asInt (newlength - total xs : ℕ) < 0)
    (depth : ℕ) :
    ∃ t, hadoopFuseFtruncate net nn (depth + 1) newlength s =
      .ok (asInt (newlength - total xs : ℕ), t) ∧ t.blocks = s.blocks := by
  have hall : total s.blocks = total xs + (y.numbytes + total ys) := by
    rw [hs, total_append, total_cons]
  rw [ftruncate_shrink nn h (hnet _).answers (by omega)]
  exact ⟨_, shrink_cut_unread nn (h.logged (.getBlockLocations 0 (2 ^ 63 - 1))) hs hlt hcut (hnet _)
    (hnet _) hneg, saved_blocks _ _ _⟩

/-- Neither is one that cannot be sent. -/
theorem ftruncate_cut_unsupported (hsup : ¬ nn.Supported) (hb : s.fh.blocksize < 2 ^ 31)
    (hint : ¬ asInt (newlength - total xs : ℕ) < 0) (depth : ℕ) {res : ℤ}
    (hrun : hadoopFuseFtruncate net nn (depth + 1) newlength s = .ok (res, t)) : res < 0 := by
  have hall : total s.blocks = total xs + (y.numbytes + total ys) := by
    rw [hs, total_append, total_cons]
  have hfits := h.fits
  obtain ⟨buffer, last, s₁, hshrink, hlen, -, -, hblocks₁, hfresh, hsize, -⟩ :=
    shrink_cut nn (h.logged (.getBlockLocations 0 (2 ^ 63 - 1))) hs hlt hcut (hnet _) (hnet _)
      (fun k _ => (hnet k).answers) hint
  change s₁.fh.blocksize = s.fh.blocksize at hsize
  have hold : ∀ x ∈ s₁.blocks, x.blockid < s₁.fresh := by
    rw [hblocks₁]
    exact fun x hx => (h.fresh x (by simp [hs, hx])).trans_le hfresh
  have hwrite := hshrink.symm.trans
    ((ftruncate_shrink nn h (hnet _).answers (by omega) depth).symm.trans hrun)
  rw [bind_ok_iff] at hwrite
  obtain ⟨⟨res', last', t'⟩, hwrite, hend⟩ := hwrite
  rw [doWrite_closed rfl] at hwrite
  have hmore : 0 < buffer.len := by omega
  rcases doWriteLoop_cases hnet (buffer_feeds (by omega)) (by omega) hold hmore buffer.len 0 last
    with ⟨hsup', -⟩ | ⟨-, hneg⟩
  · exact absurd hsup' hsup
  · have hres : (res', last', t').1 < 0 := hneg res' last' t' hwrite
    have hlt' := shrinkEnd_error net hres
    rw [Except.ok.inj hend] at hlt'
    exact hlt'

end Runs

/-- The lengths to which a file is cut exactly, in a cluster that does what it is asked. -/
theorem shrinks_exactly_iff (hnet : ∀ k, net.ObligesAt k) (h : s.Sound) (h0 : 0 < s.fh.blocksize)
    (hb : s.fh.blocksize < 2 ^ 31) (hpacket : nn.packetsize % nn.bytesperchecksum = 0)
    (hn : newlength < s.filelength) (depth : ℕ) :
    (∃ t, hadoopFuseFtruncate net nn (depth + 1) newlength s = .ok (0, t) ∧
      ShrunkTo newlength s t) ↔ Cuttable nn s newlength := by
  rcases truncate_cases hn with ⟨hstart, xs, ys, hs, rfl⟩ | ⟨hne, xs, y, ys, hs, hlt, hcut, hstart⟩
  · refine iff_of_true ?_ (Or.inl hstart)
    obtain ⟨y, ys, rfl⟩ : ∃ y ys', ys = y :: ys' := by
      refine List.exists_cons_of_ne_nil ?_
      rintro rfl
      have hall : s.filelength = total xs := by
        change total s.blocks = _
        rw [hs, List.append_nil]
      omega
    exact ftruncate_boundary_exact hnet h hs nn depth
  · unfold Cuttable
    rw [hstart, or_iff_right hne]
    constructor
    · rintro ⟨t, hrun, -⟩
      have hint : ¬ asInt (newlength - total xs : ℕ) < 0 := by
        intro hneg
        obtain ⟨t', hrun', -⟩ := ftruncate_cut_unread hnet h hs hlt hcut nn hneg depth
        rw [hrun'] at hrun
        have := (Prod.mk.inj (Except.ok.inj hrun)).1
        omega
      refine ⟨?_, not_lt.mp hint⟩
      by_contra hsup
      exact lt_irrefl 0 (ftruncate_cut_unsupported hnet h hs hlt hcut hsup hb hint depth hrun)
    · rintro ⟨hsup, hint⟩
      exact ftruncate_cut_exact hnet h hs hlt hcut hsup hpacket h0 hb (not_lt.mpr hint) depth

/-- Ten bytes in blocks of four are cut to six, to eight and to none. -/
theorem shrinks_exactly_ten :
    (∃ t, hadoopFuseFtruncate obligingNet twoBytePackets 1 6
        (storedFile 4 [0, 1, 2, 3, 4, 5, 6, 7, 8, 9]) = .ok (0, t) ∧
      ShrunkTo 6 (storedFile 4 [0, 1, 2, 3, 4, 5, 6, 7, 8, 9]) t) ∧
    (∃ t, hadoopFuseFtruncate obligingNet twoBytePackets 1 8
        (storedFile 4 [0, 1, 2, 3, 4, 5, 6, 7, 8, 9]) = .ok (0, t) ∧
      ShrunkTo 8 (storedFile 4 [0, 1, 2, 3, 4, 5, 6, 7, 8, 9]) t) ∧
    ∃ t, hadoopFuseFtruncate obligingNet twoBytePackets 1 0
        (storedFile 4 [0, 1, 2, 3, 4, 5, 6, 7, 8, 9]) = .ok (0, t) ∧
      ShrunkTo 0 (storedFile 4 [0, 1, 2, 3, 4, 5, 6, 7, 8, 9]) t := by
  have hsound : (storedFile 4 [0, 1, 2, 3, 4, 5, 6, 7, 8, 9]).Sound :=
    (storedFile_holds [0, 1, 2, 3, 4, 5, 6, 7, 8, 9] (by decide) (by decide)).toSound
  have hexact : ∀ newlength < 10,
      Cuttable twoBytePackets (storedFile 4 [0, 1, 2, 3, 4, 5, 6, 7, 8, 9]) newlength →
      ∃ t, hadoopFuseFtruncate obligingNet twoBytePackets 1 newlength
          (storedFile 4 [0, 1, 2, 3, 4, 5, 6, 7, 8, 9]) = .ok (0, t) ∧
        ShrunkTo newlength (storedFile 4 [0, 1, 2, 3, 4, 5, 6, 7, 8, 9]) t := fun newlength hlt =>
    (shrinks_exactly_iff obligingNet_obliges hsound (by decide) (by decide) (by decide) hlt 0).mpr
  exact ⟨hexact 6 (by decide) (by decide), hexact 8 (by decide) (by decide),
    hexact 0 (by decide) (by decide)⟩

def oneBlock (n : ℕ) : Hdfs := ⟨[⟨0, 0, n, List.replicate n 0⟩], false, 0, 4, 1, ⟨0, 4⟩, []⟩

theorem oneBlock_sound {n : ℕ} (hpos : 0 < n) (hfit : n < 2 ^ 63) : (oneBlock n).Sound := by
  refine ⟨rfl, ?_, ?_, ?_, ?_, ?_⟩
  · simp [oneBlock]
  · simpa [oneBlock] using hpos
  · simpa [oneBlock] using hfit
  · simp [oneBlock]
  · simp [oneBlock]

theorem oneBlock_unread {n newlength : ℕ} (hpos : 0 < newlength) (hlt : newlength < n)
    (hfit : n < 2 ^ 63) (hneg : asInt newlength < 0) (nn : NamenodeState) :
    ∃ t, hadoopFuseFtruncate obligingNet nn 1 newlength (oneBlock n) = .ok (asInt newlength, t) ∧
      t.content.length = n ∧ ¬ ShrunkTo newlength (oneBlock n) t := by
  have hs : (oneBlock n).blocks = [] ++ [⟨0, 0, n, List.replicate n 0⟩] := rfl
  obtain ⟨t, hrun, hblocks⟩ := ftruncate_cut_unread obligingNet_obliges
    (oneBlock_sound (by omega) hfit) hs hpos (by rw [total_nil, Nat.zero_add]; exact hlt) nn hneg 0
  have hlength : t.content.length = n := by
    rw [content_eq_visible, hblocks]
    simp [oneBlock]
  refine ⟨t, hrun, hlength, fun hshrunk => ?_⟩
  have hle := List.length_take_le newlength (oneBlock n).content
  rw [← hshrunk.content_eq, hlength] at hle
  omega

/-- A block of 2 ^ 31 + 1 bytes is to be cut by its last byte. -/
theorem not_shrinks_huge_block :
    ∃ t, hadoopFuseFtruncate obligingNet twoBytePackets 1 (2 ^ 31) (oneBlock (2 ^ 31 + 1)) =
        .ok (- 2 ^ 31, t) ∧ t.content.length = 2 ^ 31 + 1 ∧
      ¬ ShrunkTo (2 ^ 31) (oneBlock (2 ^ 31 + 1)) t :=
  oneBlock_unread (by decide) (by decide) (by decide) (by decide) twoBytePackets

end Defuse
