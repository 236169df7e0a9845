import Defuse.Proofs.SaveAround
import Defuse.Proofs.WriteBuffers

/-! `hadoop_fuse_write` on a file of blocks of one size, in a cluster that does what it is asked:
the offsets and lengths at which it writes over the content and leaves the rest. -/

namespace Defuse

open CSem

/-- A file that holds `content` in blocks of the handle's size; only the last one is shorter. -/
structure HoldsFile (blocksize : ℕ) (content : List UInt8) (s : Hdfs) : Prop extends s.Sound where
  blocksize_eq : s.fh.blocksize = blocksize
  full : ∀ b ∈ s.blocks.dropLast, b.numbytes = blocksize
  le : ∀ b ∈ s.blocks, b.numbytes ≤ blocksize
  content_eq : s.content = content

def blockBefore (blocksize n : ℕ) : ℕ := (n - 1) / blocksize * blocksize

/-- `len` bytes at `offset`, which is not before the last block, are sent without an error. -/
def Appendable (nn : NamenodeState) (blocksize length offset len : ℕ) : Prop :=
  if 0 < length ∧ offset < blockBefore blocksize length + blocksize then
    Sendable nn (offset - blockBefore blocksize length)
        (openBytes blocksize (offset - blockBefore blocksize length) len) ∧
      Spreads nn blocksize
        (len - openBytes blocksize (offset - blockBefore blocksize length) len)
  else Spreads nn blocksize len

variable {net : Net} {nn : NamenodeState} {s t : Hdfs} {blocksize offset : ℕ}
  {content data : List UInt8} {xs ys : List StoredBlock} {y : StoredBlock}

/-! The layout -/

theorem blockBefore_eq {q n : ℕ} (hlt : q * blocksize < n) (hle : n ≤ q * blocksize + blocksize) :
    blockBefore blocksize n = q * blocksize := by
  have hb : 0 < blocksize := by omega
  have hdiv : (n - 1) / blocksize = q := by
    rw [Nat.div_eq_iff hb]
    constructor
    · omega
    · omega
  rw [blockBefore, hdiv]

theorem blockBefore_le (blocksize n : ℕ) : blockBefore blocksize n ≤ n :=
  (Nat.div_mul_le_self (n - 1) blocksize).trans (Nat.sub_le n 1)

theorem total_full (h : ∀ x ∈ xs, x.numbytes = blocksize) : total xs = xs.length * blocksize := by
  induction xs with
  | nil => simp
  | cons x xs ih =>
    rw [total_cons, h x (by simp), ih fun b hb => h b (by simp [hb]), List.length_cons, Nat.succ_mul,
      Nat.add_comm]

namespace HoldsFile

theorem logged (h : HoldsFile blocksize content s) (req : Request) :
    HoldsFile blocksize content (s.logged req) :=
  ⟨h.toSound.logged req, h.blocksize_eq, h.full, h.le, h.content_eq⟩

theorem total_eq (h : HoldsFile blocksize content s) : total s.blocks = content.length := by
  rw [← h.content_eq]
  exact (visible_length h.whole).symm

theorem total_before (h : HoldsFile blocksize content s) (hs : s.blocks = xs ++ y :: ys) :
    total xs = xs.length * blocksize := by
  refine total_full fun x hx => h.full x ?_
  rw [hs, List.dropLast_append_of_ne_nil (by simp)]
  exact List.mem_append_left _ hx

theorem full_before (h : HoldsFile blocksize content s) (hs : s.blocks = xs ++ y :: ys)
    (hys : ys ≠ []) : y.numbytes = blocksize := by
  refine h.full y ?_
  rw [hs, List.dropLast_append_of_ne_nil (by simp), List.dropLast_cons_of_ne_nil hys]
  simp

theorem last_start (h : HoldsFile blocksize content s) (hs : s.blocks = xs ++ [y]) :
    total xs = blockBefore blocksize content.length := by
  have hxs := h.total_before hs
  have hpos := h.nonempty y (by simp [hs])
  have hle := h.le y (by simp [hs])
  have htotal := h.total_eq
  rw [hs, total_append, total_cons, total_nil] at htotal
  rw [blockBefore_eq (q := xs.length) (by omega) (by omega), hxs]

end HoldsFile

/-! Writes that do not start before the last block -/

def appendPlan (offset nBlocks : ℕ) : WritePlan := ⟨.zeros 0, .zeros 0, offset, nBlocks, none⟩

theorem appendPlan_lastlocation (offset : ℕ) (hs : s.blocks = xs ++ [y]) :
    (appendPlan offset s.blocks.length).lastlocation ⟨total s.blocks, locatedFrom 0 s.blocks⟩ =
      some ⟨total xs, y.extended⟩ := by
  have hget := locatedFrom_get 0 xs y []
  rw [Nat.zero_add] at hget
  rw [WritePlan.lastlocation, if_neg (by simp [appendPlan, hs])]
  simpa [appendPlan, hs] using hget

section Append

variable {padding : ℕ} {buffer : FuseBuffer} {res : ℤ}
  (h : HoldsFile blocksize content s) (hto : offset ≤ content.length)

include h hto

/-- The last block is open unless it ends before the offset, which is then the end of the file. -/
theorem append_cases :
    (¬ (0 < content.length ∧ offset < blockBefore blocksize content.length + blocksize) ∧
      openBlock ((appendPlan offset s.blocks.length).lastlocation
        ⟨total s.blocks, locatedFrom 0 s.blocks⟩) offset s.fh.blocksize = none ∧
      offset = content.length) ∨
    ((0 < content.length ∧ offset < blockBefore blocksize content.length + blocksize) ∧
      ∃ xs y, s.blocks = xs ++ [y] ∧ total xs = blockBefore blocksize content.length ∧
        (appendPlan offset s.blocks.length).lastlocation
          ⟨total s.blocks, locatedFrom 0 s.blocks⟩ = some ⟨total xs, y.extended⟩) := by
  have htotal := h.total_eq
  rcases List.eq_nil_or_concat' s.blocks with hnil | ⟨xs, y, hs⟩
  · rw [hnil, total_nil] at htotal
    refine Or.inl ⟨by omega, ?_, by omega⟩
    simp [WritePlan.lastlocation, appendPlan, hnil, openBlock]
  · have hloc := appendPlan_lastlocation offset hs
    have hstart := h.last_start hs
    have hy := h.nonempty y (by simp [hs])
    have hle := h.le y (by simp [hs])
    have hfits := h.fits
    rw [hs, total_append, total_cons, total_nil] at htotal hfits
    by_cases hlt : offset < blockBefore blocksize content.length + blocksize
    · exact Or.inr ⟨⟨by omega, hlt⟩, xs, y, hs, hstart, hloc⟩
    · refine Or.inl ⟨fun hboth => hlt hboth.2, ?_, by omega⟩
      rw [hloc, h.blocksize_eq]
      exact openBlock_none (by omega) (by omega)

variable (hnet : ∀ k, net.ObligesAt k) (hb : 0 < blocksize) (hb' : blocksize < 2 ^ 63)
  (hfrom : blockBefore blocksize content.length ≤ offset)
  (hpos : ((appendPlan offset s.blocks.length).pos padding buffer).Feeds data)

include hnet hb hb' hfrom hpos

theorem append_ok (hsup : nn.Supported)
    (ha : Appendable nn blocksize content.length offset
      ((appendPlan offset s.blocks.length).pos padding buffer).len) :
    ∃ res t, writeBuffers net nn ⟨total s.blocks, locatedFrom 0 s.blocks⟩
        (appendPlan offset s.blocks.length) padding buffer s = .ok (res, t) ∧ 0 ≤ res ∧
      t.content = overlay content offset
        (data.take ((appendPlan offset s.blocks.length).pos padding buffer).len) := by
  obtain rfl := h.blocksize_eq
  rcases append_cases h hto with ⟨hclosed, hopen, hend⟩ | ⟨hopen, xs, y, hs, hstart, hloc⟩
  · rw [Appendable, if_neg hclosed] at ha
    obtain ⟨res, t, hrun, hres, ht⟩ := writeBuffers_closed hnet hpos hb (by omega) h.fresh hopen
      h.nodup (settled_none _) (fun _ => hsup) ha
    refine ⟨res, t, hrun, hres, ?_⟩
    rw [ht, h.content_eq, hend, overlay_end]
  · rw [Appendable, if_pos hopen, ← hstart] at ha
    rw [← hstart] at hfrom hopen
    have hfits := h.fits
    rw [hs, total_append] at hfits
    obtain ⟨res, t, hrun, hres, ht⟩ := writeBuffers_open hnet hpos hb h.fresh hs (h.last_id hs) hloc
      hfrom hopen.2 (by omega) h.whole (h.le y (by simp [hs])) hsup ha.1 ha.2
    rw [h.content_eq] at ht
    exact ⟨res, t, hrun, hres, ht⟩

/-- Any other one ends with an error. -/
theorem append_result (hres : 0 ≤ res)
    (hrun : writeBuffers net nn ⟨total s.blocks, locatedFrom 0 s.blocks⟩
      (appendPlan offset s.blocks.length) padding buffer s = .ok (res, t)) :
    (0 < ((appendPlan offset s.blocks.length).pos padding buffer).len → nn.Supported) ∧
    Appendable nn blocksize content.length offset
      ((appendPlan offset s.blocks.length).pos padding buffer).len ∧
    t.content = overlay content offset
        (data.take ((appendPlan offset s.blocks.length).pos padding buffer).len) := by
  obtain rfl := h.blocksize_eq
  rcases append_cases h hto with ⟨hclosed, hopen, hend⟩ | ⟨hopen, xs, y, hs, hstart, hloc⟩
  · rw [Appendable, if_neg hclosed]
    obtain ⟨hspreads, hsup⟩ := writeBuffers_closed_inv hnet hpos hb (by omega) h.fresh hopen hres hrun
    obtain ⟨res', t', hrun', -, ht⟩ := writeBuffers_closed hnet hpos hb (by omega) h.fresh hopen
      h.nodup (settled_none _) hsup hspreads
    rw [hrun] at hrun'
    obtain ⟨rfl, rfl⟩ := Prod.mk.inj (Except.ok.inj hrun')
    rw [h.content_eq] at ht
    refine ⟨hsup, hspreads, ?_⟩
    rw [ht, hend, overlay_end]
  · rw [Appendable, if_pos hopen, ← hstart]
    rw [← hstart] at hfrom hopen
    have hfits := h.fits
    rw [hs, total_append] at hfits
    obtain ⟨hsup, hsend, hspreads⟩ := writeBuffers_open_inv hnet hpos hb h.fresh hs (h.last_id hs)
      hloc hfrom hopen.2 (by omega) hres hrun
    obtain ⟨res', t', hrun', -, ht⟩ := writeBuffers_open hnet hpos hb h.fresh hs (h.last_id hs) hloc
      hfrom hopen.2 (by omega) h.whole (h.le y (by simp [hs])) hsup hsend hspreads
    rw [hrun] at hrun'
    obtain ⟨rfl, rfl⟩ := Prod.mk.inj (Except.ok.inj hrun')
    rw [h.content_eq] at ht
    exact ⟨fun _ => hsup, ⟨hsend, hspreads⟩, ht⟩

end Append

/-- The padding of a write behind the end is the distance taken from zero: it is written up to
the block where the buffers come round, and never has the length it should have. -/
theorem padded_feeds {gap padding : ℕ} (buffer : FuseBuffer) (hgap : 0 < gap) (hgap' : gap < 2 ^ 63)
    (hp : padding = 2 ^ 64 - gap) (hlen : buffer.len < 2 ^ 63) (offset nBlocks : ℕ) :
    ∃ data', ((appendPlan offset nBlocks).pos padding buffer).Feeds data' ∧
      ((appendPlan offset nBlocks).pos padding buffer).len ≠ gap + buffer.len := by
  rcases Nat.lt_or_ge (padding + buffer.len) (2 ^ 64) with hfit | hwrap
  · obtain ⟨hfeeds, hsum⟩ := (appendPlan offset nBlocks).feeds padding buffer
      (by change 0 + padding + buffer.len + 0 < 2 ^ 64; omega)
    refine ⟨_, hfeeds, ?_⟩
    rw [hsum]
    change 0 + padding + buffer.len + 0 ≠ _
    omega
  · have hlen' : ((appendPlan offset nBlocks).pos padding buffer).len = buffer.len - gap := by
      change asU64 (((0 : ℕ) : ℤ) + padding + buffer.len + ((0 : ℕ) : ℤ)) = _
      unfold asU64
      omega
    refine ⟨List.replicate padding 0, ⟨supplies_padding (by omega) (by omega) hlen hwrap, ?_, ?_,
      Nat.zero_le _⟩, ?_⟩
    · rw [WritePlan.flat_eq]
      simp only [List.length_append, List.length_replicate]
      omega
    · rw [hlen', List.length_replicate]
      omega
    · rw [hlen']
      omega

theorem HoldsFile.lastblockoffset (h : HoldsFile blocksize content s) :
    ((locatedFrom 0 s.blocks).getLast?.map Located.offset).getD 0 =
      blockBefore blocksize content.length := by
  rcases List.eq_nil_or_concat' s.blocks with hnil | ⟨xs, y, hs⟩
  · have htotal := h.total_eq
    rw [hnil, total_nil] at htotal
    rw [hnil, ← htotal]
    simp [blockBefore]
  · rw [← h.last_start hs, hs, locatedFrom_append]
    simp

section WriteLocated

variable {ftruncate : ℕ → Hdfs → Checked (ℤ × Hdfs)} (hnet : ∀ k, net.ObligesAt k)
  (h : HoldsFile blocksize content s) (hb : 0 < blocksize) (hb' : blocksize < 2 ^ 63)
  (hoff : offset < 2 ^ 63) (hd : 0 < data.length) (hd' : data.length < 2 ^ 63)

include hnet h hb hb' hoff hd hd'

theorem writeLocated_append
    (hfrom : blockBefore blocksize content.length ≤ min offset content.length) :
    (∃ res t, writeLocated net nn ftruncate ⟨total s.blocks, locatedFrom 0 s.blocks⟩
        (.ofBytes data) offset s = .ok (res, t) ∧ 0 ≤ res ∧ t.content = overlay content offset data) ↔
      nn.Supported ∧ offset ≤ content.length ∧
        Appendable nn blocksize content.length offset data.length := by
  have htotal := h.total_eq
  have hrun : writeLocated net nn ftruncate ⟨total s.blocks, locatedFrom 0 s.blocks⟩
      (.ofBytes data) offset s = writeBuffers net nn ⟨total s.blocks, locatedFrom 0 s.blocks⟩
        (appendPlan (min offset content.length) s.blocks.length)
        (if offset > content.length then asU64 ((content.length : ℤ) - offset) else 0)
        (.ofBytes data) s := by
    unfold writeLocated
    simp only [h.lastblockoffset, htotal, locatedFrom_length]
    rw [if_neg (by omega)]
    rfl
  rw [hrun]
  rcases Nat.lt_or_ge content.length offset with hbehind | hin
  · -- the length of the result tells that too much or too little was written
    obtain ⟨data', hpos, hne⟩ := padded_feeds (.ofBytes data) (by omega : 0 < offset - content.length)
      (by omega) rfl hd' content.length s.blocks.length
    have hpad : (if offset > content.length then asU64 ((content.length : ℤ) - offset) else 0) =
        2 ^ 64 - (offset - content.length) := by
      rw [if_pos hbehind]
      unfold asU64
      omega
    rw [hpad, Nat.min_eq_right hbehind.le]
    refine ⟨fun ⟨res, t, hwrite, hres, ht⟩ => ?_, fun hcond => absurd hcond.2.1 (by omega)⟩
    obtain ⟨-, -, ht'⟩ := append_result h le_rfl hnet hb hb' (by omega) hpos hres hwrite
    have hlen := congrArg List.length (ht'.symm.trans ht)
    rw [overlay_length, overlay_length, List.length_take] at hlen
    have := hpos.len_le
    refine absurd ?_ hne
    change _ = offset - content.length + data.length
    omega
  · have hpad : (if offset > content.length then asU64 ((content.length : ℤ) - offset) else 0) =
        0 := if_neg (by omega)
    obtain ⟨hpos, hlen⟩ := (appendPlan offset s.blocks.length).feeds 0 (.ofBytes data)
      (by change 0 + 0 + data.length + 0 < 2 ^ 64; omega)
    have hlen' : ((appendPlan offset s.blocks.length).pos 0 (.ofBytes data)).len = data.length := by
      rw [hlen]
      change 0 + 0 + data.length + 0 = _
      omega
    have hflat : ((appendPlan offset s.blocks.length).pos 0 (.ofBytes data)).flat = data := by
      rw [WritePlan.flat_eq]
      change [] ++ ([] ++ (data ++ [])) = data
      simp
    rw [hflat] at hpos
    rw [Nat.min_eq_left hin] at hfrom ⊢
    rw [hpad]
    refine ⟨fun ⟨res, t, hwrite, hres, ht⟩ => ?_, fun ⟨hsup, _, ha⟩ => ?_⟩
    · obtain ⟨hsup, ha, -⟩ := append_result h hin hnet hb hb' hfrom hpos hres hwrite
      rw [hlen'] at hsup ha
      exact ⟨hsup hd, hin, ha⟩
    · obtain ⟨res, t, hwrite, hres, ht⟩ := append_ok h hin hnet hb hb' hfrom hpos hsup
        (by rw [hlen']; exact ha)
      refine ⟨res, t, hwrite, hres, ?_⟩
      rw [ht, hlen', List.take_length]

end WriteLocated

/-! Writes that start before the last block -/

/-- The first block that is rewritten. -/
structure HoldsFile.Rewritten (blocksize offset : ℕ) (s : Hdfs) (xs : List StoredBlock)
    (y : StoredBlock) (ys : List StoredBlock) : Prop where
  blocks_eq : s.blocks = xs ++ y :: ys
  rest : ys ≠ []
  past : xs = [] ∨ total xs < offset
  within : offset ≤ total xs + y.numbytes
  start : total xs = blockBefore blocksize offset
  size : y.numbytes = blocksize
  first : xs = [] ↔ offset ≤ blocksize

theorem HoldsFile.rewritten (h : HoldsFile blocksize content s)
    (hlt : offset < blockBefore blocksize content.length) :
    ∃ xs y ys, HoldsFile.Rewritten blocksize offset s xs y ys := by
  have htotal := h.total_eq
  have hlast := h.lastblockoffset
  have hne : s.blocks ≠ [] := by
    intro hnil
    rw [hnil] at hlast
    simp only [locatedFrom_nil, List.getLast?_nil, Option.map_none, Option.getD_none] at hlast
    omega
  obtain ⟨zs, z, hz⟩ := (List.eq_nil_or_concat' s.blocks).resolve_left hne
  have hstart := h.last_start hz
  have hle : offset ≤ total s.blocks := by
    rw [hz, total_append]
    omega
  obtain ⟨xs, y, ys, hs, hpast, hin⟩ := exists_rewritten hle hne
  have hxs := h.total_before hs
  have hys : ys ≠ [] := by
    intro hnil
    rw [hnil] at hs
    have hsame := h.last_start hs
    rcases hpast with rfl | hpast
    · rw [total_nil] at hsame
      omega
    · omega
  have hy := h.full_before hs hys
  have hone : xs = [] ∨ blocksize ≤ xs.length * blocksize := by
    rcases xs with _ | ⟨x, xs⟩
    · exact Or.inl rfl
    · right
      rw [List.length_cons, Nat.succ_mul]
      omega
  refine ⟨xs, y, ys, hs, hys, hpast, hin, ?_, hy, ?_⟩
  · rcases hpast with rfl | hpast
    · rw [total_nil] at hin ⊢
      rcases Nat.eq_zero_or_pos offset with hzero | hpos
      · simp [blockBefore, hzero]
      · rw [blockBefore_eq (q := 0) (by omega) (by omega), Nat.zero_mul]
    · rw [hxs, blockBefore_eq (q := xs.length) (by omega) (by omega)]
  · refine ⟨fun hnil => ?_, fun hle' => ?_⟩
    · rw [hnil, total_nil] at hin
      omega
    · rcases hpast with hnil | hpast
      · exact hnil
      · rcases hone with hnil | hone
        · exact hnil
        · omega

theorem HoldsFile.Rewritten.take_eq (hw : HoldsFile.Rewritten blocksize offset s xs y ys)
    (h : HoldsFile blocksize content s) :
    content.take offset = visible xs ++ y.bytes.take (offset - total xs) := by
  have hwhole := h.whole y (by simp [hw.blocks_eq])
  have hin := hw.within
  have hxs : (visible xs).length = total xs :=
    visible_length fun x hx => h.whole x (by simp [hw.blocks_eq, hx])
  have hcontent : content = visible xs ++ (y.bytes ++ visible ys) := by
    rw [← h.content_eq]
    change visible s.blocks = _
    rw [hw.blocks_eq, visible_append, visible_cons, ← hwhole, List.take_length]
  have hoffset : offset = (visible xs).length + (offset - total xs) := by
    rcases hw.past with rfl | hlt
    · exact (Nat.zero_add offset).symm
    · omega
  rw [hcontent]
  conv_lhs => rw [hoffset, List.take_length_add_append]
  rw [List.take_append_of_le_length (by omega)]

/-- Behind the blocks that are kept whole there is no open one, so that all bytes go to new
blocks. -/
theorem rewrite_buffers (hnet : ∀ k, net.ObligesAt k) (h : HoldsFile blocksize content s)
    (hb : 0 < blocksize) (hb' : blocksize < 2 ^ 63)
    (hw : HoldsFile.Rewritten blocksize offset s xs y ys) (hxs : xs ≠ []) (ht : t.Sound)
    (hblocks : t.blocks = xs) (hfh : t.fh.blocksize = blocksize) {kept trailing : FuseBuffer}
    (hsum : kept.len + data.length + trailing.len < 2 ^ 64) (hd : 0 < data.length)
    (result : List UInt8) :
    (∃ res t', writeBuffers net nn ⟨total s.blocks, locatedFrom 0 s.blocks⟩
        ⟨kept, trailing, total xs, xs.length, xs.getLast?.map StoredBlock.extended⟩ 0 (.ofBytes data)
          t = .ok (res, t') ∧ 0 ≤ res ∧ t'.content = result) ↔
      nn.Supported ∧ Spreads nn blocksize (kept.len + data.length + trailing.len) ∧
        visible xs ++ (kept.bytes ++ (data ++ trailing.bytes)) = result := by
  set plan : WritePlan :=
    ⟨kept, trailing, total xs, xs.length, xs.getLast?.map StoredBlock.extended⟩ with hplan
  obtain ⟨us, x, rfl⟩ := (List.eq_nil_or_concat' xs).resolve_left hxs
  have hs : s.blocks = us ++ x :: (y :: ys) := by
    rw [hw.blocks_eq, List.append_assoc, List.singleton_append]
  have hx := h.full_before hs (by simp)
  have hfits := ht.fits
  rw [hblocks, total_append, total_cons, total_nil] at hfits
  have hopen : openBlock (plan.lastlocation ⟨total s.blocks, locatedFrom 0 s.blocks⟩)
      plan.offsetintofile t.fh.blocksize = none := by
    have hloc : plan.lastlocation ⟨total s.blocks, locatedFrom 0 s.blocks⟩ =
        some ⟨total us, x.extended⟩ := by
      have hget := locatedFrom_get 0 us x (y :: ys)
      rw [Nat.zero_add] at hget
      rw [WritePlan.lastlocation, if_neg (by simp [hplan])]
      simpa [hplan, hs] using hget
    rw [hloc, hfh]
    refine openBlock_none ?_ (by omega)
    change total us + blocksize ≤ total (us ++ [x])
    rw [total_append, total_cons]
    omega
  have hlast : Settled plan.last t.blocks := by
    have hget : plan.last = some x.extended := by simp [hplan]
    rw [hget]
    exact settled_recorded ht.nodup (by simp [hblocks])
  obtain ⟨hpos, hlen⟩ := plan.feeds 0 (.ofBytes data)
    (by change kept.len + 0 + data.length + trailing.len < 2 ^ 64; omega)
  have hlen' : (plan.pos 0 (.ofBytes data)).len = kept.len + data.length + trailing.len := hlen
  have hflat : (plan.pos 0 (.ofBytes data)).flat = kept.bytes ++ (data ++ trailing.bytes) :=
    plan.flat_eq 0 (.ofBytes data)
  have hbytes : (plan.pos 0 (.ofBytes data)).flat.take (plan.pos 0 (.ofBytes data)).len =
      kept.bytes ++ (data ++ trailing.bytes) := by
    rw [hflat, hlen', List.take_of_length_le]
    simp only [List.length_append, FuseBuffer.bytes_length]
    omega
  have hvis : t.content = visible (us ++ [x]) := by
    change visible t.blocks = _
    rw [hblocks]
  have hb0 : 0 < t.fh.blocksize := by omega
  refine ⟨fun ⟨res, t', hrun, hres, hresult⟩ => ?_, fun ⟨hsup, hspreads, hresult⟩ => ?_⟩
  · obtain ⟨hspreads, hsup⟩ :=
      writeBuffers_closed_inv hnet hpos hb0 (by omega) ht.fresh hopen hres hrun
    obtain ⟨res', t₂, hrun', -, ht₂⟩ := writeBuffers_closed hnet hpos hb0 (by omega) ht.fresh hopen
      ht.nodup hlast hsup hspreads
    rw [hrun] at hrun'
    obtain ⟨rfl, rfl⟩ := Prod.mk.inj (Except.ok.inj hrun')
    rw [hfh, hlen'] at hspreads
    rw [hlen'] at hsup
    refine ⟨hsup (by omega), hspreads, ?_⟩
    rw [← hresult, ht₂, hvis, hbytes]
  · obtain ⟨res, t', hrun, hres, ht'⟩ := writeBuffers_closed hnet hpos hb0 (by omega) ht.fresh hopen
      ht.nodup hlast (fun _ => hsup) (by rw [hfh, hlen']; exact hspreads)
    refine ⟨res, t', hrun, hres, ?_⟩
    rw [ht', hvis, hbytes, hresult]

/-- What the write reads for the bytes behind the data: the front of the last block. -/
def ReadsBehind (blocksize : ℕ) (content : List UInt8) (behind : ℕ) (trailing : List UInt8) : Prop :=
  trailing.length = behind ∧
    trailing.take (min (content.length - blockBefore blocksize content.length) behind) =
      (content.drop (blockBefore blocksize content.length)).take behind

theorem HoldsFile.reads_behind (h : HoldsFile blocksize content s) {first behind : ℕ}
    {trailing : List UInt8} (hend : behind = content.length - first)
    (hlast : ∀ last ∈ (s.inRange first behind).getLast?,
      trailing.take (min last.2.numbytes behind) = last.2.bytes.take behind) :
    trailing.take (min (content.length - blockBefore blocksize content.length) behind) =
      (content.drop (blockBefore blocksize content.length)).take behind := by
  rcases Nat.eq_zero_or_pos behind with hzero | hpos
  · rw [hzero, Nat.min_zero, List.take_zero, List.take_zero]
  · have htotal := h.total_eq
    have hne : s.blocks ≠ [] := by
      intro hnil
      rw [hnil, total_nil] at htotal
      omega
    obtain ⟨zs, z, hz⟩ := (List.eq_nil_or_concat' s.blocks).resolve_left hne
    have hstart := h.last_start hz
    have hpos' := h.nonempty z (by simp [hz])
    have hwhole := h.whole z (by simp [hz])
    have hcontent : content = visible zs ++ z.bytes := by
      rw [← h.content_eq]
      change visible s.blocks = _
      rw [hz, visible_append, visible_cons, visible_nil, List.append_nil, ← hwhole, List.take_length]
    have hzs : (visible zs).length = total zs :=
      visible_length fun x hx => h.whole x (by simp [hz, hx])
    rw [hz, total_append, total_cons, total_nil] at htotal
    have hnum : content.length - blockBefore blocksize content.length = z.numbytes := by omega
    rw [hnum, hlast _ (inRange_ends hz (by omega) (by omega)), ← hstart, ← hzs, hcontent,
      List.drop_left]

theorem writeLocated_rewrite (nn : NamenodeState) (hnet : ∀ k, net.ObligesAt k)
    (h : HoldsFile blocksize content s) (hb : 0 < blocksize) (hb' : blocksize < 2 ^ 63) (hd : 0 < data.length)
    (hd' : data.length < 2 ^ 63) (hlt : offset < blockBefore blocksize content.length) (depth : ℕ) :
    ∃ trailing, ReadsBehind blocksize content (content.length - (offset + data.length)) trailing ∧
      ((∃ res t, writeLocated net nn (hadoopFuseFtruncate net nn (depth + 1))
          ⟨total s.blocks, locatedFrom 0 s.blocks⟩ (.ofBytes data) offset s = .ok (res, t) ∧
          0 ≤ res ∧ t.content = overlay content offset data) ↔
        nn.Supported ∧ blocksize < offset ∧
          0 ≤ asInt (offset - blockBefore blocksize offset : ℕ) ∧
          0 ≤ asInt (content.length - (offset + data.length) : ℕ) ∧
          Spreads nn blocksize (offset - blockBefore blocksize offset + data.length +
            (content.length - (offset + data.length))) ∧
          trailing = content.drop (offset + data.length)) := by
  obtain ⟨xs, y, ys, hw⟩ := h.rewritten hlt
  have htotal := h.total_eq
  have hfits := h.fits
  have hle := blockBefore_le blocksize content.length
  have hrun : writeLocated net nn (hadoopFuseFtruncate net nn (depth + 1))
      ⟨total s.blocks, locatedFrom 0 s.blocks⟩ (.ofBytes data) offset s =
        rewriteBlocks net nn (hadoopFuseFtruncate net nn (depth + 1))
          ⟨total s.blocks, locatedFrom 0 s.blocks⟩ 0 (.ofBytes data) offset s := by
    unfold writeLocated
    simp only [h.lastblockoffset, htotal]
    rw [Nat.min_eq_left (by omega), if_pos hlt, if_neg (by omega)]
  obtain ⟨kept, trailing, hsave, hkept, htrailing, hlast⟩ := saveAround_ok h.toSound hw.blocks_eq
    hw.past hw.within (by omega : offset + data.length < 2 ^ 64) fun k _ _ => hnet k
  have hbehind : total s.blocks - min (total s.blocks) (offset + data.length) =
      content.length - (offset + data.length) := by
    omega
  rw [hbehind] at hsave htrailing hlast
  refine ⟨trailing.bytes, ⟨?_, ?_⟩, ?_⟩
  · rw [trailing.bytes_length, htrailing]
  · exact h.reads_behind rfl hlast
  · have hlen : kept.len = offset - total xs := by
      have hwhole := h.whole y (by simp [hw.blocks_eq])
      have hin := hw.within
      rw [← kept.bytes_length, hkept, List.length_take]
      omega
    have hfirst := hw.first
    rw [hrun, ← hw.start]
    by_cases hneg : asInt (content.length - (offset + data.length) : ℕ) < 0
    · rw [if_pos hneg] at hsave
      rw [rewriteBlocks_error (.ofBytes data) hsave]
      refine ⟨fun ⟨res, t, hok, hres, _⟩ => ?_, fun hcond => absurd hcond.2.2.2.1 hneg.not_ge⟩
      obtain ⟨rfl, -⟩ := Prod.mk.inj (Except.ok.inj hok)
      exact absurd hres hneg.not_ge
    rw [if_neg hneg] at hsave
    by_cases hneg' : asInt (offset - total xs : ℕ) < 0
    · rw [if_pos hneg'] at hsave
      rw [rewriteBlocks_error (.ofBytes data) hsave]
      refine ⟨fun ⟨res, t, hok, hres, _⟩ => ?_, fun hcond => absurd hcond.2.2.1 hneg'.not_ge⟩
      obtain ⟨rfl, -⟩ := Prod.mk.inj (Except.ok.inj hok)
      exact absurd hres hneg'.not_ge
    rw [if_neg hneg'] at hsave
    by_cases hxs : xs = []
    · rw [if_pos hxs] at hsave
      rw [rewriteBlocks_unset (.ofBytes data) hsave]
      refine ⟨fun ⟨res, t, hok, _⟩ => ?_, fun hcond => ?_⟩
      · cases hok
      · have := hfirst.mp hxs
        omega
    · rw [if_neg hxs] at hsave
      obtain ⟨t, ht, hsound, hblocks, hfh⟩ := ftruncate_boundary nn hnet
        (saved_sound (saved_sound h.toSound _ _) _ _)
        ((saved_blocks _ _ _).trans ((saved_blocks _ _ _).trans hw.blocks_eq)) (by simp) depth
      rw [rewriteBlocks_truncated (.ofBytes data) hsave ht]
      rw [saved_fh, saved_fh, h.blocksize_eq] at hfh
      refine (rewrite_buffers hnet h hb hb' hw hxs hsound hblocks hfh (by omega) hd _).trans ?_
      have hwithin : visible xs ++ (kept.bytes ++ (data ++ trailing.bytes)) =
          overlay content offset data ↔ trailing.bytes = content.drop (offset + data.length) := by
        rw [overlay_within (by omega), hw.take_eq h, hkept]
        simp only [List.append_assoc, List.append_cancel_left_eq]
      rw [hwithin, hlen, htrailing]
      have hpast : blocksize < offset := not_le.mp fun hle => hxs (hfirst.mpr hle)
      exact ⟨fun ⟨h1, h2, h3⟩ => ⟨h1, hpast, not_lt.mp hneg', not_lt.mp hneg, h2, h3⟩,
        fun ⟨h1, _, _, _, h2, h3⟩ => ⟨h1, h2, h3⟩⟩

end Defuse
