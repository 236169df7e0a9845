import Defuse.Proofs.DoWrite
import Defuse.Proofs.SaveAround

/-! `hadoop_fuse_ftruncate` to a smaller length: the blocks behind the new end are dropped, and
of a block that is cut the first part is read before and written to a new block after. -/

namespace Defuse

open CSem

variable {net : Net} {nn : NamenodeState} {s : Hdfs} {xs ys : List StoredBlock} {y : StoredBlock}
  {start newlength : ℕ}

/-! The scan -/

theorem shrinkScan_kept (h : start + total xs ≤ newlength) (rest : List Located) (b k : ℕ) :
    shrinkScan newlength (locatedFrom start xs ++ rest) b k =
      shrinkScan newlength rest (b + xs.length) (if xs = [] then k else b + xs.length - 1) := by
  induction xs generalizing start b k with
  | nil => rfl
  | cons x xs ih =>
    rw [total_cons] at h
    have hend : (⟨start, x.extended⟩ : Located).blockend ≤ newlength := by
      change start + x.numbytes ≤ newlength
      omega
    rw [locatedFrom_cons, List.cons_append, shrinkScan, if_pos hend, ih (by omega)]
    have hlast : (if xs = [] then b else b + 1 + xs.length - 1) =
        if x :: xs = [] then k else b + (x :: xs).length - 1 := by
      rcases xs with _ | ⟨x', xs⟩ <;> simp
      omega
    rw [hlast, List.length_cons, Nat.add_assoc b 1, Nat.add_comm 1]

def lastkeptblock (xs ys : List StoredBlock) : ℕ :=
  if xs = [] then (xs ++ ys).length else xs.length - 1

theorem shrinkScan_boundary (xs : List StoredBlock) (hy : ∀ y ∈ ys, 0 < y.numbytes) :
    shrinkScan (total xs) (locatedFrom 0 (xs ++ ys)) 0 (xs ++ ys).length =
      (lastkeptblock xs ys, none) := by
  have hkept : (if xs = [] then (xs ++ ys).length else 0 + xs.length - 1) = lastkeptblock xs ys := by
    rw [lastkeptblock, Nat.zero_add]
  rw [locatedFrom_append, shrinkScan_kept (by omega), hkept, Nat.zero_add]
  rcases ys with _ | ⟨y, ys⟩
  · rfl
  · have hpos := hy y (by simp)
    rw [locatedFrom_cons, shrinkScan, if_neg, if_neg]
    · simp
    · change ¬ total xs + y.numbytes ≤ total xs
      omega

theorem shrinkScan_cut (hlt : total xs < newlength) (hcut : newlength < total xs + y.numbytes) :
    shrinkScan newlength (locatedFrom 0 (xs ++ y :: ys)) 0 (xs ++ y :: ys).length =
      (lastkeptblock xs (y :: ys), some ⟨total xs, y.extended⟩) := by
  have hkept : (if xs = [] then (xs ++ y :: ys).length else 0 + xs.length - 1) =
      lastkeptblock xs (y :: ys) := by
    rw [lastkeptblock, Nat.zero_add]
  rw [locatedFrom_append, shrinkScan_kept (by omega), hkept, Nat.zero_add, locatedFrom_cons,
    shrinkScan, if_neg, if_pos]
  · exact hlt
  · change ¬ total xs + y.numbytes ≤ newlength
    omega

/-! The blocks that are dropped -/

theorem lastkeptblock_eq_length : lastkeptblock xs ys = (xs ++ ys).length ↔ xs = [] := by
  unfold lastkeptblock
  rcases xs with _ | ⟨x, xs⟩
  · simp
  · simp
    omega

theorem drop_lastkeptblock (hxs : xs ≠ []) :
    (locatedFrom 0 (xs ++ ys)).drop (lastkeptblock xs ys + 1) = locatedFrom (total xs) ys := by
  have hpos := List.length_pos_iff.mpr hxs
  rw [lastkeptblock, if_neg hxs, Nat.sub_add_cancel hpos, locatedFrom_append, Nat.zero_add,
    List.drop_left' (locatedFrom_length 0 xs)]

theorem get_lastkeptblock (hxs : xs ≠ []) (ys : List StoredBlock) :
    ((locatedFrom 0 (xs ++ ys))[lastkeptblock xs ys]?).map Located.b =
      xs.getLast?.map StoredBlock.extended := by
  obtain ⟨us, x, rfl⟩ := (List.eq_nil_or_concat' xs).resolve_left hxs
  have hlast : lastkeptblock (us ++ [x]) ys = us.length := by simp [lastkeptblock]
  rw [hlast, List.append_assoc, List.singleton_append, locatedFrom_get]
  simp

theorem filter_dropped (start : ℕ) (hnodup : ((xs ++ ys).map StoredBlock.blockid).Nodup) :
    ((xs ++ ys).filter fun x => ∀ l ∈ (locatedFrom start ys).reverse, x.blockid ≠ l.b.blockid) =
      xs := by
  have hmap := locatedFrom_map_b start ys
  rw [List.filter_append, List.filter_eq_self.mpr, List.filter_eq_nil_iff.mpr, List.append_nil]
  · intro y hy hall
    obtain ⟨l, hl, hb⟩ := List.mem_map.mp (hmap ▸ List.mem_map_of_mem hy)
    have hne := of_decide_eq_true hall l (List.mem_reverse.mpr hl)
    rw [hb] at hne
    exact hne rfl
  · intro x hx
    exact decide_eq_true fun l hl => located_id_ne hnodup hx (List.mem_reverse.mp hl)

def dropRequests (xs ys : List StoredBlock) : ℕ := if xs = [] then 2 else 1 + ys.length

def dropLog (xs ys : List StoredBlock) : List Request :=
  if xs = [] then [.getFileInfo, .create]
  else .append :: (locatedFrom (total xs) ys).reverse.map fun l => .abandonBlock l.b

/-- The file created again, with its new number in the handle. -/
def Hdfs.overwritten (s : Hdfs) : Hdfs :=
  { s with
    blocks := []
    underconstruction := true
    fileid := s.fresh
    fresh := s.fresh + 1
    fh := { s.fh with fileid := s.fresh }
    log := s.log ++ [.getFileInfo, .create] }

theorem dropBlocks_all (blocks : List Located) (h : net.fails s.log.length = none)
    (h' : net.fails (s.log.length + 1) = none) :
    dropBlocks net blocks blocks.length s = (.ok none, s.overwritten) := by
  have hlog : s.log ++ [.getFileInfo] ++ [.create] = s.log ++ [.getFileInfo, .create] :=
    List.append_assoc _ _ _
  unfold dropBlocks Net.getFileInfo Net.create Hdfs.overwritten
  rw [if_pos rfl, request_ok h]
  dsimp only
  rw [request_ok (by simpa [Hdfs.logged] using h'), ← hlog]
  rfl

/-- The blocks that are kept whole are left. -/
theorem dropBlocks_ok (hs : s.blocks = xs ++ ys)
    (hnodup : (s.blocks.map StoredBlock.blockid).Nodup)
    (h : ∀ k < s.log.length + dropRequests xs ys, net.fails k = none) :
    ∃ last fileid fresh fh,
      dropBlocks net (locatedFrom 0 (xs ++ ys)) (lastkeptblock xs ys) s =
        (.ok last, ⟨xs, true, fileid, s.blocksize, fresh, fh, s.log ++ dropLog xs ys⟩) ∧ Settled last xs ∧
      s.fresh ≤ fresh ∧ fh.blocksize = s.fh.blocksize := by
  unfold dropRequests at h
  unfold dropLog
  by_cases hxs : xs = []
  · subst hxs
    rw [if_pos rfl] at h ⊢
    refine ⟨none, s.fresh, s.fresh + 1, ⟨s.fresh, s.fh.blocksize⟩, ?_, settled_none [], by omega,
      rfl⟩
    have hall : lastkeptblock [] ys = (locatedFrom 0 ([] ++ ys)).length := by
      rw [locatedFrom_length, lastkeptblock_eq_length]
    rw [hall, dropBlocks_all _ (h _ (by omega)) (h _ (by omega))]
    rfl
  · have hpart : lastkeptblock xs ys ≠ (locatedFrom 0 (xs ++ ys)).length := by
      rw [locatedFrom_length, Ne, lastkeptblock_eq_length]
      exact hxs
    rw [if_neg hxs] at h ⊢
    obtain ⟨us, x, hx⟩ := (List.eq_nil_or_concat' xs).resolve_left hxs
    refine ⟨some x.extended, s.fileid, s.fresh, s.fh, ?_, ?_, le_rfl, rfl⟩
    · have hlog : s.log ++ [.append] ++
          ((locatedFrom (total xs) ys).reverse.map fun l => .abandonBlock l.b) =
          s.log ++ .append :: (locatedFrom (total xs) ys).reverse.map fun l => .abandonBlock l.b :=
        List.append_assoc _ _ _
      unfold dropBlocks
      rw [if_neg hpart, lock_ok none (h _ (by omega))]
      dsimp only
      rw [drop_lastkeptblock hxs, abandonBlocks_ok]
      · have hlast := get_lastkeptblock hxs ys
        have hblocks : s.locked.blocks = xs ++ ys := hs
        have hget : xs.getLast? = some x := by simp [hx]
        rw [hget] at hlast
        dsimp only
        rw [if_neg (lt_irrefl 0), hlast, hblocks, filter_dropped _ (hs ▸ hnodup), ← hlog]
        rfl
      · intro i hi
        simp only [List.length_reverse, locatedFrom_length] at hi
        refine h _ ?_
        simp [Hdfs.locked, Hdfs.logged]
        omega
    · have hnodup' : (xs.map StoredBlock.blockid).Nodup := by
        rw [hs, List.map_append, List.nodup_append] at hnodup
        exact hnodup.1
      exact settled_recorded hnodup' (by simp [hx])

/-! The end of a block -/

theorem Hdfs.Sound.kept (h : s.Sound) (hs : s.blocks = xs ++ ys) {fresh : ℕ} (hf : s.fresh ≤ fresh)
    (fileid : ℕ) (fh : FileHandle) (log : List Request) :
    Hdfs.Sound ⟨xs, false, fileid, s.blocksize, fresh, fh, log⟩ := by
  obtain ⟨-, hwhole, hpos, hfits, hnodup, hfresh⟩ := h
  rw [hs] at hwhole hpos hfits hnodup hfresh
  rw [total_append] at hfits
  rw [List.map_append, List.nodup_append] at hnodup
  refine ⟨rfl, fun b hb => hwhole b (by simp [hb]), fun b hb => hpos b (by simp [hb]), ?_,
    hnodup.1, fun b hb => (hfresh b (by simp [hb])).trans_le hf⟩
  change total xs < 2 ^ 63
  omega

def closing (n fileid : ℕ) (last : Option ExtendedBlock) : List Request :=
  List.replicate n (.complete fileid last)

theorem shrink_boundary (nn : NamenodeState) (hnet : ∀ k, net.ObligesAt k) (h : s.Sound)
    (hs : s.blocks = xs ++ ys) :
    ∃ t, shrink net nn ⟨total s.blocks, locatedFrom 0 s.blocks⟩ (total xs) s = .ok (0, t) ∧
      t.Sound ∧ t.blocks = xs ∧ t.fh.blocksize = s.fh.blocksize ∧
      ∃ n fileid last, t.log = s.log ++ dropLog xs ys ++ closing n fileid last := by
  have hpos : ∀ y ∈ ys, 0 < y.numbytes := fun y hy => h.nonempty y (by simp [hs, hy])
  have hscan := shrinkScan_boundary xs hpos
  obtain ⟨last, fileid, fresh, fh, hdrop, hlast, hfresh, hfh⟩ :=
    dropBlocks_ok hs h.nodup fun k _ => (hnet k).answers
  obtain ⟨n, hcomplete⟩ := complete_ok (fun k => (hnet k).answers) fh.fileid last
    ⟨xs, true, fileid, s.blocksize, fresh, fh, s.log ++ dropLog xs ys⟩
  rw [Settled.commit_eq hlast] at hcomplete
  refine ⟨⟨xs, false, fileid, s.blocksize, fresh, fh, s.log ++ dropLog xs ys ++ closing n fh.fileid last⟩, ?_,
    h.kept hs hfresh fileid fh _, rfl, hfh, n, fh.fileid, last, rfl⟩
  unfold shrink
  rw [hs, locatedFrom_length, hscan]
  simp only [readCut, pure_eq_ok, ok_bind, hdrop, writeCut, lt_irrefl, if_false, hcomplete]
  rfl

theorem ftruncate_shrink (nn : NamenodeState) (h : s.Sound) (hfails : net.fails s.log.length = none)
    (hn : newlength < total s.blocks) (depth : ℕ) :
    hadoopFuseFtruncate net nn (depth + 1) newlength s =
      shrink net nn ⟨total s.blocks, locatedFrom 0 s.blocks⟩ newlength
        (s.logged (.getBlockLocations 0 (2 ^ 63 - 1))) := by
  rw [hadoopFuseFtruncate, getBlockLocations_ok h hfails]
  dsimp only
  rw [if_neg (by omega), if_neg (by omega)]

theorem ftruncate_boundary (nn : NamenodeState) (hnet : ∀ k, net.ObligesAt k) (h : s.Sound)
    (hs : s.blocks = xs ++ ys) (hys : ys ≠ []) (depth : ℕ) :
    ∃ t, hadoopFuseFtruncate net nn (depth + 1) (total xs) s = .ok (0, t) ∧
      t.Sound ∧ t.blocks = xs ∧ t.fh.blocksize = s.fh.blocksize := by
  obtain ⟨y, ys', rfl⟩ := List.exists_cons_of_ne_nil hys
  have hpos := h.nonempty y (by simp [hs])
  have hlt : total xs < total s.blocks := by
    rw [hs, total_append, total_cons]
    omega
  obtain ⟨t, hrun, hsound, hblocks, hfh, -⟩ := shrink_boundary nn hnet (h.logged _) hs
  refine ⟨t, ?_, hsound, hblocks, hfh⟩
  rw [ftruncate_shrink nn h (hnet _).answers hlt]
  exact hrun

/-! A block that is cut -/

/-- The part of `hadoop_fuse_ftruncate` behind `hadoop_fuse_do_write`. -/
def shrinkEnd (net : Net) (r : ℤ × Option ExtendedBlock × Hdfs) : ℤ × Hdfs :=
  if r.1 < 0 then (r.1, r.2.2)
  else
    let c := hadoopFuseComplete net r.2.2.fh.fileid r.2.1 r.2.2
    (if c.1 < 0 then c.1 else 0, c.2)

section Cut

variable (nn) (h : s.Sound) (hs : s.blocks = xs ++ y :: ys) (hlt : total xs < newlength)
  (hcut : newlength < total xs + y.numbytes) (hnow : net.ObligesAt s.log.length)
  (hthen : net.ObligesAt (s.log.length + 1))

include h hs hlt hcut hnow hthen

theorem shrink_cut_unread (hneg : asInt (newlength - total xs : ℕ) < 0) :
    shrink net nn ⟨total s.blocks, locatedFrom 0 s.blocks⟩ newlength s =
      .ok (asInt (newlength - total xs : ℕ), s.saved (newlength - total xs) (total xs)) := by
  obtain ⟨buffer, hsave, -⟩ := saveBytes_ok h (newlength - total xs) (total xs) hnow hthen
  rw [if_pos hneg] at hsave
  unfold shrink
  rw [hs, locatedFrom_length, shrinkScan_cut hlt hcut]
  simp only [readCut, hsave, pure_eq_ok, ok_bind, Except.map]

/-- Any other part is read, the blocks are dropped and the part is written to new ones. -/
theorem shrink_cut
    (hfails : ∀ k < s.log.length + 1 + dropRequests xs (y :: ys), net.fails k = none)
    (hint : ¬ asInt (newlength - total xs : ℕ) < 0) :
    ∃ (buffer : FuseBuffer) (last : Option ExtendedBlock) (s₁ : Hdfs),
      shrink net nn ⟨total s.blocks, locatedFrom 0 s.blocks⟩ newlength s =
        (doWrite net nn ⟨[buffer], 0, buffer.len⟩ (total xs) none last s₁ >>= fun r =>
          .ok (shrinkEnd net r)) ∧
      buffer.len = newlength - total xs ∧ buffer.bytes = y.bytes.take (newlength - total xs) ∧
      Settled last xs ∧ s₁.blocks = xs ∧ s.fresh ≤ s₁.fresh ∧
      s₁.fh.blocksize = s.fh.blocksize ∧ s₁.log =
        s.log ++ .getBlockLocations (total xs) (newlength - total xs) :: dropLog xs (y :: ys) := by
  obtain ⟨buffer, hsave, hlen, hlast⟩ :=
    saveBytes_ok h (newlength - total xs) (total xs) hnow hthen
  rw [if_neg hint] at hsave
  have hsaved : s.saved (newlength - total xs) (total xs) =
      s.logged (.getBlockLocations (total xs) (newlength - total xs)) := if_pos (by omega)
  rw [hsaved] at hsave
  have hlog : (s.logged (.getBlockLocations (total xs) (newlength - total xs))).log.length =
      s.log.length + 1 := List.length_append
  obtain ⟨last, fileid, fresh, fh, hdrop, hsettled, hfresh, hfh⟩ :=
    dropBlocks_ok (s := s.logged (.getBlockLocations (total xs) (newlength - total xs))) hs h.nodup
      (by rw [hlog]; exact hfails)
  have hlog' : (s.logged (.getBlockLocations (total xs) (newlength - total xs))).log ++
      dropLog xs (y :: ys) =
        s.log ++ .getBlockLocations (total xs) (newlength - total xs) :: dropLog xs (y :: ys) :=
    List.append_assoc _ _ _
  rw [hlog'] at hdrop
  refine ⟨buffer, last, ⟨xs, true, fileid, s.blocksize, fresh, fh, _⟩, ?_, hlen, ?_, hsettled, rfl, hfresh, hfh,
    rfl⟩
  · unfold shrink
    rw [hs, locatedFrom_length, shrinkScan_cut hlt hcut]
    simp only [readCut, hsave, pure_eq_ok, ok_bind, Except.map, hdrop, writeCut, Option.map_some,
      Option.getD_some]
    refine congrArg (doWrite net nn ⟨[buffer], 0, buffer.len⟩ (total xs) none last _ >>= ·)
      (funext fun r => ?_)
    unfold shrinkEnd
    by_cases hres : r.1 < 0
    · rw [if_pos hres, if_pos hres]
    · rw [if_neg hres, if_neg hres]
  · have hends : (s.inRange (total xs) (newlength - total xs)).getLast? = some (total xs, y) :=
      inRange_ends hs (by omega) (by omega)
    have htake := hlast _ hends
    rw [Nat.min_eq_right (by dsimp only; omega)] at htake
    rw [← htake, List.take_of_length_le (by rw [buffer.bytes_length, hlen])]

end Cut

/-! How far it gets -/

/-- The state in which a truncation ends, by the step that failed or was the last. `scan` tells
the last block that is kept whole and the one that is cut. -/
inductive ShrinkEnds (net : Net) (nn : NamenodeState) (blocks : List Located)
    (scan : ℕ × Option Located) (newlength : ℕ) (s : Hdfs) : Hdfs → Prop
  | unread {e : ℤ} {s₁ : Hdfs} (hread : readCut net newlength scan.2 s = .ok (.error e, s₁)) :
    ShrinkEnds net nn blocks scan newlength s s₁
  | undropped {kept : Option FuseBuffer} {e : ℤ} {s₁ s₂ : Hdfs}
    (hread : readCut net newlength scan.2 s = .ok (.ok kept, s₁))
    (hdrop : dropBlocks net blocks scan.1 s₁ = (.error e, s₂)) :
    ShrinkEnds net nn blocks scan newlength s s₂
  | unwritten {kept : Option FuseBuffer} {last last' : Option ExtendedBlock} {res : ℤ}
    {s₁ s₂ s₃ : Hdfs} (hread : readCut net newlength scan.2 s = .ok (.ok kept, s₁))
    (hdrop : dropBlocks net blocks scan.1 s₁ = (.ok last, s₂))
    (hwrite : writeCut net nn kept ((scan.2.map Located.offset).getD 0) last s₂ =
      .ok (res, last', s₃)) : ShrinkEnds net nn blocks scan newlength s s₃
  | completed {kept : Option FuseBuffer} {last last' : Option ExtendedBlock} {res : ℤ}
    {s₁ s₂ s₃ : Hdfs} (hread : readCut net newlength scan.2 s = .ok (.ok kept, s₁))
    (hdrop : dropBlocks net blocks scan.1 s₁ = (.ok last, s₂))
    (hwrite : writeCut net nn kept ((scan.2.map Located.offset).getD 0) last s₂ =
      .ok (res, last', s₃)) :
    ShrinkEnds net nn blocks scan newlength s (hadoopFuseComplete net s₃.fh.fileid last' s₃).2

theorem shrink_ends {located : LocatedFile} {res : ℤ} {s' : Hdfs}
    (h : shrink net nn located newlength s = .ok (res, s')) :
    ShrinkEnds net nn located.blocks
      (shrinkScan newlength located.blocks 0 located.blocks.length) newlength s s' := by
  unfold shrink at h
  dsimp only at h
  rw [bind_ok_iff] at h
  obtain ⟨⟨_ | kept, s₁⟩, hread, h⟩ := h
  · cases h
    exact .unread hread
  dsimp only at h
  rcases hdrop : dropBlocks net located.blocks
    (shrinkScan newlength located.blocks 0 located.blocks.length).1 s₁ with ⟨_ | last, s₂⟩
  · rw [hdrop] at h
    cases h
    exact .undropped hread hdrop
  rw [hdrop] at h
  dsimp only at h
  rw [bind_ok_iff] at h
  obtain ⟨⟨res₃, last', s₃⟩, hwrite, h⟩ := h
  dsimp only at h
  by_cases hneg : res₃ < 0
  · rw [if_pos hneg] at h
    cases h
    exact .unwritten hread hdrop hwrite
  · rw [if_neg hneg] at h
    cases h
    exact .completed hread hdrop hwrite

end Defuse
