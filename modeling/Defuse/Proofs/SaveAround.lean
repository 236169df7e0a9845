import Defuse.Proofs.Requests

/-! The bytes that `hadoop_fuse_write` reads before it drops blocks: the part of the first one
before the data, and what lies behind the data. -/

namespace Defuse

open CSem

variable {net : Net} {s : Hdfs} {xs ys : List StoredBlock} {y : StoredBlock}
  {start offset len : ℕ}

/-! The first block that is rewritten -/

theorem rewriteScan_passed (h : start + total xs < offset) (rest : List Located) (b : ℕ)
    (truncateto : Option ℕ) :
    rewriteScan offset (locatedFrom start xs ++ rest) b truncateto =
      rewriteScan offset rest (b + xs.length)
        (if xs = [] then truncateto else some (start + total xs)) := by
  induction xs generalizing start b truncateto with
  | nil => rfl
  | cons x xs ih =>
    rw [total_cons] at h
    have hend : (⟨start, x.extended⟩ : Located).blockend < offset := by
      change start + x.numbytes < offset
      omega
    rw [locatedFrom_cons, List.cons_append, rewriteScan, if_pos hend, ih (by omega)]
    have hto : (if xs = [] then some (⟨start, x.extended⟩ : Located).blockend
        else some (start + x.numbytes + total xs)) = some (start + total (x :: xs)) := by
      rw [total_cons]
      split_ifs with hxs
      · subst hxs
        rfl
      · rw [Nat.add_assoc]
    rw [hto, if_neg (by simp), List.length_cons, Nat.add_assoc b 1, Nat.add_comm 1]

/-- `truncateto` is the end of the blocks before the first one that is rewritten, and not set
when there are none. -/
theorem rewriteScan_eq (hpast : xs = [] ∨ total xs < offset) (hin : offset ≤ total xs + y.numbytes) :
    rewriteScan offset (locatedFrom 0 (xs ++ y :: ys)) 0 none =
      (if xs = [] then none else some (total xs), some (xs.length, ⟨total xs, y.extended⟩)) := by
  have hend : ¬ (⟨total xs, y.extended⟩ : Located).blockend < offset := by
    change ¬ total xs + y.numbytes < offset
    omega
  rcases hpast with rfl | hpast
  · rw [List.nil_append, locatedFrom_cons, rewriteScan]
    exact if_neg hend
  · rw [locatedFrom_append, rewriteScan_passed (by omega), Nat.zero_add, Nat.zero_add,
      locatedFrom_cons, rewriteScan, if_neg hend]

theorem exists_rewritten (hoff : offset ≤ total xs) (hne : xs ≠ []) :
    ∃ us y vs, xs = us ++ y :: vs ∧ (us = [] ∨ total us < offset) ∧
      offset ≤ total us + y.numbytes := by
  induction xs generalizing offset with
  | nil => exact absurd rfl hne
  | cons x xs ih =>
    by_cases hin : offset ≤ x.numbytes
    · exact ⟨[], x, xs, rfl, Or.inl rfl, by simpa using hin⟩
    · rw [total_cons] at hoff
      have hxs : xs ≠ [] := by
        intro hnil
        rw [hnil, total_nil] at hoff
        omega
      obtain ⟨us, y, vs, rfl, hpast, hend⟩ := ih (by omega : offset - x.numbytes ≤ total xs) hxs
      refine ⟨x :: us, y, vs, rfl, Or.inr ?_, ?_⟩
      · rw [total_cons]
        rcases hpast with rfl | hpast
        · rw [total_nil]
          omega
        · omega
      · rw [total_cons]
        omega

/-! Reads -/

theorem inRange_ends (hs : s.blocks = xs ++ y :: ys)
    (hlt : max (total xs) offset < min (total xs + y.numbytes) (offset + len))
    (hend : offset + len ≤ total xs + y.numbytes) :
    (s.inRange offset len).getLast? = some (total xs, y) := by
  have hbehind : ((placeBlocks (total xs + y.numbytes) ys).filter fun pb =>
      max pb.1 offset < min (pb.1 + pb.2.numbytes) (offset + len)) = [] := by
    rw [List.filter_eq_nil_iff]
    intro pb hpb
    obtain ⟨us, vs, -, hstart⟩ := mem_placeBlocks hpb
    simp only [decide_eq_true_eq]
    omega
  unfold Hdfs.inRange
  rw [hs, placeBlocks_append, Nat.zero_add, placeBlocks, List.filter_append,
    List.filter_cons_of_pos (by simpa using hlt), hbehind]
  simp

def Hdfs.saved (s : Hdfs) (len offset : ℕ) : Hdfs :=
  if 0 < len then s.logged (.getBlockLocations offset len) else s

theorem saved_sound (h : s.Sound) (len offset : ℕ) : (s.saved len offset).Sound := by
  unfold Hdfs.saved
  split_ifs
  · exact h.logged _
  · exact h

theorem saved_blocks (s : Hdfs) (len offset : ℕ) : (s.saved len offset).blocks = s.blocks := by
  unfold Hdfs.saved
  split_ifs <;> rfl

theorem saved_fh (s : Hdfs) (len offset : ℕ) : (s.saved len offset).fh = s.fh := by
  unfold Hdfs.saved
  split_ifs <;> rfl

theorem saved_log_length (s : Hdfs) (len offset : ℕ) :
    (s.saved len offset).log.length = s.log.length + if 0 < len then 1 else 0 := by
  unfold Hdfs.saved
  split_ifs
  · exact List.length_append
  · rfl

theorem saveBytes_ok (h : s.Sound) (len offset : ℕ) (hnow : net.ObligesAt s.log.length)
    (hthen : net.ObligesAt (s.log.length + 1)) :
    ∃ buffer : FuseBuffer, saveBytes net len offset s =
        .ok (if asInt len < 0 then .error (asInt len) else .ok buffer, s.saved len offset) ∧
      buffer.len = len ∧ ∀ last ∈ (s.inRange offset len).getLast?,
        buffer.bytes.take (min last.2.numbytes len) = last.2.bytes.take len := by
  unfold saveBytes Hdfs.saved
  by_cases hpos : 0 < len
  · obtain ⟨buf, hread, hlen, hlast⟩ := readInto_ok h offset (net.malloc_length s.log.length len)
      hnow.answers hthen.serves
    refine ⟨.ofBytes buf, ?_, hlen, hlast⟩
    rw [if_pos hpos, if_pos hpos, hread, ok_bind]
    split_ifs <;> rfl
  · obtain rfl : len = 0 := by omega
    refine ⟨.zeros 0, ?_, rfl, ?_⟩
    · rw [if_neg hpos, if_neg hpos, if_neg (by decide)]
      rfl
    · intro last hlast
      simp

/-- The bytes around the data are read, from the end of the file and from the first block that
is rewritten. -/
theorem saveAround_ok (h : s.Sound) (hs : s.blocks = xs ++ y :: ys)
    (hpast : xs = [] ∨ total xs < offset) (hin : offset ≤ total xs + y.numbytes)
    (hfit : offset + len < 2 ^ 64)
    (hnet : ∀ k, s.log.length ≤ k → k ≤ s.log.length + 2 → net.ObligesAt k) :
    let behind := total s.blocks - min (total s.blocks) (offset + len)
    let before := offset - total xs
    let s₁ := s.saved behind (offset + len)
    ∃ kept trailing : FuseBuffer,
      saveAround net ⟨total s.blocks, locatedFrom 0 s.blocks⟩ len offset s = .ok
        (if asInt behind < 0 then (.error (asInt behind), s₁)
        else if asInt before < 0 then (.error (asInt before), s₁.saved before (total xs))
        else (.ok (if xs = [] then none else some (total xs), ⟨kept, trailing, total xs, xs.length,
          xs.getLast?.map StoredBlock.extended⟩), s₁.saved before (total xs))) ∧
      kept.bytes = y.bytes.take before ∧ trailing.len = behind ∧
      ∀ last ∈ (s.inRange (offset + len) behind).getLast?,
        trailing.bytes.take (min last.2.numbytes behind) = last.2.bytes.take behind := by
  intro behind before s₁
  have hfirst : offset - before = total xs := by
    have hle : total xs ≤ offset := by
      rcases hpast with rfl | hlt
      · exact Nat.zero_le _
      · omega
    omega
  have hprev : (if xs.length = 0 then none
      else ((locatedFrom 0 (xs ++ y :: ys))[xs.length - 1]?).map Located.b) =
        xs.getLast?.map StoredBlock.extended := by
    rcases List.eq_nil_or_concat' xs with rfl | ⟨us, x, rfl⟩
    · rfl
    · rw [if_neg (by simp), List.append_assoc, List.singleton_append, List.length_append,
        List.length_singleton, Nat.add_sub_cancel, locatedFrom_get]
      simp
  have hbehind : asU64 ((offset : ℤ) + len) = offset + len := by
    exact_mod_cast asU64_natCast hfit
  have hlog : s.log.length ≤ s₁.log.length ∧ s₁.log.length ≤ s.log.length + 1 := by
    have hlog' : s₁.log.length = _ := saved_log_length s behind (offset + len)
    rw [hlog']
    split_ifs <;> omega
  obtain ⟨trailing, hsave, hlen, hlast⟩ := saveBytes_ok h behind (offset + len)
    (hnet _ le_rfl (by omega)) (hnet _ (by omega) (by omega))
  obtain ⟨kept, hsave', hlen', hlast'⟩ := saveBytes_ok (s := s₁)
    (saved_sound h behind (offset + len)) before (total xs)
    (hnet _ (by omega) (by omega)) (hnet _ (by omega) (by omega))
  refine ⟨kept, trailing, ?_, ?_, hlen, hlast⟩
  · unfold saveAround
    rw [hbehind]
    dsimp only
    rw [hsave, ok_bind]
    by_cases hneg : asInt behind < 0
    · rw [if_pos hneg, if_pos hneg]
      rfl
    rw [if_neg hneg, if_neg hneg]
    dsimp only
    rw [hs, rewriteScan_eq hpast hin]
    dsimp only
    rw [hsave', ok_bind]
    by_cases hneg' : asInt before < 0
    · rw [if_pos hneg', if_pos hneg']
      rfl
    rw [if_neg hneg', if_neg hneg']
    dsimp only
    rw [hlen', hfirst, hprev]
    rfl
  · rcases Nat.eq_zero_or_pos before with hzero | hpos
    · rw [hzero] at hlen' ⊢
      rw [List.take_zero]
      exact List.length_eq_zero_iff.mp (kept.bytes_length.trans hlen')
    · have hends : (s₁.inRange (total xs) before).getLast? = some (total xs, y) :=
        inRange_ends ((saved_blocks s behind (offset + len)).trans hs) (by omega) (by omega)
      have htake := hlast' _ hends
      rw [Nat.min_eq_right (by omega : before ≤ y.numbytes)] at htake
      rw [← htake, List.take_of_length_le (by rw [kept.bytes_length, hlen'])]

/-! The exits of the rewriting part -/

section Exits

variable {nn : NamenodeState} {ftruncate : ℕ → Hdfs → Checked (ℤ × Hdfs)} {located : LocatedFile}
  {padding : ℕ} (data : FuseBuffer) {s' t : Hdfs} {plan : WritePlan}

theorem rewriteBlocks_error {res : ℤ}
    (h : saveAround net located data.len offset s = .ok (.error res, s')) :
    rewriteBlocks net nn ftruncate located padding data offset s = .ok (res, s') := by
  unfold rewriteBlocks
  rw [h]
  rfl

theorem rewriteBlocks_unset
    (h : saveAround net located data.len offset s = .ok (.ok (none, plan), s')) :
    rewriteBlocks net nn ftruncate located padding data offset s = .error .uninitialised := by
  unfold rewriteBlocks
  rw [h]
  rfl

theorem rewriteBlocks_truncated {truncateto : ℕ}
    (h : saveAround net located data.len offset s = .ok (.ok (some truncateto, plan), s'))
    (ht : ftruncate truncateto s' = .ok (0, t)) :
    rewriteBlocks net nn ftruncate located padding data offset s =
      writeBuffers net nn located plan padding data t := by
  unfold rewriteBlocks
  rw [h, ok_bind]
  dsimp only
  rw [ht, ok_bind]
  exact if_neg (lt_irrefl 0)

end Exits

end Defuse
