import Defuse.Lib.Chunks
import Defuse.Proofs.WriteFile

/-! When `hadoop_fuse_write` is an overlay: of all lengths of a file, offsets and lengths of the
data, those for which every content comes out right. -/

namespace Defuse

open CSem

/-- Whatever the file and the data hold, the write returns the length of the data, and the file
holds the data over its old content. -/
def WritesOver (nn : NamenodeState) (blocksize length offset len depth : ℕ) : Prop :=
  ∀ (net : Net) (s : Hdfs) (content data : List UInt8), (∀ k, net.ObligesAt k) →
    HoldsFile blocksize content s → content.length = length → data.length = len →
    ∃ t, hadoopFuseWrite net nn (depth + 2) (.ofBytes data) offset s = .ok ((len : ℤ), t) ∧
      t.content = overlay content offset data

/-- The write does not start behind the end, and it starts in the last block or behind it; or
it starts behind the first block, reaches to the end or to the last block, and what lies around
the data can be read and sent. -/
def WriteCondition (nn : NamenodeState) (blocksize length offset len : ℕ) : Prop :=
  nn.Supported ∧ (len : ℤ) ≤ INT_MAX ∧ offset ≤ length ∧
    if blockBefore blocksize length ≤ offset then Appendable nn blocksize length offset len
    else blocksize < offset ∧
      (length ≤ offset + len ∨ offset + len = blockBefore blocksize length) ∧
      0 ≤ asInt (offset - blockBefore blocksize offset : ℕ) ∧
      0 ≤ asInt (length - (offset + len) : ℕ) ∧
      Spreads nn blocksize (offset - blockBefore blocksize offset + len + (length - (offset + len)))

instance (nn : NamenodeState) (blocksize length offset len : ℕ) :
    Decidable (Appendable nn blocksize length offset len) :=
  inferInstanceAs (Decidable
    (if 0 < length ∧ offset < blockBefore blocksize length + blocksize then _ else _))

instance (nn : NamenodeState) (blocksize length offset len : ℕ) :
    Decidable (WriteCondition nn blocksize length offset len) :=
  inferInstanceAs (Decidable
    (_ ∧ _ ∧ _ ∧ if blockBefore blocksize length ≤ offset then _ else _))

variable {net : Net} {nn : NamenodeState} {s : Hdfs} {blocksize length offset len depth : ℕ}
  {content data : List UInt8}

theorem hadoopFuseWrite_iff (hnet : ∀ k, net.ObligesAt k) (hs : s.Sound) (hd : 0 < data.length)
    (P : Hdfs → Prop) :
    (∃ t, hadoopFuseWrite net nn (depth + 1) (.ofBytes data) offset s =
        .ok ((data.length : ℤ), t) ∧ P t) ↔
      (data.length : ℤ) ≤ INT_MAX ∧ ∃ res t,
        writeLocated net nn (hadoopFuseFtruncate net nn depth)
          ⟨total s.blocks, locatedFrom 0 s.blocks⟩ (.ofBytes data) offset
          (s.logged (.getBlockLocations 0 (2 ^ 63 - 1))) = .ok (res, t) ∧ 0 ≤ res ∧ P t := by
  rw [hadoopFuseWrite, getBlockLocations_ok hs (hnet _).answers]
  dsimp only
  refine ⟨fun ⟨t, hrun, ht⟩ => ?_, fun ⟨hint, res, t, hrun, hres, ht⟩ => ?_⟩
  · rw [bind_ok_iff] at hrun
    obtain ⟨⟨res, t'⟩, hrun, hout⟩ := hrun
    obtain ⟨hlen, rfl⟩ := Prod.mk.inj (Except.ok.inj hout)
    by_cases hneg : res < 0
    · rw [if_pos hneg] at hlen
      omega
    · rw [if_neg hneg] at hlen
      have hle := asInt_le (FuseBuffer.ofBytes data).len
      rw [hlen] at hle
      exact ⟨hle, res, t', hrun, by omega, ht⟩
  · refine ⟨t, ?_, ht⟩
    rw [hrun, ok_bind]
    dsimp only
    rw [if_neg (by omega)]
    have hlen : asInt (FuseBuffer.ofBytes data).len = data.length :=
      asInt_of_le (Int.natCast_nonneg _) hint
    rw [hlen]
    rfl

/-! A file of any content -/

/-- The content in blocks of the given size. -/
def storedFile (blocksize : ℕ) (content : List UInt8) : Hdfs where
  blocks := (List.range ((content.length + blocksize - 1) / blocksize)).map fun i =>
    ⟨i, 0, ((content.drop (i * blocksize)).take blocksize).length,
      (content.drop (i * blocksize)).take blocksize⟩
  underconstruction := false
  fileid := 0
  blocksize := blocksize
  fresh := (content.length + blocksize - 1) / blocksize
  fh := ⟨0, blocksize⟩
  log := []

/-- Servers that do what they are asked. -/
def obligingNet : Net where
  fails := fun _ => none
  unready := fun _ => 0
  readLocs := fun _ _ => [.serves none []]
  writeLocs := fun _ => [fun _ => ⟨0, 0, acknowledging⟩]
  malloc := fun _ n => List.replicate n 0
  malloc_length := fun _ _ => List.length_replicate

theorem obligingNet_obliges (k : ℕ) : obligingNet.ObligesAt k := by
  refine ⟨rfl, fun _ => ⟨none, [], [], rfl⟩, _, [], rfl, fun _ => ?_⟩
  exact ⟨le_rfl, rfl, acknowledging_acknowledged⟩

theorem storedFile_bytes (blocksize : ℕ) (content : List UInt8) :
    (storedFile blocksize content).blocks.map StoredBlock.bytes = chunks blocksize content := by
  unfold storedFile chunks
  rw [List.map_map, Nat.ceilDiv_eq_add_pred_div]
  rfl

theorem storedFile_whole {b : StoredBlock} (hb : b ∈ (storedFile blocksize content).blocks) :
    b.bytes.length = b.numbytes := by
  obtain ⟨i, -, rfl⟩ := List.mem_map.mp hb
  rfl

/-- It holds that content. -/
theorem storedFile_holds (content : List UInt8) (hb : 0 < blocksize)
    (hlen : content.length < 2 ^ 63) :
    HoldsFile blocksize content (storedFile blocksize content) := by
  have hwhole : ∀ b ∈ (storedFile blocksize content).blocks, b.bytes.length = b.numbytes :=
    fun b hmem => storedFile_whole hmem
  have hsize : ∀ b ∈ (storedFile blocksize content).blocks,
      0 < b.numbytes ∧ b.numbytes ≤ blocksize := by
    intro b hmem
    rw [← hwhole b hmem]
    apply length_of_mem_chunks hb (l := content)
    rw [← storedFile_bytes]
    exact List.mem_map_of_mem hmem
  have hcontent : (storedFile blocksize content).content = content := by
    have htake : ∀ b ∈ (storedFile blocksize content).blocks,
        b.bytes.take b.numbytes = b.bytes := by
      intro b hmem
      rw [← hwhole b hmem, List.take_length]
    unfold Hdfs.content
    rw [List.flatMap_def, List.map_congr_left htake, storedFile_bytes, chunks_flatten hb]
  refine ⟨⟨rfl, hwhole, fun b hmem => (hsize b hmem).1, ?_, ?_, ?_⟩, rfl, ?_,
    fun b hmem => (hsize b hmem).2, hcontent⟩
  · rw [← visible_length hwhole]
    change (storedFile blocksize content).content.length < 2 ^ 63
    rw [hcontent]
    exact hlen
  · have hids : (storedFile blocksize content).blocks.map StoredBlock.blockid =
        List.range ((content.length + blocksize - 1) / blocksize) := by
      unfold storedFile
      simp [Function.comp_def]
    rw [hids]
    exact List.nodup_range
  · intro b hmem
    obtain ⟨i, hi, rfl⟩ := List.mem_map.mp hmem
    exact List.mem_range.mp hi
  · -- every chunk but the last one ends before the content does
    intro b hmem
    rw [← hwhole b (List.mem_of_mem_dropLast hmem)]
    apply length_of_mem_chunks_dropLast hb (l := content)
    rw [← storedFile_bytes, ← List.map_dropLast]
    exact List.mem_map_of_mem hmem

/-! The lengths and offsets -/

def markedAt (length place : ℕ) : List UInt8 := (List.replicate length 0).set place 1

theorem markedAt_get {place i : ℕ} (hi : i < length) :
    (markedAt length place)[i]? = some (if i = place then 1 else 0) := by
  unfold markedAt
  rw [List.getElem?_set]
  by_cases h : i = place
  · rw [if_pos h.symm, if_pos h, if_pos (by rw [List.length_replicate]; omega)]
  · rw [if_neg (Ne.symm h), if_neg h, List.getElem?_replicate, if_pos hi]

theorem markedAt_length (length place : ℕ) : (markedAt length place).length = length := by
  rw [markedAt, List.length_set, List.length_replicate]

theorem readsBehind_marked {first : ℕ} {trailing : List UInt8} (hfirst : first < length)
    (h : ReadsBehind blocksize (markedAt length first) (length - first) trailing)
    (heq : trailing = (markedAt length first).drop first) :
    first = blockBefore blocksize length := by
  have hlast : blockBefore blocksize length < length := by
    have := Nat.div_mul_le_self (length - 1) blocksize
    unfold blockBefore
    omega
  have hget := congrArg (·[0]?) h.2
  simp only [markedAt_length] at hget
  rw [heq, List.getElem?_take_of_lt (by omega), List.getElem?_take_of_lt (by omega),
    List.getElem?_drop, List.getElem?_drop, Nat.add_zero, Nat.add_zero, markedAt_get hfirst,
    markedAt_get hlast, if_pos rfl] at hget
  by_contra hne
  rw [if_neg (Ne.symm hne)] at hget
  exact absurd (Option.some.inj hget) (by decide)

theorem readsBehind_eq {first : ℕ} {trailing : List UInt8}
    (h : ReadsBehind blocksize content (content.length - first) trailing)
    (hfirst : content.length ≤ first ∨ first = blockBefore blocksize content.length) :
    trailing = content.drop first := by
  obtain ⟨hlen, htake⟩ := h
  rcases hfirst with hend | rfl
  · rw [List.drop_of_length_le hend]
    exact List.length_eq_zero_iff.mp (by omega)
  · rw [Nat.min_self, ← hlen, List.take_length, hlen] at htake
    rw [htake, List.take_of_length_le (by rw [List.length_drop])]

/-- The writes that are overlays. -/
theorem writes_over_iff (nn : NamenodeState) (blocksize length offset len depth : ℕ)
    (hb : 0 < blocksize) (hb' : blocksize < 2 ^ 63) (hlength : length < 2 ^ 63)
    (hoffset : offset < 2 ^ 63) (hlen : 0 < len) (hlen' : len < 2 ^ 63) :
    WritesOver nn blocksize length offset len depth ↔
      WriteCondition nn blocksize length offset len := by
  have hle := blockBefore_le blocksize length
  refine ⟨fun hwrites => ?_, fun hcond => ?_⟩
  · -- a content that tells the byte behind the data from all others
    obtain ⟨content, hcontent⟩ : ∃ content, content = markedAt length (offset + len) := ⟨_, rfl⟩
    obtain ⟨data, hdata⟩ : ∃ data : List UInt8, data.length = len :=
      ⟨List.replicate len 0, List.length_replicate⟩
    have hmarked : content.length = length := by
      rw [hcontent]
      exact markedAt_length _ _
    have hholds := storedFile_holds content hb (by omega)
    have hrun := hwrites obligingNet _ content data obligingNet_obliges hholds hmarked hdata
    rw [← hdata] at hrun
    obtain ⟨hint, hrun⟩ :=
      (hadoopFuseWrite_iff obligingNet_obliges hholds.toSound (by omega) _).mp hrun
    have hlogged := hholds.logged (.getBlockLocations 0 (2 ^ 63 - 1))
    have hd : 0 < data.length := by omega
    have hd' : data.length < 2 ^ 63 := by omega
    rcases Nat.lt_or_ge offset (blockBefore blocksize length) with hbefore | hfrom
    · obtain ⟨trailing, hbehind, hiff⟩ := writeLocated_rewrite nn obligingNet_obliges hlogged
        hb hb' hd hd' (by rw [hmarked]; exact hbefore) depth
      obtain ⟨hsup, hfirst, hkept, hrest, hspreads, heq⟩ := hiff.mp hrun
      rw [hmarked, hdata] at hbehind hrest hspreads
      rw [hdata] at heq hint
      refine ⟨hsup, hint, by omega, ?_⟩
      rw [if_neg (by omega : ¬ blockBefore blocksize length ≤ offset)]
      refine ⟨hfirst, ?_, hkept, hrest, hspreads⟩
      rcases Nat.lt_or_ge (offset + len) length with hlt | hge
      · subst hcontent
        exact Or.inr (readsBehind_marked hlt hbehind heq)
      · exact Or.inl hge
    · obtain ⟨hsup, hin, happend⟩ := (writeLocated_append obligingNet_obliges hlogged hb hb' hoffset
        hd hd' (by rw [hmarked]; omega)).mp hrun
      rw [hmarked] at hin happend
      rw [hdata] at hint happend
      refine ⟨hsup, hint, hin, ?_⟩
      rw [if_pos hfrom]
      exact happend
  · intro net s content data hnet hs hcontent hdata
    subst hcontent hdata
    obtain ⟨hsup, hint, hin, hif⟩ := hcond
    refine (hadoopFuseWrite_iff hnet hs.toSound hlen _).mpr ⟨hint, ?_⟩
    have hlogged := hs.logged (.getBlockLocations 0 (2 ^ 63 - 1))
    rcases Nat.lt_or_ge offset (blockBefore blocksize content.length) with hbefore | hfrom
    · rw [if_neg (by omega)] at hif
      obtain ⟨hfirst, hbehind, hkept, hrest, hspreads⟩ := hif
      obtain ⟨trailing, hreads, hiff⟩ :=
        writeLocated_rewrite nn hnet hlogged hb hb' hlen hlen' hbefore depth
      exact hiff.mpr ⟨hsup, hfirst, hkept, hrest, hspreads, readsBehind_eq hreads hbehind⟩
    · rw [if_pos hfrom] at hif
      exact (writeLocated_append hnet hlogged hb hb' hoffset hlen hlen' (by omega)).mpr
        ⟨hsup, hin, hif⟩

/-- Bytes 5 to 9 of a file of ten: the first byte of the second block is written again. -/
theorem writes_over_middle :
    WriteCondition twoBytePackets 4 10 5 5 ∧ WritesOver twoBytePackets 4 10 5 5 0 :=
  ⟨by decide, (writes_over_iff twoBytePackets 4 10 5 5 0 (by decide) (by decide) (by decide)
    (by decide) (by decide) (by decide)).mpr (by decide)⟩

/-- One byte in the middle of three blocks: of the six bytes behind it the last block comes
first, and the write reports success. In the first block `truncateto` is not set. -/
theorem not_writes_over_middle :
    (hadoopFuseWrite obligingNet twoBytePackets 2 (.ofBytes [55]) 5
        (storedFile 4 [0, 1, 2, 3, 4, 5, 6, 7, 8, 9, 10, 11])).map (fun r => (r.1, r.2.content)) =
      .ok (1, [0, 1, 2, 3, 4, 55, 8, 9, 10, 11, 0, 0]) ∧
    (hadoopFuseWrite obligingNet twoBytePackets 2 (.ofBytes [55]) 2
        (storedFile 4 [0, 1, 2, 3, 4, 5, 6, 7])).map (fun r => (r.1, r.2.content)) =
      .error .uninitialised ∧
    ¬ WritesOver twoBytePackets 4 12 5 1 0 := by
  have hrun : (hadoopFuseWrite obligingNet twoBytePackets 2 (.ofBytes [55]) 5
      (storedFile 4 [0, 1, 2, 3, 4, 5, 6, 7, 8, 9, 10, 11])).map (fun r => (r.1, r.2.content)) =
        .ok (1, [0, 1, 2, 3, 4, 55, 8, 9, 10, 11, 0, 0]) := by decide +kernel
  refine ⟨hrun, by decide +kernel, fun hwrites => ?_⟩
  obtain ⟨t, ht, hcontent⟩ := hwrites obligingNet _ _ [55] obligingNet_obliges
    (storedFile_holds [0, 1, 2, 3, 4, 5, 6, 7, 8, 9, 10, 11] (by decide) (by decide)) rfl rfl
  have hview := map_ok hrun ht
  rw [hcontent] at hview
  exact absurd (Prod.mk.inj hview).2 (by decide)

end Defuse
