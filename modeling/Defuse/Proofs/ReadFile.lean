import Defuse.Proofs.ReceivePackets
import Mathlib.Algebra.Order.BigOperators.Group.List
import Mathlib.Data.List.Infix

/-! Reading a file stored in blocks. `hadoop_fuse_read` asks every block of the range for
its first bytes and puts them at the start of the buffer, so that it returns the bytes of
the file only when the range lies in one block and starts where that block starts. -/

namespace Defuse

open CSem

structure FileBlock where
  len : ℕ
  corrupt : Bool
  locs : List Location

def FileBlock.readable (b : FileBlock) : Bool := b.locs.any Location.serving

/-- A file as the name node knows it. -/
structure HdfsFile where
  blocks : List FileBlock
  underConstruction : Bool
  nonempty : ∀ b ∈ blocks, 0 < b.len
  fits : (blocks.map FileBlock.len).sum < 2 ^ 63

def place : ℕ → List FileBlock → List (ℕ × FileBlock)
  | _, [] => []
  | start, b :: bs => (start, b) :: place (start + b.len) bs

namespace HdfsFile

def length (f : HdfsFile) : ℕ := (f.blocks.map FileBlock.len).sum

def placed (f : HdfsFile) : List (ℕ × FileBlock) := place 0 f.blocks

end HdfsFile

def Overlaps (offset size : ℕ) (pb : ℕ × FileBlock) : Prop :=
  max pb.1 offset < min (pb.1 + pb.2.len) (offset + size)

instance (offset size : ℕ) (pb : ℕ × FileBlock) : Decidable (Overlaps offset size pb) :=
  inferInstanceAs (Decidable (_ < _))

def blockBytes (content : List UInt8) (pb : ℕ × FileBlock) : List UInt8 :=
  (content.drop pb.1).take pb.2.len

def locate (content : List UInt8) (pb : ℕ × FileBlock) : LocatedBlock :=
  ⟨pb.1, pb.2.len, pb.2.corrupt, pb.2.locs.map fun l => l.reply (blockBytes content pb)⟩

def HdfsFile.inRange (f : HdfsFile) (offset size : ℕ) : List (ℕ × FileBlock) :=
  f.placed.filter fun pb => Overlaps offset size pb

def HdfsFile.getBlockLocations (f : HdfsFile) (content : List UInt8) (offset size : ℕ) :
    LocatedBlocks :=
  ⟨f.underConstruction, (f.inRange offset size).map (locate content)⟩

/-- For every content of the file, a read that does not fail returns the bytes of the range,
and it fails when a block of the range is corrupt or unreadable. -/
def ReadExact (f : HdfsFile) (offset size : ℕ) : Prop :=
  ∀ content : List UInt8, content.length = f.length → ∀ buf : List UInt8, buf.length = size →
    ∃ n buf', hadoopFuseRead (.ok (some (f.getBlockLocations content offset size))) size offset buf =
        .ok (n, buf') ∧
      (0 ≤ n → n = (min size (f.length - offset) : ℕ) ∧
        buf'.take n.toNat = (content.drop offset).take n.toNat) ∧
      ((∃ pb ∈ f.inRange offset size, pb.2.corrupt ∨ ¬ pb.2.readable) → n < 0)

/-- The reads that are exact. -/
def ReadCondition (f : HdfsFile) (offset size : ℕ) : Prop :=
  f.underConstruction ∨
    (∃ pb ∈ f.inRange offset size, ¬ pb.2.corrupt ∧ ¬ pb.2.readable) ∨
    asInt size < 0 ∨
    ((∀ pb ∈ f.inRange offset size, ¬ pb.2.corrupt) ∧
      asInt size = (min size (f.length - offset) : ℕ) ∧
      (asInt size = 0 ∨
        ∃ pb ∈ f.placed, pb.1 = offset ∧ (offset : ℤ) + asInt size ≤ pb.1 + pb.2.len))

/-! Layout -/

theorem place_within {start : ℕ} {bs : List FileBlock} {pb : ℕ × FileBlock}
    (h : pb ∈ place start bs) :
    start ≤ pb.1 ∧ pb.1 + pb.2.len ≤ start + (bs.map FileBlock.len).sum ∧ pb.2 ∈ bs := by
  induction bs generalizing start with
  | nil => simp [place] at h
  | cons b bs ih =>
    simp only [place, List.mem_cons] at h
    simp only [List.map_cons, List.sum_cons, List.mem_cons]
    rcases h with rfl | h
    · exact ⟨le_refl _, by dsimp only; omega, Or.inl rfl⟩
    · obtain ⟨h1, h2, h3⟩ := ih h
      exact ⟨by omega, by omega, Or.inr h3⟩

theorem place_pairwise (start : ℕ) (bs : List FileBlock) :
    (place start bs).Pairwise fun a b => a.1 + a.2.len ≤ b.1 := by
  induction bs generalizing start with
  | nil => exact List.Pairwise.nil
  | cons b bs ih =>
    rw [place, List.pairwise_cons]
    exact ⟨fun pb hpb => (place_within hpb).1, ih _⟩

theorem place_covers (start : ℕ) (bs : List FileBlock) {x : ℕ} (hx : start ≤ x)
    (hlt : x < start + (bs.map FileBlock.len).sum) :
    ∃ pb ∈ place start bs, pb.1 ≤ x ∧ x < pb.1 + pb.2.len := by
  induction bs generalizing start with
  | nil => simp at hlt; omega
  | cons b bs ih =>
    simp only [List.map_cons, List.sum_cons] at hlt
    rcases Nat.lt_or_ge x (start + b.len) with h | h
    · exact ⟨(start, b), by simp [place], hx, h⟩
    · obtain ⟨pb, hpb, hle⟩ := ih (start + b.len) h (by omega)
      exact ⟨pb, by simp [place, hpb], hle⟩

variable {f : HdfsFile} {offset size : ℕ} {pb : ℕ × FileBlock} {content : List UInt8}

theorem mem_inRange : pb ∈ f.inRange offset size ↔ pb ∈ f.placed ∧ Overlaps offset size pb := by
  simp [HdfsFile.inRange]

theorem placed_len (h : pb ∈ f.placed) : 0 < pb.2.len ∧ pb.1 + pb.2.len ≤ f.length := by
  obtain ⟨-, h2, h3⟩ := place_within h
  rw [Nat.zero_add] at h2
  exact ⟨f.nonempty _ h3, h2⟩

theorem inRange_before {last : ℕ × FileBlock} (hlast : (f.inRange offset size).getLast? = some last)
    (h : pb ∈ f.inRange offset size) (hne : pb ≠ last) : pb.1 + pb.2.len ≤ last.1 := by
  have hpair := (place_pairwise 0 f.blocks).filter fun pb => Overlaps offset size pb
  change (f.inRange offset size).Pairwise _ at hpair
  obtain ⟨front, hfront⟩ := List.getLast?_eq_some_iff.mp hlast
  rw [hfront] at h hpair
  rcases List.mem_append.mp h with hm | hm
  · exact (List.pairwise_append.mp hpair).2.2 pb hm last (by simp)
  · exact absurd (List.mem_singleton.mp hm) hne

theorem inRange_last_end {last : ℕ × FileBlock}
    (hlast : (f.inRange offset size).getLast? = some last) :
    min (offset + size) f.length ≤ last.1 + last.2.len := by
  by_contra hlt
  have hmem := mem_inRange.mp (List.mem_of_getLast? hlast)
  have hover := hmem.2
  unfold Overlaps at hover
  obtain ⟨pb, hpb, hle, hend⟩ := place_covers 0 f.blocks (x := last.1 + last.2.len)
    (Nat.zero_le _) (by
      rw [Nat.zero_add]
      change _ < f.length
      omega)
  have hin : pb ∈ f.inRange offset size := by
    refine mem_inRange.mpr ⟨hpb, ?_⟩
    unfold Overlaps
    omega
  have hne : pb ≠ last := by
    rintro rfl
    omega
  have := inRange_before hlast hin hne
  omega

/-! Transfers -/

theorem payload_cutPackets (cuts : List ℕ) (bytes : List UInt8) :
    payload (cutPackets cuts bytes) = bytes := by
  induction cuts generalizing bytes with
  | nil => simp [cutPackets, payload]
  | cons n cuts ih => rw [cutPackets, payload_cons, ih, List.take_append_drop]

theorem cutPackets_flags (cuts : List ℕ) (bytes : List UInt8) :
    ∀ p ∈ (cutPackets cuts bytes).dropLast, p.lastPacketInBlock = false := by
  induction cuts generalizing bytes with
  | nil => simp [cutPackets]
  | cons n cuts ih =>
    have hne : cutPackets cuts (bytes.drop n) ≠ [] := by cases cuts <;> simp [cutPackets]
    intro p hp
    rw [cutPackets, List.dropLast_cons_of_ne_nil hne] at hp
    rcases List.mem_cons.mp hp with rfl | hp
    · rfl
    · exact ih _ p hp

theorem readLocations_failing {op : ReadOp} {location : ReadOp → DatanodeReply}
    (h : (location op).connect < 0 ∨ (location op).call < 0 ∨ (location op).stream.res < 0)
    {buf : List UInt8} (hbuf : op.len ≤ buf.length) (locs : List (ReadOp → DatanodeReply)) (res : ℤ) :
    ∃ res' buf', readLocations op (location :: locs) res buf = readLocations op locs res' buf' ∧
      buf'.length = buf.length := by
  rw [readLocations]
  dsimp only
  split_ifs with hconnect hcall
  · exact ⟨_, buf, rfl, rfl⟩
  · exact ⟨_, buf, rfl, rfl⟩
  · have hres := (h.resolve_left hconnect).resolve_left hcall
    unfold receivePackets
    obtain ⟨buf', hrun, hagree⟩ := receiveLoop_broken hres (location op).stream.packets 0 op.len
      (op.skipbytes (location op).chunkoffset) (by rw [Nat.zero_add]; exact hbuf)
    refine ⟨(location op).stream.res, buf', ?_, hagree.length_eq⟩
    rw [hrun, ok_bind]
    exact if_pos hres

theorem readLocations_serving {bytes buf : List UInt8} {len : ℕ} (hbytes : len ≤ bytes.length)
    (hbuf : len ≤ buf.length) (chunk : Option ℕ) (cuts : List ℕ)
    (locs : List (ReadOp → DatanodeReply)) (res : ℤ) :
    readLocations ⟨0, len⟩ ((Location.serves chunk cuts).reply bytes :: locs) res buf =
      .ok (true, 0, bytes.take len ++ buf.drop len) := by
  have hreply : (Location.serves chunk cuts).reply bytes ⟨0, len⟩ =
      ⟨0, 0, chunk.map fun _ => 0, ⟨cutPackets cuts (bytes.take len), 0⟩⟩ := by
    cases chunk <;> simp [Location.reply]
  have hskip : ReadOp.skipbytes ⟨0, len⟩ (chunk.map fun _ => 0) = 0 := by
    cases chunk <;> rfl
  have hrun := receiveLoop_eq (le_refl 0) (cutPackets cuts (bytes.take len))
    (cutPackets_flags cuts _) 0 len 0 (by rw [Nat.zero_add]; exact hbuf)
    (by rw [payload_cutPackets, List.length_take]; omega)
  rw [payload_cutPackets] at hrun
  simp only [List.take_zero, List.nil_append, Nat.zero_add, List.drop_zero, List.take_take,
    Nat.min_self] at hrun
  rw [readLocations, hreply]
  dsimp only
  rw [hskip, if_neg (lt_irrefl 0), if_neg (lt_irrefl 0), receivePackets, hrun]
  rfl

/-- The loop over the locations: the first serving one decides, if there is one. -/
theorem readLocations_eq {bytes buf : List UInt8} {len : ℕ} (hbytes : len ≤ bytes.length)
    (hbuf : len ≤ buf.length) (locs : List Location) (res : ℤ) :
    ∃ res' buf', readLocations ⟨0, len⟩ (locs.map fun l => l.reply bytes) res buf =
        .ok (locs.any Location.serving, res', buf') ∧ buf'.length = buf.length ∧
      (locs.any Location.serving → buf'.take len = bytes.take len) := by
  induction locs generalizing res buf with
  | nil => exact ⟨res, buf, rfl, rfl, by simp⟩
  | cons l locs ih =>
    rw [List.map_cons, List.any_cons]
    by_cases hl : l.serving
    · cases l with
      | serves chunk cuts =>
        rw [readLocations_serving hbytes hbuf]
        refine ⟨0, _, rfl, ?_, fun _ => ?_⟩
        · rw [List.length_append, List.length_take, List.length_drop]
          omega
        · rw [List.take_left']
          rw [List.length_take]
          omega
      | connectFails e => cases hl
      | refused e => cases hl
      | breaks chunkoffset packets e => cases hl
    · have hfail : (l.reply bytes ⟨0, len⟩).connect < 0 ∨ (l.reply bytes ⟨0, len⟩).call < 0 ∨
          (l.reply bytes ⟨0, len⟩).stream.res < 0 := by
        cases l with
        | serves chunk cuts => exact absurd rfl hl
        | connectFails e => exact Or.inl e.property
        | refused e => exact Or.inr (Or.inl e.property)
        | breaks chunkoffset packets e => exact Or.inr (Or.inr e.property)
      obtain ⟨res1, buf1, hrun, hlen⟩ := readLocations_failing hfail hbuf
        (locs.map fun l => l.reply bytes) res
      obtain ⟨res', buf', hrun', hlen', htake⟩ := ih (by rw [hlen]; exact hbuf) res1
      refine ⟨res', buf', ?_, hlen'.trans hlen, ?_⟩
      · rw [hrun, hrun', Bool.eq_false_of_not_eq_true hl, Bool.false_or]
      · rw [Bool.eq_false_of_not_eq_true hl, Bool.false_or]
        exact htake

def Stored (content : List UInt8) (pb : ℕ × FileBlock) : Prop :=
  pb.2.len < 2 ^ 64 ∧ pb.1 + pb.2.len ≤ content.length

theorem readOp_eq (size offset : ℕ) (h : Stored content pb) :
    readOp size offset (locate content pb) = ⟨0, min pb.2.len size⟩ := by
  have hnum : asU64 ((pb.2.len : ℤ) - ((0 : ℕ) : ℤ)) = pb.2.len := by
    rw [Int.natCast_zero, Int.sub_zero, asU64_natCast h.1]
  unfold readOp locate
  dsimp only
  rw [Nat.min_zero, hnum]

theorem readBlock_eq (offset : ℕ) (h : Stored content pb) (hcorrupt : pb.2.corrupt = false) {buf : List UInt8}
    (hbuf : buf.length = size) (blocks : List LocatedBlock) (res : ℤ) :
    ∃ res' buf', buf'.length = size ∧
      (pb.2.readable → buf'.take (min pb.2.len size) = (blockBytes content pb).take (min pb.2.len size)) ∧
      readBlocks size offset (locate content pb :: blocks) res buf =
        if pb.2.readable then readBlocks size offset blocks res' buf'
        else .ok (if res' < 0 then res' else - EIO, buf') := by
  have hbytes : min pb.2.len size ≤ (blockBytes content pb).length := by
    unfold blockBytes
    rw [List.length_take, List.length_drop]
    have := h.2
    omega
  obtain ⟨res', buf', hrun, hlen, htake⟩ := readLocations_eq hbytes (by omega : _ ≤ buf.length)
    pb.2.locs res
  refine ⟨res', buf', hlen.trans hbuf, htake, ?_⟩
  have hlocs : (locate content pb).locs = pb.2.locs.map fun l => l.reply (blockBytes content pb) := rfl
  have hc : (locate content pb).corrupt = false := hcorrupt
  rw [readBlocks, hc, if_neg (by simp), readOp_eq size offset h, hlocs, hrun, ok_bind]
  rfl

/-- A block that is neither corrupt nor readable ends the loop with an error. -/
theorem readBlocks_unreadable (offset : ℕ) {buf : List UInt8} (hbuf : buf.length = size)
    (pbs : List (ℕ × FileBlock)) (hstored : ∀ pb ∈ pbs, Stored content pb)
    (h : ∃ pb ∈ pbs, ¬ pb.2.corrupt ∧ ¬ pb.2.readable) (res : ℤ) :
    ∃ n buf', readBlocks size offset (pbs.map (locate content)) res buf = .ok (n, buf') ∧ n < 0 := by
  induction pbs generalizing buf res with
  | nil => simp at h
  | cons pb pbs ih =>
    rw [List.map_cons]
    by_cases hc : pb.2.corrupt
    · have hbad : ∃ pb ∈ pbs, ¬ pb.2.corrupt ∧ ¬ pb.2.readable := by
        obtain ⟨q, hq, hqc, hqr⟩ := h
        rcases List.mem_cons.mp hq with rfl | hq
        · exact absurd hc hqc
        · exact ⟨q, hq, hqc, hqr⟩
      have hcorrupt : (locate content pb).corrupt = true := hc
      rw [readBlocks, if_pos hcorrupt]
      exact ih hbuf (fun q hq => hstored q (by simp [hq])) hbad _
    · obtain ⟨res', buf', hlen, -, hrun⟩ := readBlock_eq offset (hstored pb (by simp))
        (Bool.eq_false_of_not_eq_true hc) hbuf (pbs.map (locate content)) res
      rw [hrun]
      split_ifs with hr hres
      · refine ih hlen (fun q hq => hstored q (by simp [hq])) ?_ _
        obtain ⟨q, hq, hqc, hqr⟩ := h
        rcases List.mem_cons.mp hq with rfl | hq
        · exact absurd hr hqr
        · exact ⟨q, hq, hqc, hqr⟩
      · exact ⟨_, _, rfl, hres⟩
      · exact ⟨_, _, rfl, by unfold EIO; omega⟩

/-- Otherwise the loop returns the size asked for, with the front of the last block at the
front of the buffer. -/
theorem readBlocks_readable (offset : ℕ) {buf : List UInt8} (hbuf : buf.length = size)
    (pbs : List (ℕ × FileBlock)) (hstored : ∀ pb ∈ pbs, Stored content pb)
    (h : ∀ pb ∈ pbs, pb.2.corrupt ∨ pb.2.readable) (res : ℤ) :
    ∃ buf', readBlocks size offset (pbs.map (locate content)) res buf = .ok (asInt size, buf') ∧
      ∀ last, pbs.getLast? = some last → ¬ last.2.corrupt →
        buf'.take (min last.2.len size) = (blockBytes content last).take (min last.2.len size) := by
  induction pbs generalizing buf res with
  | nil => exact ⟨buf, rfl, by simp⟩
  | cons pb pbs ih =>
    have ih' := fun {b : List UInt8} (hb : b.length = size) => ih hb
      (fun q hq => hstored q (by simp [hq])) (fun q hq => h q (by simp [hq]))
    rw [List.map_cons]
    by_cases hc : pb.2.corrupt
    · have hcorrupt : (locate content pb).corrupt = true := hc
      obtain ⟨buf', hrun, htake⟩ := ih' hbuf (-EBADMSG)
      refine ⟨buf', by rw [readBlocks, if_pos hcorrupt, hrun], ?_⟩
      intro last hlast hlc
      rw [List.getLast?_cons] at hlast
      cases hpbs : pbs.getLast? with
      | none =>
        rw [hpbs] at hlast
        cases hlast
        exact absurd hc hlc
      | some last' =>
        rw [hpbs] at hlast
        cases hlast
        exact htake last' hpbs hlc
    · have hr := (h pb (by simp)).resolve_left hc
      obtain ⟨res', buf1, hlen, hfront, hrun⟩ := readBlock_eq offset
        (hstored pb (by simp)) (Bool.eq_false_of_not_eq_true hc) hbuf (pbs.map (locate content)) res
      obtain ⟨buf', hrun', htake⟩ := ih' hlen res'
      cases hpbs : pbs.getLast? with
      | none =>
        have hnil : pbs = [] := List.getLast?_eq_none_iff.mp hpbs
        subst hnil
        refine ⟨buf1, by rw [hrun, if_pos hr]; rfl, ?_⟩
        intro last hlast _
        cases hlast
        exact hfront hr
      | some last' =>
        refine ⟨buf', by rw [hrun, if_pos hr, hrun'], ?_⟩
        intro last hlast hlc
        rw [List.getLast?_cons, hpbs] at hlast
        cases hlast
        exact htake last' hpbs hlc

theorem inRange_stored (hlen : content.length = f.length) :
    ∀ pb ∈ f.inRange offset size, Stored content pb := by
  intro pb hpb
  obtain ⟨-, hle⟩ := placed_len (mem_inRange.mp hpb).1
  have hfits : f.length < 2 ^ 63 := f.fits
  exact ⟨by omega, by omega⟩

/-- What `hadoop_fuse_read` does on a file all of whose blocks in the range are corrupt or
readable. -/
theorem hadoopFuseRead_readable (huc : f.underConstruction = false)
    (h : ∀ pb ∈ f.inRange offset size, pb.2.corrupt ∨ pb.2.readable)
    (hlen : content.length = f.length) {buf : List UInt8} (hbuf : buf.length = size) :
    ∃ buf', hadoopFuseRead (.ok (some (f.getBlockLocations content offset size))) size offset buf =
        .ok (asInt size, buf') ∧
      ∀ last, (f.inRange offset size).getLast? = some last → ¬ last.2.corrupt →
        buf'.take (min last.2.len size) = (blockBytes content last).take (min last.2.len size) := by
  obtain ⟨buf', hrun, htake⟩ := readBlocks_readable offset hbuf (f.inRange offset size)
    (inRange_stored hlen) h 0
  refine ⟨buf', ?_, htake⟩
  simp only [hadoopFuseRead, HdfsFile.getBlockLocations, huc]
  exact hrun

theorem readExact_of_unreadable (h : ∃ pb ∈ f.inRange offset size, ¬ pb.2.corrupt ∧ ¬ pb.2.readable)
    (huc : f.underConstruction = false) : ReadExact f offset size := by
  intro content hlen buf hbuf
  obtain ⟨n, buf', hrun, hn⟩ := readBlocks_unreadable offset hbuf
    (f.inRange offset size) (inRange_stored hlen) h 0
  refine ⟨n, buf', ?_, fun hn' => by omega, fun _ => hn⟩
  simp only [hadoopFuseRead, HdfsFile.getBlockLocations, huc]
  exact hrun

theorem inRange_last (hin : pb ∈ f.inRange offset size) :
    ∃ last, (f.inRange offset size).getLast? = some last :=
  ⟨_, List.getLast?_eq_some_getLast (List.ne_nil_of_mem hin)⟩

theorem inRange_getLast (hpb : pb ∈ f.placed) (hstart : pb.1 = offset)
    (hpos : 0 < min size (f.length - offset))
    (hend : offset + min size (f.length - offset) ≤ pb.1 + pb.2.len) :
    (f.inRange offset size).getLast? = some pb := by
  have hin : pb ∈ f.inRange offset size := by
    refine mem_inRange.mpr ⟨hpb, ?_⟩
    unfold Overlaps
    omega
  obtain ⟨last, hlast⟩ := inRange_last hin
  rw [hlast]
  by_contra hne
  have hne' : pb ≠ last := fun h => hne (by rw [h])
  have hle := inRange_before hlast hin hne'
  obtain ⟨hmem, hover⟩ := mem_inRange.mp (List.mem_of_getLast? hlast)
  obtain ⟨hl, hl'⟩ := placed_len hmem
  unfold Overlaps at hover
  omega

theorem head_of_take_eq {l l' : List UInt8} {k : ℕ} (hk : 0 < k) (h : l.take k = l'.take k) :
    l[0]? = l'[0]? := by
  rw [← List.getElem?_take_of_lt hk, h, List.getElem?_take_of_lt hk]

theorem last_starts_at_offset {last : ℕ × FileBlock} {buf' : List UInt8} {n : ℕ} (hn : 0 < n)
    (hsize : 0 < size) (hlast : last ∈ f.placed)
    (hread : buf'.take n = (((List.replicate f.length 0).set offset 1).drop offset).take n)
    (hfront : buf'.take (min last.2.len size) =
      (blockBytes ((List.replicate f.length 0).set offset 1) last).take (min last.2.len size))
    (hoffset : offset < f.length) : last.1 = offset := by
  obtain ⟨hlen, hend⟩ := placed_len hlast
  have h1 := head_of_take_eq hn hread
  have h2 := head_of_take_eq (by omega) hfront
  rw [h1, blockBytes, List.getElem?_take_of_lt hlen, List.getElem?_drop, List.getElem?_drop,
    Nat.add_zero, Nat.add_zero, List.getElem?_set_self (by rw [List.length_replicate]; exact hoffset)]
    at h2
  by_contra hne
  rw [List.getElem?_set_ne (Ne.symm hne), List.getElem?_replicate, if_pos (by omega)] at h2
  cases h2

theorem inRange_last_of_pos (hpos : 0 < min size (f.length - offset)) :
    ∃ last, (f.inRange offset size).getLast? = some last := by
  obtain ⟨pb, hpb, hle, hlt⟩ := place_covers 0 f.blocks (x := offset) (Nat.zero_le _) (by
    rw [Nat.zero_add]
    change _ < f.length
    omega)
  have hin : pb ∈ f.inRange offset size := by
    refine mem_inRange.mpr ⟨hpb, ?_⟩
    unfold Overlaps
    omega
  exact inRange_last hin

/-- An exact read that does not fail keeps to one block, from its start. -/
theorem starts_block_of_exact (huc : f.underConstruction = false)
    (hreadable : ∀ pb ∈ f.inRange offset size, pb.2.corrupt ∨ pb.2.readable)
    (hpos : 0 ≤ asInt size) (h : ReadExact f offset size) :
    (∀ pb ∈ f.inRange offset size, ¬ pb.2.corrupt) ∧
      asInt size = (min size (f.length - offset) : ℕ) ∧
      (asInt size = 0 ∨
        ∃ pb ∈ f.placed, pb.1 = offset ∧ (offset : ℤ) + asInt size ≤ pb.1 + pb.2.len) := by
  have hmark : ((List.replicate f.length (0 : UInt8)).set offset 1).length = f.length := by simp
  have hbuf : (List.replicate size (0 : UInt8)).length = size := List.length_replicate
  obtain ⟨n, buf', hrun, hexact, hcorrupt⟩ := h _ hmark _ hbuf
  obtain ⟨buf'', hrun', hfront⟩ := hadoopFuseRead_readable huc hreadable hmark hbuf
  rw [hrun] at hrun'
  obtain ⟨hn', hb'⟩ := Prod.mk.inj (Except.ok.inj hrun')
  rw [← hb'] at hfront
  have hnc : ∀ pb ∈ f.inRange offset size, ¬ pb.2.corrupt := by
    intro pb hpb hc
    have := hcorrupt ⟨pb, hpb, Or.inl hc⟩
    omega
  rw [← hn'] at hpos ⊢
  obtain ⟨hn, hbytes⟩ := hexact hpos
  refine ⟨hnc, hn, ?_⟩
  by_cases hzero : n = 0
  · exact Or.inl hzero
  · right
    obtain ⟨last, hlast⟩ : ∃ last, (f.inRange offset size).getLast? = some last :=
      inRange_last_of_pos (by omega)
    have hmem := List.mem_of_getLast? hlast
    have hplaced := (mem_inRange.mp hmem).1
    have hstart := last_starts_at_offset (by omega) (by omega) hplaced hbytes
      (hfront last hlast (hnc last hmem)) (by omega)
    have hend := inRange_last_end hlast
    exact ⟨last, hplaced, hstart, by omega⟩

/-- A read that keeps to one block, from its start, is exact. -/
theorem exact_of_starts_block (huc : f.underConstruction = false)
    (hreadable : ∀ pb ∈ f.inRange offset size, pb.2.corrupt ∨ pb.2.readable)
    (hnc : ∀ pb ∈ f.inRange offset size, ¬ pb.2.corrupt)
    (hn : asInt size = (min size (f.length - offset) : ℕ))
    (hwhere : asInt size = 0 ∨
      ∃ pb ∈ f.placed, pb.1 = offset ∧ (offset : ℤ) + asInt size ≤ pb.1 + pb.2.len) :
    ReadExact f offset size := by
  intro content hlen buf hbuf
  obtain ⟨buf', hrun, hfront⟩ := hadoopFuseRead_readable huc hreadable hlen hbuf
  refine ⟨asInt size, buf', hrun, fun _ => ⟨hn, ?_⟩, ?_⟩
  · rcases hwhere with hzero | ⟨pb, hpb, hstart, hend⟩
    · simp [hzero]
    · obtain ⟨m, hm⟩ : ∃ m, m = min size (f.length - offset) := ⟨_, rfl⟩
      rw [← hm] at hn
      rw [hn, Int.toNat_natCast]
      rcases Nat.eq_zero_or_pos m with h0 | hpos
      · simp [h0]
      · have hlast : (f.inRange offset size).getLast? = some pb :=
          inRange_getLast hpb hstart (by omega) (by omega)
        have hbytes := congrArg (List.take m)
          (hfront pb hlast (hnc pb (List.mem_of_getLast? hlast)))
        rw [List.take_take, List.take_take, show min m (min pb.2.len size) = m by omega, blockBytes,
          List.take_take, show min m pb.2.len = m by omega, hstart] at hbytes
        exact hbytes
  · rintro ⟨pb, hpb, hc | hr⟩
    · exact absurd hc (hnc pb hpb)
    · exact absurd ((hreadable pb hpb).resolve_left (hnc pb hpb)) hr

/-- Reads that are exact for every content of the file. -/
theorem read_exact_iff (f : HdfsFile) (offset size : ℕ) :
    ReadExact f offset size ↔ ReadCondition f offset size := by
  cases huc : f.underConstruction with
  | true =>
    refine iff_of_true ?_ (Or.inl huc)
    intro content _ buf _
    refine ⟨-EAGAIN, buf, ?_, fun h => absurd h (by decide), fun _ => by decide⟩
    simp only [hadoopFuseRead, HdfsFile.getBlockLocations, huc]
    rfl
  | false =>
    by_cases hun : ∃ pb ∈ f.inRange offset size, ¬ pb.2.corrupt ∧ ¬ pb.2.readable
    · exact iff_of_true (readExact_of_unreadable hun huc) (Or.inr (Or.inl hun))
    have hreadable : ∀ pb ∈ f.inRange offset size, pb.2.corrupt ∨ pb.2.readable := by
      intro pb hpb
      by_contra hno
      rw [not_or] at hno
      exact hun ⟨pb, hpb, hno⟩
    by_cases hneg : asInt size < 0
    · refine iff_of_true ?_ (Or.inr (Or.inr (Or.inl hneg)))
      intro content hlen buf hbuf
      obtain ⟨buf', hrun, -⟩ := hadoopFuseRead_readable huc hreadable hlen hbuf
      exact ⟨asInt size, buf', hrun, fun h => absurd hneg (by omega), fun _ => hneg⟩
    refine ⟨fun h => ?_, ?_⟩
    · exact Or.inr (Or.inr (Or.inr (starts_block_of_exact huc hreadable (not_lt.mp hneg) h)))
    · rintro (h | h | h | ⟨hnc, hn, hwhere⟩)
      · rw [huc] at h
        cases h
      · exact absurd h hun
      · exact absurd h hneg
      · exact exact_of_starts_block huc hreadable hnc hn hwhere

/-- A file of one block of three bytes. -/
def threeBytes : HdfsFile where
  blocks := [⟨3, false, [.serves none []]⟩]
  underConstruction := false
  nonempty := by simp
  fits := by decide

/-- Two bytes read at offset 1 are the first two bytes of the file. -/
theorem read_inexact_mid_block :
    hadoopFuseRead (.ok (some (threeBytes.getBlockLocations [1, 2, 3] 1 2))) 2 1 [0, 0] =
        .ok (2, [1, 2]) ∧ ¬ ReadExact threeBytes 1 2 := by
  have hrun : hadoopFuseRead (.ok (some (threeBytes.getBlockLocations [1, 2, 3] 1 2))) 2 1 [0, 0] =
      .ok (2, [1, 2]) := by decide
  refine ⟨hrun, fun h => ?_⟩
  obtain ⟨n, buf', hrun', hexact, -⟩ := h [1, 2, 3] rfl [0, 0] rfl
  rw [hrun] at hrun'
  cases hrun'
  exact absurd (hexact (by decide)).2 (by decide)

end Defuse
