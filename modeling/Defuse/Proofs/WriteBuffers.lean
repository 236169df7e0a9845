import Defuse.Proofs.Shrink

/-! `hadoop_fuse_write` from the lock to `complete`: what its buffers do to the file. -/

namespace Defuse

open CSem

variable {net : Net} {nn : NamenodeState} {s t : Hdfs} {located : LocatedFile} {plan : WritePlan}
  {padding : ℕ} {buffer : FuseBuffer} {res : ℤ} {data : List UInt8}

/-! From the lock to `complete` -/

def WritePlan.pos (plan : WritePlan) (padding : ℕ) (data : FuseBuffer) : BufferPos :=
  ⟨[plan.kept, .zeros padding, data, plan.trailing], 0,
    asU64 (plan.kept.len + padding + data.len + plan.trailing.len)⟩

def WritePlan.lastlocation (plan : WritePlan) (located : LocatedFile) : Option Located :=
  if plan.nBlocks = 0 then none else located.blocks[plan.nBlocks - 1]?

def WritePlan.locked (plan : WritePlan) (s : Hdfs) : Option ExtendedBlock :=
  ((s.blocks.getLast?.filter fun b => b.numbytes < s.blocksize).map StoredBlock.extended).or
    plan.last

theorem zeros_bytes (n : ℕ) : (FuseBuffer.zeros n).bytes = List.replicate n 0 := rfl

theorem WritePlan.flat_eq (plan : WritePlan) (padding : ℕ) (buffer : FuseBuffer) :
    (plan.pos padding buffer).flat = plan.kept.bytes ++
      (List.replicate padding 0 ++ (buffer.bytes ++ plan.trailing.bytes)) := by
  simp [BufferPos.flat, WritePlan.pos, zeros_bytes]

theorem WritePlan.feeds (plan : WritePlan) (padding : ℕ) (buffer : FuseBuffer)
    (h : plan.kept.len + padding + buffer.len + plan.trailing.len < 2 ^ 64) :
    (plan.pos padding buffer).Feeds (plan.pos padding buffer).flat ∧
      (plan.pos padding buffer).len =
        plan.kept.len + padding + buffer.len + plan.trailing.len := by
  have hlen : (plan.pos padding buffer).len =
      plan.kept.len + padding + buffer.len + plan.trailing.len := by
    exact_mod_cast asU64_natCast h
  have hflat : (plan.pos padding buffer).flat.length =
      plan.kept.len + padding + buffer.len + plan.trailing.len := by
    rw [plan.flat_eq]
    simp only [List.length_append, FuseBuffer.bytes_length, List.length_replicate]
    omega
  exact ⟨⟨supplies_flat (by omega), le_rfl, by omega, Nat.zero_le _⟩, hlen⟩

theorem assembleLoop_skip {b : FuseBuffer} {idx off next : ℕ} (h : asU64 ((idx : ℤ) + b.len) = next)
    (hle : next ≤ off) (len : ℕ) (bs : List FuseBuffer) (written : ℕ)
    (packet : Option (List UInt8)) :
    assembleLoop off len (b :: bs) idx written packet =
      if written < len then assembleLoop off len bs next written packet else packet := by
  rw [assembleLoop, h, if_neg (by omega : ¬ next > off)]

/-- Padding that wraps around: a buffer behind it is never reached. -/
theorem supplies_padding {padding : ℕ} {data : FuseBuffer} (hp : 2 ^ 63 < padding)
    (hp' : padding < 2 ^ 64) (hd : data.len < 2 ^ 63) (hwrap : 2 ^ 64 ≤ padding + data.len) :
    Supplies [.zeros 0, .zeros padding, data, .zeros 0] (List.replicate padding 0) := by
  refine ⟨by rw [List.length_replicate]; exact hp', fun off len hlen => ?_⟩
  have h0 : ∀ n : ℕ, n < 2 ^ 64 → asU64 ((n : ℤ) + (FuseBuffer.zeros 0).len) = n := by
    intro n hn
    change asU64 ((n : ℤ) + (0 : ℕ)) = n
    unfold asU64
    omega
  have h1 : asU64 (((0 : ℕ) : ℤ) + (FuseBuffer.zeros padding).len) = padding := by
    change asU64 (((0 : ℕ) : ℤ) + padding) = padding
    unfold asU64
    omega
  have h2 : asU64 ((padding : ℤ) + data.len) = padding + data.len - 2 ^ 64 := by
    unfold asU64
    omega
  -- what lies behind the padding is skipped
  have hbehind : ∀ written packet, padding + data.len - 2 ^ 64 ≤ off →
      assembleLoop off len [data, .zeros 0] padding written packet = packet := by
    intro written packet hle
    rw [assembleLoop_skip h2 hle, assembleLoop_skip (h0 _ (by omega)) hle]
    simp [assembleLoop]
  rw [assembleLoop_skip (h0 0 (by norm_num)) (Nat.zero_le off)]
  by_cases hmore : 0 < len
  · rw [if_pos hmore]
    rcases Nat.lt_or_ge off padding with hin | hout
    · have hoff : (if 0 > off then 0 else off) = off := if_neg (by omega)
      have hsub : asU64 (((FuseBuffer.zeros padding).len : ℤ) - off) = padding - off := by
        change asU64 ((padding : ℤ) - off) = padding - off
        unfold asU64
        omega
      rw [assembleLoop, if_pos hmore, h1, if_pos hin]
      simp only [Nat.sub_zero, hoff, hsub, zeros_bytes]
      by_cases hall : min len (padding - off) = len
      · rw [if_pos hall, hall, Option.getD_some]
      · rw [if_neg hall, if_pos (by omega), hbehind _ _ (by omega), Option.getD_some, Option.getD_none,
          List.nil_append, Nat.min_eq_right (by omega), List.drop_replicate, List.take_replicate,
          List.take_replicate]
        congr 1
        omega
    · rw [assembleLoop_skip h1 hout, if_pos hmore, hbehind _ _ (by omega), Option.getD_none,
        List.drop_of_length_le (by rw [List.length_replicate]; exact hout), List.take_nil]
  · obtain rfl : len = 0 := by omega
    simp

section Buffers

variable (hnet : ∀ k, net.ObligesAt k)

include hnet

theorem writeBuffers_eq (located : LocatedFile) (plan : WritePlan) (padding : ℕ)
    (buffer : FuseBuffer) (s : Hdfs) :
    writeBuffers net nn located plan padding buffer s =
      (doWrite net nn (plan.pos padding buffer) plan.offsetintofile (plan.lastlocation located)
        (plan.locked s) s.locked >>= fun r =>
          .ok (r.1, (hadoopFuseComplete net r.2.2.fh.fileid r.2.1 r.2.2).2)) := by
  unfold writeBuffers
  rw [lock_ok plan.last (hnet _).answers]
  refine congrArg (doWrite net nn (plan.pos padding buffer) plan.offsetintofile
    (plan.lastlocation located) (plan.locked s)
    s.locked >>= ·) (funext fun r => ?_)
  obtain ⟨n, hcomplete⟩ := complete_ok (fun k => (hnet k).answers) r.2.2.fh.fileid r.2.1 r.2.2
  simp only [hcomplete]
  rw [if_neg (by omega)]
  rfl

theorem writeBuffers_of_doWrite {last : Option ExtendedBlock}
    (h : doWrite net nn (plan.pos padding buffer) plan.offsetintofile (plan.lastlocation located)
      (plan.locked s) s.locked = .ok (res, last, t)) :
    ∃ t', writeBuffers net nn located plan padding buffer s = .ok (res, t') ∧
      t'.blocks = (t.commit last).blocks := by
  obtain ⟨n, hcomplete⟩ := complete_ok (fun k => (hnet k).answers) t.fh.fileid last t
  rw [writeBuffers_eq hnet, h, ok_bind, hcomplete]
  exact ⟨_, rfl, rfl⟩

end Buffers

theorem locked_settled (hnodup : (s.blocks.map StoredBlock.blockid).Nodup)
    (h : Settled plan.last s.blocks) : Settled (plan.locked s) s.blocks := by
  unfold WritePlan.locked
  cases hlast : s.blocks.getLast?.filter fun b => b.numbytes < s.blocksize with
  | none => exact h
  | some b =>
    have hmem := (Option.filter_eq_some_iff.mp hlast).1
    exact settled_recorded hnodup (List.mem_of_getLast? hmem)

theorem WritePlan.pos_left (plan : WritePlan) (padding : ℕ) (buffer : FuseBuffer) :
    (plan.pos padding buffer).len - (plan.pos padding buffer).bufferoffset =
      (plan.pos padding buffer).len := Nat.sub_zero _

theorem WritePlan.pos_advance (hpos : (plan.pos padding buffer).Feeds data) {n : ℕ}
    (hn : n ≤ (plan.pos padding buffer).len) :
    ((plan.pos padding buffer).advance n).bufferoffset = n ∧
      ((plan.pos padding buffer).advance n).len -
        ((plan.pos padding buffer).advance n).bufferoffset = (plan.pos padding buffer).len - n := by
  have hoff : ((plan.pos padding buffer).advance n).bufferoffset = n :=
    (hpos.offset_advance hn).trans (Nat.zero_add n)
  refine ⟨hoff, ?_⟩
  rw [hoff]
  rfl

section Closed

variable (hnet : ∀ k, net.ObligesAt k) (hpos : (plan.pos padding buffer).Feeds data)
  (h0 : 0 < s.fh.blocksize) (hb : s.fh.blocksize < 2 ^ 64)
  (hfresh : ∀ b ∈ s.blocks, b.blockid < s.fresh)
  (hopen : openBlock (plan.lastlocation located) plan.offsetintofile s.fh.blocksize = none)

include hnet hpos h0 hb hfresh hopen

theorem writeBuffers_closed (hnodup : (s.blocks.map StoredBlock.blockid).Nodup)
    (hlast : Settled plan.last s.blocks)
    (hsup : 0 < (plan.pos padding buffer).len → nn.Supported)
    (hspreads : Spreads nn s.fh.blocksize (plan.pos padding buffer).len) :
    ∃ res t, writeBuffers net nn located plan padding buffer s = .ok (res, t) ∧ 0 ≤ res ∧
      t.content = s.content ++ data.take (plan.pos padding buffer).len := by
  have hsettled : Settled (plan.locked s) s.locked.blocks := locked_settled hnodup hlast
  obtain ⟨res, last, s', news, hrun, hres, -, hblocks, hnews⟩ :=
    doWriteLoop_ok (s := s.locked) hnet hpos h0 hb hfresh
      (by rw [plan.pos_left]; exact Nat.lt_succ_self _) hsup
      (by rw [plan.pos_left]; exact hspreads) le_rfl (plan.locked s)
  obtain ⟨t, ht, htblocks⟩ := writeBuffers_of_doWrite hnet
    ((doWrite_closed (s := s.locked) hopen (plan.locked s)).trans hrun)
  refine ⟨res, t, ht, hres, ?_⟩
  rw [hsettled.commit_eq] at hblocks
  change visible t.blocks = visible s.locked.blocks ++ _
  rw [htblocks, hblocks, visible_append, hnews, BufferPos.rest, plan.pos_left]
  rfl

theorem writeBuffers_closed_inv (hres : 0 ≤ res)
    (h : writeBuffers net nn located plan padding buffer s = .ok (res, t)) :
    Spreads nn s.fh.blocksize (plan.pos padding buffer).len ∧
      (0 < (plan.pos padding buffer).len → nn.Supported) := by
  rw [writeBuffers_eq hnet, bind_ok_iff] at h
  obtain ⟨⟨res', last, s'⟩, hwrite, h⟩ := h
  obtain ⟨rfl, -⟩ := Prod.mk.inj (Except.ok.inj h)
  rw [doWrite_closed (s := s.locked) hopen] at hwrite
  have hinv := doWriteLoop_inv (s := s.locked) hnet hpos h0 hb hfresh hres hwrite
  rw [plan.pos_left] at hinv
  exact hinv

end Closed

def openBytes (blocksize blockoffset len : ℕ) : ℕ := min (blocksize - blockoffset) len

theorem overlay_last {xs : List StoredBlock} {y : StoredBlock} {offset blocksize : ℕ}
    {bytes : List UInt8} (hs : s.blocks = xs ++ [y])
    (hwhole : ∀ b ∈ s.blocks, b.bytes.length = b.numbytes) (hle : total xs ≤ offset)
    (hy : y.numbytes ≤ blocksize) :
    visible xs ++ (overlay y.bytes (offset - total xs)
        (bytes.take (openBytes blocksize (offset - total xs) bytes.length)) ++
      bytes.drop (openBytes blocksize (offset - total xs) bytes.length)) =
      overlay s.content offset bytes := by
  have hy' := hwhole y (by simp [hs])
  have hcontent : s.content = visible xs ++ y.bytes := by
    change visible s.blocks = _
    rw [hs, visible_append, visible_cons, visible_nil, List.append_nil, ← hy', List.take_length]
  have hxs : (visible xs).length = total xs := visible_length fun x hx => hwhole x (by simp [hs, hx])
  have hoffset : offset = (visible xs).length + (offset - total xs) := by omega
  have hfirst : openBytes blocksize (offset - total xs) bytes.length ≤ bytes.length ∧
      (openBytes blocksize (offset - total xs) bytes.length = bytes.length ∨
        y.bytes.length ≤ offset - total xs +
          openBytes blocksize (offset - total xs) bytes.length) := by
    unfold openBytes
    omega
  rw [overlay_take_drop hfirst.1 hfirst.2, hcontent]
  conv_rhs => rw [hoffset, overlay_append_left]

section Open

variable {xs : List StoredBlock} {y : StoredBlock}
  (hnet : ∀ k, net.ObligesAt k) (hpos : (plan.pos padding buffer).Feeds data)
  (h0 : 0 < s.fh.blocksize) (hfresh : ∀ b ∈ s.blocks, b.blockid < s.fresh)
  (hs : s.blocks = xs ++ [y]) (hid : ∀ x ∈ xs, x.blockid ≠ y.blockid)
  (hloc : plan.lastlocation located = some ⟨total xs, y.extended⟩)
  (hle : total xs ≤ plan.offsetintofile)
  (hlt : plan.offsetintofile < total xs + s.fh.blocksize)
  (hfit : total xs + s.fh.blocksize < 2 ^ 64)

include hnet hpos h0 hfresh hs hid hloc hle hlt hfit

/-- With an open block they go over the end of the file. -/
theorem writeBuffers_open (hwhole : ∀ b ∈ s.blocks, b.bytes.length = b.numbytes)
    (hy : y.numbytes ≤ s.fh.blocksize) (hsup : nn.Supported)
    (hsend : Sendable nn (plan.offsetintofile - total xs)
      (openBytes s.fh.blocksize (plan.offsetintofile - total xs) (plan.pos padding buffer).len))
    (hspreads : Spreads nn s.fh.blocksize ((plan.pos padding buffer).len -
      openBytes s.fh.blocksize (plan.offsetintofile - total xs) (plan.pos padding buffer).len)) :
    ∃ res t, writeBuffers net nn located plan padding buffer s = .ok (res, t) ∧ 0 ≤ res ∧
      t.content = overlay s.content plan.offsetintofile
        (data.take (plan.pos padding buffer).len) := by
  set n := openBytes s.fh.blocksize (plan.offsetintofile - total xs) (plan.pos padding buffer).len
    with hn
  have hle' : n ≤ (plan.pos padding buffer).len := Nat.min_le_right _ _
  obtain ⟨hoff, hleft⟩ := WritePlan.pos_advance hpos hle'
  rcases doWrite_open_cases (s := s.locked) hnet hpos rfl hs hid hle hlt hfit (plan.locked s) with
    ⟨-, -, log, hfirst⟩ | ⟨hbad, -⟩
  · set y' := y.written s.fresh (plan.offsetintofile - total xs) (data.take n) with hy'
    set s₂ : Hdfs := { s.locked with blocks := xs ++ [y'], fresh := s.fresh + 1, log := log } with hs₂
    have hb : s.fh.blocksize < 2 ^ 64 := by omega
    have hsettled : Settled (some y'.extended) s₂.blocks := by
      intro l hl
      cases hl
      exact updateBlock_last hid rfl
    have hlimit : ((plan.pos padding buffer).advance n).len -
        ((plan.pos padding buffer).advance n).bufferoffset < (plan.pos padding buffer).len + 1 := by
      rw [hleft]
      omega
    obtain ⟨res, last, s', news, hrun, hres, -, hblocks, hnews⟩ :=
      doWriteLoop_ok (s := s₂) hnet (hpos.advance hle') h0 hb (written_fresh hfresh hs rfl)
        hlimit (fun _ => hsup) (by rw [hleft]; exact hspreads) le_rfl (some y'.extended)
    obtain ⟨t, ht, htblocks⟩ := writeBuffers_of_doWrite hnet (by
      rw [hloc]
      exact hfirst.trans hrun)
    refine ⟨res, t, ht, hres, ?_⟩
    have hbytes : (data.take (plan.pos padding buffer).len).length =
        (plan.pos padding buffer).len := by
      have := hpos.len_le
      rw [List.length_take]
      omega
    have hfull : y'.bytes.take y'.numbytes = y'.bytes := by
      refine List.take_of_length_le (le_of_eq ?_)
      rw [hy', StoredBlock.written, overlay_length, hwhole y (by simp [hs])]
    have hrest : ((plan.pos padding buffer).advance n).rest data =
        (data.take (plan.pos padding buffer).len).drop n := by
      rw [BufferPos.rest, hleft, hoff, List.drop_take]
    rw [hsettled.commit_eq] at hblocks
    change visible t.blocks = _
    rw [htblocks, hblocks, visible_append, hnews, hrest, visible_append, visible_cons, hfull]
    simp only [visible_nil, List.append_nil]
    rw [← overlay_last hs hwhole hle hy, hbytes, ← hn, List.take_take, Nat.min_eq_left hle',
      List.append_assoc]
    rfl
  · exact absurd ⟨hsup, hsend⟩ hbad

theorem writeBuffers_open_inv (hres : 0 ≤ res)
    (h : writeBuffers net nn located plan padding buffer s = .ok (res, t)) :
    nn.Supported ∧ Sendable nn (plan.offsetintofile - total xs)
        (openBytes s.fh.blocksize (plan.offsetintofile - total xs) (plan.pos padding buffer).len) ∧
      Spreads nn s.fh.blocksize ((plan.pos padding buffer).len -
        openBytes s.fh.blocksize (plan.offsetintofile - total xs) (plan.pos padding buffer).len) := by
  rw [writeBuffers_eq hnet, bind_ok_iff] at h
  obtain ⟨⟨res', last, s'⟩, hwrite, h⟩ := h
  obtain ⟨rfl, -⟩ := Prod.mk.inj (Except.ok.inj h)
  rw [hloc] at hwrite
  rcases doWrite_open_cases (s := s.locked) hnet hpos rfl hs hid hle hlt hfit (plan.locked s) with
    ⟨hsup, hsend, log, hfirst⟩ | ⟨-, hneg⟩
  · set n := openBytes s.fh.blocksize (plan.offsetintofile - total xs) (plan.pos padding buffer).len
      with hn
    have hle' : n ≤ (plan.pos padding buffer).len := Nat.min_le_right _ _
    have hb : s.fh.blocksize < 2 ^ 64 := by omega
    rw [hfirst] at hwrite
    have hspreads := (doWriteLoop_inv (s := { s.locked with
        blocks := xs ++ [y.written s.fresh (plan.offsetintofile - total xs) (data.take n)],
        fresh := s.fresh + 1, log := log }) hnet (hpos.advance hle') h0 hb
      (written_fresh hfresh hs rfl) hres hwrite).1
    rw [(WritePlan.pos_advance hpos hle').2] at hspreads
    exact ⟨hsup, hsend, hspreads⟩
  · have := hneg _ _ _ hwrite
    omega

end Open

end Defuse
