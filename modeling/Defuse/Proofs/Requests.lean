import Defuse.Proofs.ExactPackets
import Defuse.Proofs.ReadFile
import Defuse.Proofs.WriteRetry
import Defuse.Spec.HdfsWrite
import Mathlib.Data.List.Nodup

/-! What the requests of `usfs_wrap/hdfs` do to the blocks of a file, one lemma for each. -/

namespace Defuse

open CSem

/-! Blocks -/

def total (xs : List StoredBlock) : ℕ := (xs.map StoredBlock.numbytes).sum

def visible (xs : List StoredBlock) : List UInt8 := xs.flatMap fun b => b.bytes.take b.numbytes

/-- A file between two calls. -/
structure Hdfs.Sound (s : Hdfs) : Prop where
  closed : s.underconstruction = false
  whole : ∀ b ∈ s.blocks, b.bytes.length = b.numbytes
  nonempty : ∀ b ∈ s.blocks, 0 < b.numbytes
  fits : total s.blocks < 2 ^ 63
  nodup : (s.blocks.map StoredBlock.blockid).Nodup
  fresh : ∀ b ∈ s.blocks, b.blockid < s.fresh

theorem Hdfs.Sound.logged {s : Hdfs} (h : s.Sound) (req : Request) : (s.logged req).Sound :=
  ⟨h.closed, h.whole, h.nonempty, h.fits, h.nodup, h.fresh⟩

theorem last_id_of_nodup {xs : List StoredBlock} {y : StoredBlock}
    (h : ((xs ++ [y]).map StoredBlock.blockid).Nodup) : ∀ x ∈ xs, x.blockid ≠ y.blockid := by
  rw [List.map_append, List.nodup_append] at h
  exact fun x hx => h.2.2 _ (List.mem_map_of_mem hx) _ (by simp)

theorem Hdfs.Sound.last_id {s : Hdfs} (h : s.Sound) {xs : List StoredBlock} {y : StoredBlock}
    (hs : s.blocks = xs ++ [y]) : ∀ x ∈ xs, x.blockid ≠ y.blockid :=
  last_id_of_nodup (hs ▸ h.nodup)

def Hdfs.locked (s : Hdfs) : Hdfs := { s.logged .append with underconstruction := true }

def locatedFrom (start : ℕ) (xs : List StoredBlock) : List Located :=
  (placeBlocks start xs).map fun pb => ⟨pb.1, pb.2.extended⟩

section Blocks

variable {s : Hdfs} {xs ys : List StoredBlock} {b : StoredBlock} {f : StoredBlock → StoredBlock}
  {id : ℕ}

@[simp] theorem total_nil : total [] = 0 := rfl

@[simp] theorem total_cons : total (b :: xs) = b.numbytes + total xs := by
  simp [total]

@[simp] theorem total_append : total (xs ++ ys) = total xs + total ys := by
  simp [total]

@[simp] theorem visible_nil : visible [] = [] := rfl

@[simp] theorem visible_cons : visible (b :: xs) = b.bytes.take b.numbytes ++ visible xs := by
  simp [visible]

@[simp] theorem visible_append : visible (xs ++ ys) = visible xs ++ visible ys := by
  simp [visible]

theorem visible_length (h : ∀ b ∈ xs, b.bytes.length = b.numbytes) :
    (visible xs).length = total xs := by
  induction xs with
  | nil => rfl
  | cons b xs ih =>
    rw [visible_cons, total_cons, List.length_append, List.length_take, h b (by simp),
      ih fun x hx => h x (by simp [hx]), Nat.min_self]

theorem updateBlock_append :
    updateBlock id f (xs ++ ys) = updateBlock id f xs ++ updateBlock id f ys :=
  List.map_append

theorem updateBlock_of_ne (h : ∀ b ∈ xs, b.blockid ≠ id) : updateBlock id f xs = xs := by
  unfold updateBlock
  refine (List.map_congr_left fun b hb => ?_).trans (List.map_id xs)
  exact if_neg (h b hb)

theorem updateBlock_last (h : ∀ b ∈ xs, b.blockid ≠ id) (hb : b.blockid = id) :
    updateBlock id f (xs ++ [b]) = xs ++ [f b] := by
  rw [updateBlock_append, updateBlock_of_ne h]
  simp [updateBlock, hb]

theorem placeBlocks_append (start : ℕ) (xs ys : List StoredBlock) :
    placeBlocks start (xs ++ ys) = placeBlocks start xs ++ placeBlocks (start + total xs) ys := by
  induction xs generalizing start with
  | nil => rfl
  | cons x xs ih =>
    rw [List.cons_append, placeBlocks, placeBlocks, ih, total_cons, List.cons_append, Nat.add_assoc]

theorem mem_placeBlocks {start : ℕ} {pb : ℕ × StoredBlock} (h : pb ∈ placeBlocks start xs) :
    ∃ us vs, xs = us ++ pb.2 :: vs ∧ pb.1 = start + total us := by
  induction xs generalizing start with
  | nil => cases h
  | cons x xs ih =>
    rcases List.mem_cons.mp h with rfl | h
    · exact ⟨[], xs, rfl, rfl⟩
    · obtain ⟨us, vs, rfl, hstart⟩ := ih h
      refine ⟨x :: us, vs, rfl, ?_⟩
      rw [hstart, total_cons, Nat.add_assoc]

@[simp] theorem locatedFrom_nil (start : ℕ) : locatedFrom start [] = [] := rfl

@[simp] theorem locatedFrom_cons (start : ℕ) :
    locatedFrom start (b :: xs) =
      ⟨start, b.extended⟩ :: locatedFrom (start + b.numbytes) xs := rfl

theorem locatedFrom_append (start : ℕ) (xs ys : List StoredBlock) :
    locatedFrom start (xs ++ ys) = locatedFrom start xs ++ locatedFrom (start + total xs) ys := by
  rw [locatedFrom, placeBlocks_append, List.map_append]
  rfl

@[simp] theorem locatedFrom_length (start : ℕ) (xs : List StoredBlock) :
    (locatedFrom start xs).length = xs.length := by
  induction xs generalizing start with
  | nil => rfl
  | cons x xs ih => rw [locatedFrom_cons, List.length_cons, ih, List.length_cons]

theorem locatedFrom_get (start : ℕ) (xs : List StoredBlock) (b : StoredBlock)
    (ys : List StoredBlock) :
    (locatedFrom start (xs ++ b :: ys))[xs.length]? = some ⟨start + total xs, b.extended⟩ := by
  rw [locatedFrom_append, List.getElem?_append_right (by rw [locatedFrom_length])]
  simp

theorem locatedFrom_map_b (start : ℕ) (xs : List StoredBlock) :
    (locatedFrom start xs).map Located.b = xs.map StoredBlock.extended := by
  induction xs generalizing start with
  | nil => rfl
  | cons x xs ih => rw [locatedFrom_cons, List.map_cons, ih, List.map_cons]

theorem located_id_ne (hnodup : ((xs ++ ys).map StoredBlock.blockid).Nodup) {x : StoredBlock}
    (hx : x ∈ xs) {start : ℕ} {l : Located} (hl : l ∈ locatedFrom start ys) :
    x.blockid ≠ l.b.blockid := by
  have hmem := List.mem_map_of_mem (f := Located.b) hl
  rw [locatedFrom_map_b] at hmem
  obtain ⟨y, hy, hb⟩ := List.mem_map.mp hmem
  rw [List.map_append, List.nodup_append] at hnodup
  rw [← hb]
  exact hnodup.2.2 _ (List.mem_map_of_mem hx) _ (List.mem_map_of_mem hy)

end Blocks

/-! Requests to the name node -/

/-- Request number `k` succeeds and does what it asks. -/
structure Net.ObligesAt (net : Net) (k : ℕ) : Prop where
  answers : net.fails k = none
  serves : ∀ i, ∃ chunk cuts rest, net.readLocs k i = .serves chunk cuts :: rest
  takes : ∃ location rest, net.writeLocs k = location :: rest ∧ ∀ op,
    0 ≤ (location op).connect ∧ (location op).call = 0 ∧ Acknowledged (location op).packets

section Requests

variable {net : Net} {s : Hdfs}

theorem request_ok (h : net.fails s.log.length = none) {α : Type} (req : Request)
    (effect : Hdfs → α × Hdfs) :
    net.request req effect s = (.ok (effect (s.logged req)).1, (effect (s.logged req)).2) := by
  unfold Net.request
  rw [h]

theorem request_fails {e : Failure} (h : net.fails s.log.length = some e) {α : Type}
    (req : Request) (effect : Hdfs → α × Hdfs) :
    net.request req effect s = (.error e, s.logged req) := by
  unfold Net.request
  rw [h]

theorem request_cases (net : Net) (s : Hdfs) {α : Type} (req : Request)
    (effect : Hdfs → α × Hdfs) :
    (∃ res < 0, net.request req effect s = (.error res, s.logged req)) ∨
      net.request req effect s =
        (.ok (effect (s.logged req)).1, (effect (s.logged req)).2) := by
  cases h : net.fails s.log.length with
  | some e => exact Or.inl ⟨e, e.property, request_fails h req effect⟩
  | none => exact Or.inr (request_ok h req effect)

theorem inRange_whole (h : s.Sound) : s.inRange 0 (2 ^ 63 - 1) = placeBlocks 0 s.blocks := by
  unfold Hdfs.inRange
  rw [List.filter_eq_self]
  intro pb hpb
  obtain ⟨us, vs, hxs, hstart⟩ := mem_placeBlocks hpb
  have hpos := h.nonempty pb.2 (by simp [hxs])
  have hfits := h.fits
  rw [hxs, total_append, total_cons] at hfits
  simp only [decide_eq_true_eq]
  omega

theorem getBlockLocations_ok (hs : s.Sound) (h : net.fails s.log.length = none) :
    net.getBlockLocations s = (.ok ⟨total s.blocks, locatedFrom 0 s.blocks⟩,
      s.logged (.getBlockLocations 0 (2 ^ 63 - 1))) := by
  have hrange := inRange_whole hs
  have hrange' : (s.logged (.getBlockLocations 0 (2 ^ 63 - 1))).inRange 0 (2 ^ 63 - 1) =
      placeBlocks 0 s.blocks := hrange
  unfold Net.getBlockLocations
  rw [request_ok h]
  simp only [hrange']
  rfl

theorem lock_ok (last : Option ExtendedBlock) (h : net.fails s.log.length = none) :
    hadoopFuseLock net last s =
      (.ok (((s.blocks.getLast?.filter fun b => b.numbytes < s.blocksize).map
        StoredBlock.extended).or last), s.locked) := by
  unfold hadoopFuseLock Net.append
  rw [request_ok h]
  rfl

theorem abandonBlocks_ok (ls : List Located) (s : Hdfs)
    (h : ∀ i < ls.length, net.fails (s.log.length + i) = none) :
    abandonBlocks net ls s =
      (0, { s with blocks := s.blocks.filter fun x => ∀ l ∈ ls, x.blockid ≠ l.b.blockid
                   log := s.log ++ ls.map fun l => .abandonBlock l.b }) := by
  induction ls generalizing s with
  | nil => simp [abandonBlocks]
  | cons l ls ih =>
    have h0 : net.fails s.log.length = none := by simpa using h 0 (by simp)
    unfold abandonBlocks Net.abandonBlock
    rw [request_ok h0]
    simp only
    rw [ih]
    · simp [Hdfs.logged, List.filter_filter, Bool.and_comm]
    · intro i hi
      have := h (i + 1) (by simpa using hi)
      rw [show s.log.length + (i + 1) = s.log.length + 1 + i by omega] at this
      simpa [Hdfs.logged] using this

/-- `complete` asks until it fails or the file is closed. -/
theorem completeLoop_cases (net : Net) (fileid : ℕ) (last : Option ExtendedBlock) (n : ℕ)
    (s : Hdfs) : ∃ log,
      (∃ res < 0, completeLoop net fileid last n s = (res, { s with log := log })) ∨
        completeLoop net fileid last n s =
          (0, { s.commit last with underconstruction := false, log := log }) := by
  induction n generalizing s with
  | zero =>
    refine ⟨s.log ++ [.complete fileid last], ?_⟩
    unfold completeLoop Net.completeRequest
    rcases request_cases net s (.complete fileid last)
      (fun s => ((), { s.commit last with underconstruction := false })) with
      ⟨res, hres, h⟩ | h
    · rw [h]
      exact Or.inl ⟨res, hres, rfl⟩
    · rw [h]
      right
      cases last <;> rfl
  | succ n ih =>
    unfold completeLoop
    rcases request_cases net s (.complete fileid last) (fun s => ((), s)) with ⟨res, hres, h⟩ | h
    · rw [h]
      exact ⟨s.log ++ [.complete fileid last], Or.inl ⟨res, hres, rfl⟩⟩
    · rw [h]
      obtain ⟨log, hrest⟩ := ih (s.logged (.complete fileid last))
      refine ⟨log, ?_⟩
      rcases hrest with ⟨res, hres, hrest⟩ | hrest
      · exact Or.inl ⟨res, hres, hrest⟩
      · right
        refine hrest.trans ?_
        cases last <;> rfl

theorem completeLoop_ok (h : ∀ k, net.fails k = none) (fileid : ℕ) (last : Option ExtendedBlock)
    (n : ℕ) (s : Hdfs) : completeLoop net fileid last n s =
      (0, { s.commit last with
        underconstruction := false
        log := s.log ++ List.replicate (n + 1) (.complete fileid last) }) := by
  induction n generalizing s with
  | zero =>
    unfold completeLoop Net.completeRequest
    rw [request_ok (h _)]
    cases last <;> rfl
  | succ n ih =>
    have hlog : (s.logged (.complete fileid last)).log ++
        List.replicate (n + 1) (.complete fileid last) =
          s.log ++ List.replicate (n + 1 + 1) (.complete fileid last) :=
      List.append_assoc _ _ _
    unfold completeLoop
    rw [request_ok (h _)]
    refine (ih (s.logged (.complete fileid last))).trans ?_
    rw [hlog]
    cases last <;> rfl

theorem complete_ok (h : ∀ k, net.fails k = none) (fileid : ℕ) (last : Option ExtendedBlock)
    (s : Hdfs) : ∃ n, hadoopFuseComplete net fileid last s =
      (0, { s.commit last with
        underconstruction := false
        log := s.log ++ List.replicate n (.complete fileid last) }) :=
  ⟨_, completeLoop_ok h fileid last _ s⟩

end Requests

/-! Committed blocks -/

section Commit

variable {s : Hdfs} {xs ys : List StoredBlock} {b : StoredBlock} {id : ℕ}

def Settled (last : Option ExtendedBlock) (xs : List StoredBlock) : Prop :=
  ∀ l ∈ last, updateBlock l.blockid (StoredBlock.commit l) xs = xs

theorem settled_none (xs : List StoredBlock) : Settled none xs := by
  intro l hl
  cases hl

theorem settled_recorded (hnodup : (xs.map StoredBlock.blockid).Nodup) (hb : b ∈ xs) :
    Settled (some b.extended) xs := by
  intro l hl
  cases hl
  unfold updateBlock
  refine (List.map_congr_left fun x hx => ?_).trans (List.map_id xs)
  split_ifs with h
  · obtain rfl : x = b := List.inj_on_of_nodup_map hnodup hx hb h
    rfl
  · rfl

theorem Settled.commit_eq {last : Option ExtendedBlock} (h : Settled last s.blocks) :
    s.commit last = s := by
  cases last with
  | none => rfl
  | some l => rw [Hdfs.commit, h l rfl]

theorem Settled.commit_blocks {last : Option ExtendedBlock} (h : Settled last xs)
    (hs : s.blocks = xs ++ ys) : ∃ ys', (s.commit last).blocks = xs ++ ys' := by
  cases last with
  | none => exact ⟨ys, hs⟩
  | some l =>
    refine ⟨updateBlock l.blockid (StoredBlock.commit l) ys, ?_⟩
    rw [Hdfs.commit, hs, updateBlock_append, h l rfl]

theorem commit_fh (last : Option ExtendedBlock) : (s.commit last).fh = s.fh := by
  cases last <;> rfl

theorem commit_ids {last : Option ExtendedBlock} (h : ∀ b ∈ s.blocks, b.blockid < id) :
    ∀ b ∈ (s.commit last).blocks, b.blockid < id := by
  cases last with
  | none => exact h
  | some l =>
    intro b hb
    obtain ⟨x, hx, rfl⟩ := List.mem_map.mp hb
    have hid := h x hx
    split_ifs
    · exact hid
    · exact hid

end Commit

/-! Reads -/

section Reads

variable {net : Net} {s : Hdfs} {size : ℕ}

theorem readOp_located {numbytes : ℕ} (h : numbytes < 2 ^ 63) (size offset start : ℕ)
    (locs : List (ReadOp → DatanodeReply)) :
    readOp size offset ⟨start, numbytes, false, locs⟩ = ⟨0, min numbytes size⟩ := by
  have hnum : asU64 ((numbytes : ℤ) - (0 : ℕ)) = numbytes := by
    unfold asU64
    omega
  simp only [readOp, Nat.min_zero, hnum]

/-- Every block of the range is put at the start of the buffer, so that the last one stays
there. -/
theorem readBlocks_served (offset : ℕ) {locs : ℕ → List Location}
    (hlocs : ∀ i, ∃ chunk cuts rest, locs i = .serves chunk cuts :: rest)
    (pbs : List (ℕ × StoredBlock))
    (hpbs : ∀ pb ∈ pbs, pb.2.bytes.length = pb.2.numbytes ∧ pb.2.numbytes < 2 ^ 63)
    {buf : List UInt8} (hbuf : buf.length = size) (res : ℤ) :
    ∃ buf', readBlocks size offset (pbs.mapIdx fun i pb =>
        ⟨pb.1, pb.2.numbytes, false, (locs i).map fun l => l.reply pb.2.bytes⟩) res buf =
          .ok (asInt size, buf') ∧ buf'.length = size ∧
      ∀ last ∈ pbs.getLast?, buf'.take (min last.2.numbytes size) = last.2.bytes.take size := by
  induction pbs generalizing buf res locs with
  | nil => exact ⟨buf, rfl, hbuf, by simp⟩
  | cons pb pbs ih =>
    obtain ⟨hwhole, hlt⟩ := hpbs pb (by simp)
    obtain ⟨chunk, cuts, rest, hloc⟩ := hlocs 0
    have hserve := readLocations_serving (by omega : min pb.2.numbytes size ≤ pb.2.bytes.length)
      (by omega : _ ≤ buf.length) chunk cuts (rest.map fun l => l.reply pb.2.bytes) res
    have hbuf' : (pb.2.bytes.take (min pb.2.numbytes size) ++
        buf.drop (min pb.2.numbytes size)).length = size := by
      rw [List.length_append, List.length_take, List.length_drop]
      omega
    obtain ⟨buf', hrun, hlen, hlast⟩ := ih (fun i => hlocs (i + 1))
      (fun q hq => hpbs q (by simp [hq])) hbuf' 0
    refine ⟨buf', ?_, hlen, ?_⟩
    · rw [List.mapIdx_cons, readBlocks, if_neg (by simp), readOp_located hlt, hloc, List.map_cons,
        hserve, ok_bind]
      exact hrun
    · intro last hmem
      cases hpbs' : pbs.getLast? with
      | none =>
        obtain rfl : pbs = [] := List.getLast?_eq_none_iff.mp hpbs'
        obtain rfl : pb = last := Option.some.inj hmem
        cases hrun
        rw [List.take_left' (by rw [List.length_take]; omega), ← hwhole, List.take_eq_take_iff]
        omega
      | some last' =>
        rw [List.getLast?_cons, hpbs'] at hmem
        cases hmem
        exact hlast _ hpbs'

theorem inRange_sound (hs : s.Sound) (offset : ℕ) :
    ∀ pb ∈ s.inRange offset size, pb.2.bytes.length = pb.2.numbytes ∧ pb.2.numbytes < 2 ^ 63 := by
  intro pb hpb
  obtain ⟨us, vs, hxs, -⟩ := mem_placeBlocks (List.mem_of_mem_filter hpb)
  have hfits := hs.fits
  rw [hxs, total_append, total_cons] at hfits
  exact ⟨hs.whole pb.2 (by simp [hxs]), by omega⟩

/-- A read whose length is negative as an `int` fails, and any other one returns a buffer that
starts with the last block of the range. -/
theorem readInto_ok (hs : s.Sound) (offset : ℕ) {buf : List UInt8} (hbuf : buf.length = size)
    (h : net.fails s.log.length = none)
    (hserves : ∀ i, ∃ chunk cuts rest, net.readLocs (s.log.length + 1) i =
      .serves chunk cuts :: rest) :
    ∃ buf', readInto net size offset buf s =
        .ok (if asInt size < 0 then .error (asInt size) else .ok buf',
          s.logged (.getBlockLocations offset size)) ∧ buf'.length = size ∧
      ∀ last ∈ (s.inRange offset size).getLast?,
        buf'.take (min last.2.numbytes size) = last.2.bytes.take size := by
  obtain ⟨buf', hrun, hlen, hlast⟩ := readBlocks_served offset hserves (s.inRange offset size)
    (inRange_sound hs offset) hbuf 0
  refine ⟨buf', ?_, hlen, hlast⟩
  have hlog : (s.logged (.getBlockLocations offset size)).log.length = s.log.length + 1 := by
    simp [Hdfs.logged]
  have hread : hadoopFuseRead (.ok (some (net.locate (s.logged (.getBlockLocations offset size))
      offset size))) size offset buf = .ok (asInt size, buf') := by
    unfold hadoopFuseRead Net.locate
    simp only [hlog]
    rw [if_neg (by simp [Hdfs.logged, hs.closed])]
    exact hrun
  unfold readInto
  rw [request_ok h]
  simp only [hread, ok_bind]
  rfl

end Reads

/-! Transfers -/

section Transfers

variable {net : Net} {nn : NamenodeState} {s s' : Hdfs} {pos pos' : BufferPos}
  {len blockoffset : ℕ} {data : List UInt8} {block newblock : ExtendedBlock}

theorem deliveredPackets_completes {reply : WriteReply} (hconnect : 0 ≤ reply.connect)
    (hcall : reply.call = 0) {packets : List SentPacket}
    (hsend : sendPackets nn reply.packets pos len blockoffset = .ok (0, pos', packets))
    (replies : List WriteReply) :
    deliveredPackets nn len blockoffset (reply :: replies) pos = .ok packets := by
  unfold deliveredPackets
  rw [if_neg (not_or.mpr ⟨not_lt.mpr hconnect, not_not.mpr hcall⟩), hsend, ok_bind]
  exact if_pos rfl

/-- What a call that returned has done. -/
theorem writeBlock_inv {r : BlockWritten}
    (h : net.writeBlock nn pos len blockoffset block newblock s = .ok (r, s')) :
    (∃ res, writeLocations nn len blockoffset (writeReplies block newblock
        (max (newblock.numbytes.getD 0) (blockoffset + len)) (net.writeLocs s.log.length)) 0 pos =
          .ok (res, r.pos, r.received)) ∧
    (r.received.isSome ∧ r.res = asInt len ∧ r.newblock = { newblock with
        numbytes := some (max (newblock.numbytes.getD 0) (blockoffset + len)) } ∨
      r.received = none ∧ r.res < 0 ∧ r.newblock = newblock) ∧
    ∃ packets, deliveredPackets nn len blockoffset (writeReplies block newblock
        (max (newblock.numbytes.getD 0) (blockoffset + len)) (net.writeLocs s.log.length)) pos =
          .ok packets ∧
      s' = { s.logged (.writeBlock block newblock blockoffset len) with
        blocks := updateBlock block.blockid (fun x => { x with
          bytes := packets.foldl SentPacket.place x.bytes }) s.blocks } := by
  unfold Net.writeBlock at h
  rw [bind_ok_iff] at h
  obtain ⟨r', hwrite, h⟩ := h
  rw [bind_ok_iff] at h
  obtain ⟨packets, hpackets, h⟩ := h
  cases h
  have hlocs : net.writeLocs s.log.length ≠ [] := by
    intro hnil
    rw [hnil] at hwrite
    cases hwrite
  obtain ⟨res, hrun, hout⟩ := (writeBlock_eq hlocs r).mp hwrite
  refine ⟨⟨res, hrun⟩, ?_, packets, hpackets, rfl⟩
  rcases hout with hout | ⟨hreceived, hres, hnew⟩
  · exact Or.inl hout
  · refine Or.inr ⟨hreceived, ?_, hnew⟩
    rw [hres]
    split_ifs with hneg
    · exact hneg
    · decide

theorem writeBlock_result {r : BlockWritten} (hlen : len < 2 ^ 64) (hd : Supplies pos.buffers data)
    (hoff : pos.bufferoffset ≤ data.length)
    (h : net.writeBlock nn pos len blockoffset block newblock s = .ok (r, s')) :
    r.res < 0 ∨ nn.Supported ∧ Tiles nn.packetsize nn.bytesperchecksum blockoffset len := by
  obtain ⟨⟨res, hrun⟩, ⟨hreceived, -, -⟩ | ⟨-, hneg, -⟩, -⟩ := writeBlock_inv h
  · exact Or.inr ((writeLocations_inv hlen hd hoff hrun).2 hreceived).2
  · exact Or.inl hneg

/-- `hadoop_fuse_write_block` puts `bytes` into the block, moves the position and returns the
length. -/
def Net.Sends (net : Net) (nn : NamenodeState) (pos : BufferPos) (len blockoffset : ℕ)
    (block newblock : ExtendedBlock) (bytes : List UInt8) (s : Hdfs) : Prop :=
  ∃ received, net.writeBlock nn pos len blockoffset block newblock s =
    .ok (⟨asInt len, pos.advance len, { newblock with
        numbytes := some (max (newblock.numbytes.getD 0) (blockoffset + len)) }, received⟩,
      { s.logged (.writeBlock block newblock blockoffset len) with
        blocks := updateBlock block.blockid (fun x => { x with
          bytes := overlay x.bytes blockoffset bytes }) s.blocks })

/-- A data node that takes everything gets the bytes at the position. -/
theorem writeBlock_ok (h : net.ObligesAt s.log.length) (hsup : nn.Supported)
    (hd : Supplies pos.buffers data) (hroom : pos.bufferoffset + len ≤ data.length)
    (hlimit : data.length ≤ pos.flat.length)
    (htiles : Tiles nn.packetsize nn.bytesperchecksum blockoffset len)
    (block newblock : ExtendedBlock) :
    net.Sends nn pos len blockoffset block newblock ((data.drop pos.bufferoffset).take len) s := by
  obtain ⟨location, rest, hlocs, htakes⟩ := h.takes
  obtain ⟨replies, hreplies⟩ : ∃ replies, writeReplies block newblock
      (max (newblock.numbytes.getD 0) (blockoffset + len)) (net.writeLocs s.log.length) =
        location (writeOp block newblock (max (newblock.numbytes.getD 0) (blockoffset + len))
          (net.writeLocs s.log.length).length 0) :: replies := by
    unfold writeReplies
    rw [hlocs, List.mapIdx_cons]
    exact ⟨_, rfl⟩
  obtain ⟨hconnect, hcall, hacked⟩ := htakes (writeOp block newblock
    (max (newblock.numbytes.getD 0) (blockoffset + len)) (net.writeLocs s.log.length).length 0)
  obtain ⟨packets, hsend, hof⟩ :=
    sendPackets_complete hsup hd hroom hlimit htiles (hacked.allAcked _ _)
  have hrun := writeLocations_eq_sent hconnect hcall hsend replies 0
  have hdelivered := deliveredPackets_completes hconnect hcall hsend replies
  rw [← hreplies] at hrun hdelivered
  have hwrite := (writeBlock_eq (by rw [hlocs]; simp) ⟨asInt len, pos.advance len,
    { newblock with numbytes := some (max (newblock.numbytes.getD 0) (blockoffset + len)) },
    some packets⟩).mpr ⟨0, hrun, by simp⟩
  refine ⟨some packets, ?_⟩
  unfold Net.writeBlock
  dsimp only
  rw [hwrite, ok_bind, hdelivered, ok_bind]
  simp only [hof.foldl_place]
  rfl

end Transfers

end Defuse
