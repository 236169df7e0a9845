import Defuse.Lib.Outcomes
import Defuse.Lib.Runs
import Defuse.Proofs.OpenFlags
import Defuse.Proofs.RequestIds

/-! The file that the requests of a run name. The number behind `fi` is the handle, and there is
none behind NULL, so that a call names its file by chance or when it sends no such request. -/

namespace Defuse.HdfsClient

open CSem

/-- The request names the file that is at its path, and writes blocks of the size recorded when
the file was opened. -/
def Right (e : SentRequest) : Prop := e.request.Proper e.fileid (e.blocksize = e.recorded)

def AllRight (c : Client) : Prop := ∀ e ∈ c.sent, Right e

/-- The outcomes of a call or a run: no structure is looked for where there is none, and all
requests are right. -/
def Addressed (outcome : Except Stop Client) : Prop := Ensures (· ≠ .badHandle) AllRight outcome

variable {net : Net} {nn : NamenodeState} {refusal : Failure} {depth : ℕ} {c : Client}
  {path : HdfsPath} {file : NameFile} {fh : FileHandle} {recorded : ℕ} {s s' : Hdfs} {sized : Prop}

/-! From the handle to the file -/

theorem renumber_matching (n : ℕ) (req : Request) {ids : Ids} (h : ids.handle = ids.file) :
    (net.renumber n req ids).handle = (net.renumber n req ids).file := by
  unfold Net.renumber
  cases net.fails n with
  | some e => exact h
  | none => cases req <;> first | exact h | rfl

theorem stamped_matching {n : ℕ} {ids : Ids} (h : ids.handle = ids.file) (reqs : List Request) :
    ∀ e ∈ net.stamped n ids reqs, e.1.handle = e.1.file := by
  induction reqs generalizing n ids with
  | nil => simp [Net.stamped]
  | cons req reqs ih =>
    intro e he
    rw [Net.stamped, List.mem_cons] at he
    rcases he with rfl | he
    · exact h
    · exact ih (renumber_matching n req h) e he

theorem tracked_matching (hid : s.fh.fileid = s.fileid) (h : Tracked net Ids.handle sized s s') :
    Tracked net Ids.file sized s s' := by
  obtain ⟨reqs, hlog, hids, hproper, hsize⟩ := h
  refine ⟨reqs, hlog, hids, fun e he => ?_, hsize⟩
  rw [← stamped_matching (show s.ids.handle = s.ids.file from hid) reqs e he]
  exact hproper e he

theorem after_right (hc : AllRight c) (h : Tracked net Ids.file (s.fh.blocksize = recorded) s s') :
    AllRight (c.after net path recorded s s') := by
  obtain ⟨reqs, hlog, -, hproper, -⟩ := h
  intro e he
  have hsent : e ∈ c.sent ++ (net.stamped s.log.length s.ids (s'.log.drop s.log.length)).map
      fun e => ⟨e.1.file, recorded, s.fh.blocksize, e.2⟩ := he
  rw [hlog, List.drop_left, List.mem_append, List.mem_map] at hsent
  rcases hsent with he | ⟨e', he', rfl⟩
  · exact hc e he
  · exact hproper e' he'

theorem asked_right (hc : AllRight c) {req : Request} (hreq : ∀ id sized, req.Proper id sized) :
    AllRight (c.asked path req) := by
  intro e he
  rcases List.mem_append.mp he with he | he
  · exact hc e he
  · rw [List.mem_singleton.mp he]
    exact hreq _ _

/-! Calls on a path -/

theorem onPath_right {call : Hdfs → Except Stop (ℤ × Hdfs)} (hc : AllRight c)
    (hcall : ∀ file, c.files path = some file → Ensures (· ≠ .badHandle)
      (fun r => Tracked net Ids.file (fh.blocksize = recorded) (c.view file fh) r.2)
      (call (c.view file fh))) :
    Ensures (· ≠ .badHandle) (fun r => AllRight r.2.2) (onPath net path fh recorded call c) := by
  unfold onPath
  cases hfile : c.files path with
  | none => exact asked_right hc fun _ _ => trivial
  | some file => exact (hcall file hfile).bind fun r hr => after_right hc hr

theorem getBlockLocations_fails {e : Failure} (h : net.fails s.log.length = some e) :
    net.getBlockLocations s = (.error e.val, s.logged (.getBlockLocations 0 (2 ^ 63 - 1))) := by
  unfold Net.getBlockLocations
  rw [request_fails h]

theorem write_right {data : FuseBuffer} {offset : ℕ}
    (h : net.fails s.log.length ≠ none ∨ s.fh.fileid = s.fileid ∧ sized) {res : ℤ}
    (hrun : hadoopFuseWrite net nn depth data offset s = .ok (res, s')) :
    Tracked net Ids.file sized s s' := by
  rcases h with h | ⟨hid, hsized⟩
  · obtain ⟨e, hfails⟩ := Option.ne_none_iff_exists'.mp h
    cases depth with
    | zero => cases hrun
    | succ depth =>
      rw [hadoopFuseWrite, getBlockLocations_fails hfails] at hrun
      cases hrun
      exact getBlockLocations_tracked (getBlockLocations_fails hfails)
  · exact tracked_matching hid ((calls_tracked hsized depth).1 hrun)

theorem dropBlocks_matching {blocks : List Located} {last : Option ExtendedBlock}
    (h : dropBlocks net blocks blocks.length s = (.ok last, s')) : s'.fh.fileid = s'.fileid := by
  unfold dropBlocks at h
  rw [if_pos rfl] at h
  rcases hinfo : net.getFileInfo s with ⟨_ | _, s₁⟩
  · rw [hinfo] at h
    cases h
  · rw [hinfo] at h
    dsimp only at h
    unfold Net.create at h
    rcases request_cases net s₁ .create (fun s => (s.fresh, { s with
      blocks := [], underconstruction := true, fileid := s.fresh, fresh := s.fresh + 1 })) with
      ⟨e, -, hreq⟩ | hreq
    · rw [hreq] at h
      cases h
    · rw [hreq] at h
      cases h
      rfl

def DropsAll (s : Hdfs) (newlength : ℕ) : Prop :=
  ∀ pb, (s.inRange 0 (2 ^ 63 - 1)).head? = some pb → newlength < pb.1 + pb.2.numbytes

theorem shrinkScan_dropsAll {newlength : ℕ} (h : DropsAll s newlength) (k : ℕ) :
    (shrinkScan newlength ((s.inRange 0 (2 ^ 63 - 1)).map fun pb => ⟨pb.1, pb.2.extended⟩) 0 k).1 =
      k := by
  cases hblocks : s.inRange 0 (2 ^ 63 - 1) with
  | nil => rfl
  | cons pb pbs =>
    have hfirst := h pb (by rw [hblocks]; rfl)
    rw [List.map_cons, shrinkScan, if_neg]
    exact not_le.mpr hfirst

/-- What is left of the file gets a new number before it is named. -/
theorem shrink_dropsAll {newlength : ℕ} (hall : DropsAll s newlength)
    (hsized : newlength = 0 ∨ sized) {res : ℤ}
    (h : shrink net nn ⟨total s.blocks,
      (s.inRange 0 (2 ^ 63 - 1)).map fun pb => ⟨pb.1, pb.2.extended⟩⟩ newlength s = .ok (res, s')) :
    Tracked net Ids.file sized s s' := by
  have hends := shrink_ends h
  dsimp only at hends
  obtain ⟨scan, hscan⟩ : ∃ scan, scan = shrinkScan newlength
    ((s.inRange 0 (2 ^ 63 - 1)).map fun pb => ⟨pb.1, pb.2.extended⟩) 0
    ((s.inRange 0 (2 ^ 63 - 1)).map fun pb => (⟨pb.1, pb.2.extended⟩ : Located)).length := ⟨_, rfl⟩
  have hlast : scan.1 =
      ((s.inRange 0 (2 ^ 63 - 1)).map fun pb => (⟨pb.1, pb.2.extended⟩ : Located)).length := by
    rw [hscan]
    exact shrinkScan_dropsAll hall _
  rw [← hscan] at hends
  -- nothing is written back when nothing is kept
  have hwritten : ∀ {kept : Option FuseBuffer} {last last' : Option ExtendedBlock} {res : ℤ}
      {s₁ s₂ s₃ : Hdfs}, readCut net newlength scan.2 s = .ok (.ok kept, s₁) →
      writeCut net nn kept ((scan.2.map Located.offset).getD 0) last s₂ = .ok (res, last', s₃) →
      Tracked net Ids.handle sized s₂ s₃ := by
    intro kept last last' res s₁ s₂ s₃ hread hwrite
    rcases hsized with hzero | hsized
    · have hnone : scan.2 = none := by
        rw [hscan, hzero, shrinkScan_none]
      rw [hnone] at hread
      cases hread
      cases hwrite
      exact Tracked.refl _
    · exact writeCut_tracked hsized hwrite
  cases hends with
  | unread hread => exact readCut_tracked hread
  | undropped hread hdrop => exact (readCut_tracked hread).trans (dropBlocks_tracked hdrop)
  | unwritten hread hdrop hwrite =>
    rw [hlast] at hdrop
    exact ((readCut_tracked hread).trans (dropBlocks_tracked hdrop)).trans
      (tracked_matching (dropBlocks_matching hdrop) (hwritten hread hwrite))
  | completed hread hdrop hwrite =>
    rw [hlast] at hdrop
    exact ((readCut_tracked hread).trans (dropBlocks_tracked hdrop)).trans
      (tracked_matching (dropBlocks_matching hdrop)
        ((hwritten hread hwrite).trans (complete_tracked rfl)))

/-- The truncations that name the file. -/
theorem ftruncate_right {newlength : ℕ}
    (h : net.fails s.log.length ≠ none ∨ newlength = total s.blocks ∨
      newlength < total s.blocks ∧ DropsAll s newlength ∧ (newlength = 0 ∨ sized) ∨
      s.fh.fileid = s.fileid ∧ sized) {res : ℤ}
    (hrun : hadoopFuseFtruncate net nn depth newlength s = .ok (res, s')) :
    Tracked net Ids.file sized s s' := by
  by_cases hmatch : s.fh.fileid = s.fileid ∧ sized
  · exact tracked_matching hmatch.1 ((calls_tracked hmatch.2 depth).2 hrun)
  cases depth with
  | zero => cases hrun
  | succ depth =>
    rw [hadoopFuseFtruncate] at hrun
    cases hfails : net.fails s.log.length with
    | some e =>
      rw [getBlockLocations_fails hfails] at hrun
      cases hrun
      exact getBlockLocations_tracked (getBlockLocations_fails hfails)
    | none =>
      have h₁ : Tracked net Ids.file sized s (s.logged (.getBlockLocations 0 (2 ^ 63 - 1))) :=
        getBlockLocations_tracked (getBlockLocations_eq hfails)
      rw [getBlockLocations_eq hfails] at hrun
      dsimp only at hrun
      rcases h with h | h | ⟨hlt, hall, hsized⟩ | h
      · exact absurd hfails h
      · rw [if_neg (by omega), if_pos h] at hrun
        cases hrun
        exact h₁
      · rw [if_neg (by omega), if_neg (by omega)] at hrun
        exact h₁.trans (shrink_dropsAll (s := s.logged _) hall hsized hrun)
      · exact absurd h hmatch

/-! Opening -/

theorem complete_right (hc : AllRight c) (hid : fh.fileid = file.fileid) (last : Option ExtendedBlock) :
    AllRight (c.after net path fh.blocksize (c.view file fh)
      (hadoopFuseComplete net fh.fileid last (c.view file fh)).2) :=
  after_right hc (tracked_matching hid (complete_tracked rfl))

theorem create_right (hc : AllRight c) {r : Except ℤ ℕ} {c' : Client}
    (h : hadoopFuseCreateemptyfile net refusal path c = (r, c')) :
    AllRight c' ∧ ∀ fileid, r = .ok fileid →
      ∃ file, c'.files path = some file ∧ total file.blocks = 0 := by
  have hasked : AllRight (c.asked path .create) := asked_right hc fun _ _ => trivial
  unfold hadoopFuseCreateemptyfile at h
  cases hfails : net.fails c.sent.length with
  | some e =>
    rw [hfails] at h
    cases h
    exact ⟨hasked, fun fileid heq => by cases heq⟩
  | none =>
    cases hfile : c.files path with
    | some file =>
      rw [hfails, hfile] at h
      cases h
      exact ⟨hasked, fun fileid heq => by cases heq⟩
    | none =>
      rw [hfails, hfile] at h
      dsimp only at h
      obtain ⟨c₁, hc₁⟩ : ∃ c₁, c₁ = { c.asked path .create with
        files := Function.update c.files path (some ⟨[], true, c.fresh, c.blocksize⟩)
        fresh := c.fresh + 1 } := ⟨_, rfl⟩
      have hright : AllRight c₁ := hc₁ ▸ hasked
      rw [← hc₁] at h
      obtain rfl := congrArg Prod.snd h
      have hcomplete := @complete_right net c₁ path ⟨[], true, c.fresh, c.blocksize⟩ ⟨c.fresh, 0⟩
        hright rfl none
      refine ⟨hcomplete, fun fileid _ => ⟨_, Function.update_self _ _ _, ?_⟩⟩
      obtain ⟨log, ⟨res, -, hrun⟩ | hrun⟩ := completeLoop_cases net c.fresh none _
        (c₁.view ⟨[], true, c.fresh, c.blocksize⟩ ⟨c.fresh, 0⟩)
      · unfold hadoopFuseComplete
        rw [hrun]
        rfl
      · unfold hadoopFuseComplete
        rw [hrun]
        rfl

theorem ftruncate_empty_cases (h : total s.blocks = 0) :
    (∃ f, hadoopFuseFtruncate net nn depth 0 s = .error f) ∨
      ∃ res ≤ 0, hadoopFuseFtruncate net nn depth 0 s =
        .ok (res, s.logged (.getBlockLocations 0 (2 ^ 63 - 1))) := by
  cases depth with
  | zero => exact Or.inl ⟨_, by rw [hadoopFuseFtruncate]⟩
  | succ depth =>
    right
    rw [hadoopFuseFtruncate]
    cases hfails : net.fails s.log.length with
    | some e =>
      rw [getBlockLocations_fails hfails]
      exact ⟨e, e.property.le, rfl⟩
    | none =>
      rw [getBlockLocations_eq hfails]
      dsimp only
      rw [h, if_neg (lt_irrefl 0), if_pos rfl]
      exact ⟨0, le_rfl, rfl⟩

variable {flags : OpenFlags} {addr word : ℕ}

def Opened (r : Except ℤ ℕ × Client) : Prop :=
  AllRight r.2 ∧ ∀ fi, r.1 = .ok fi → r.2.records fi ≠ none

theorem openRecord_right (hc : AllRight c) (fileid blocksize : ℕ)
    (htrunc : flags.trunc → ∀ file, c.files path = some file → total file.blocks = 0) :
    Ensures (· ≠ .badHandle) Opened
      (openRecord net nn depth path flags addr word fileid blocksize c) := by
  have hrecord : (c.allocated addr ⟨fileid, blocksize⟩).records addr ≠ none := by
    simp [Client.allocated]
  unfold openRecord
  dsimp only
  by_cases ht : flags.trunc
  · rw [if_pos ht]
    unfold onPath
    cases hfile : (c.allocated addr ⟨fileid, blocksize⟩).files path with
    | none =>
      refine ⟨asked_right hc fun _ _ => trivial, fun fi hfi => ?_⟩
      dsimp only at hfi
      split_ifs at hfi
      cases hfi
      exact hrecord
    | some file =>
      have hempty := @ftruncate_empty_cases net nn depth
        ((c.allocated addr ⟨fileid, blocksize⟩).view file ⟨addr, word⟩) (htrunc ht file hfile)
      dsimp only
      rcases hempty with ⟨f, hrun⟩ | ⟨res, -, hrun⟩
      · rw [hrun]
        intro heq
        cases heq
      · rw [hrun]
        refine ⟨after_right hc (Tracked.single (.getBlockLocations 0 (2 ^ 63 - 1)) rfl ?_ rfl trivial),
          fun fi hfi => ?_⟩
        · unfold Net.renumber
          cases net.fails _ <;> rfl
        · dsimp only at hfi
          split_ifs at hfi
          cases hfi
          exact hrecord
  · rw [if_neg ht]
    refine ⟨hc, fun fi hfi => ?_⟩
    cases hfi
    exact hrecord

theorem hadoopFuseOpen_right (hc : AllRight c)
    (htrunc : flags.trunc → flags.excl ∨
      ∀ file, c.files path = some file → total file.blocks = 0) :
    Ensures (· ≠ .badHandle) Opened
      (hadoopFuseOpen net nn refusal depth path flags addr word c) := by
  have hasked : AllRight (c.asked path .getFileInfo) := asked_right hc fun _ _ => trivial
  have hrefused : ∀ (c' : Client) (e : ℤ), AllRight c' → Opened (.error e, c') :=
    fun c' e h => ⟨h, fun fi hfi => by cases hfi⟩
  unfold hadoopFuseOpen
  dsimp only
  cases net.fails c.sent.length with
  | some e => exact hrefused _ _ hasked
  | none =>
    cases hfile : c.files path with
    | some file =>
      dsimp only
      by_cases hexcl : flags.excl
      · rw [if_pos hexcl]
        exact hrefused _ _ hasked
      · rw [if_neg hexcl]
        exact openRecord_right hasked _ _ fun ht => (htrunc ht).resolve_left hexcl
    | none =>
      dsimp only
      by_cases hcreat : flags.creat
      · rw [if_pos hcreat]
        rcases hmade : hadoopFuseCreateemptyfile net refusal path (c.asked path .getFileInfo) with
          ⟨e | fileid, c₁⟩
        · exact hrefused _ _ (create_right hasked hmade).1
        · obtain ⟨hright, hempty⟩ := create_right hasked hmade
          obtain ⟨file, hfile₁, htotal⟩ := hempty fileid rfl
          refine openRecord_right hright _ _ fun _ file' hfile' => ?_
          rw [hfile₁] at hfile'
          cases hfile'
          exact htotal
      · rw [if_neg hcreat]
        exact hrefused _ _ hasked

theorem usfsOpen_right (hc : AllRight c)
    (htrunc : flags.trunc → flags.creat ∨ flags.excl ∨
      ∀ file, c.files path = some file → total file.blocks = 0) :
    Ensures (· ≠ .badHandle) (fun r => AllRight r.2)
      (usfsOpen net nn refusal depth path flags addr word c) := by
  -- a file that `mknod` has made is empty
  have hmade : ∀ made c₁, (if flags.creat then hadoopFuseCreateemptyfile net refusal path c
      else (.ok 0, c)) = (made, c₁) → AllRight c₁ ∧ ∀ fileid, made = .ok fileid → flags.trunc →
        flags.excl ∨ ∀ file, c₁.files path = some file → total file.blocks = 0 := by
    intro made c₁ h
    by_cases hcreat : flags.creat
    · rw [if_pos hcreat] at h
      obtain ⟨hright, hempty⟩ := create_right hc h
      refine ⟨hright, fun fileid hok _ => Or.inr fun file' hfile' => ?_⟩
      obtain ⟨file, hfile, htotal⟩ := hempty fileid hok
      rw [hfile] at hfile'
      cases hfile'
      exact htotal
    · rw [if_neg hcreat] at h
      cases h
      exact ⟨hc, fun _ _ ht => (htrunc ht).resolve_left hcreat⟩
  unfold usfsOpen
  rcases hrun : (if flags.creat then hadoopFuseCreateemptyfile net refusal path c
    else (.ok 0, c)) with ⟨rc | fileid, c₁⟩
  · exact (hmade _ _ hrun).1
  · obtain ⟨hright, htrunc₁⟩ := hmade _ _ hrun
    refine (hadoopFuseOpen_right hright (htrunc₁ fileid rfl)).bind fun r hr => ?_
    obtain ⟨rc | fi, c₂⟩ := r
    · exact hr.1
    · obtain ⟨fh, hfh⟩ := Option.ne_none_iff_exists'.mp (hr.2 fi rfl)
      dsimp only at hfh ⊢
      rw [hfh]
      exact hr.1

/-! Truncation without a handle -/

theorem truncate_right {length : ℕ}
    (h : net.fails s.log.length ≠ none ∨ length = total s.blocks) :
    Ensures (· ≠ .badHandle) (fun r => Tracked net Ids.file sized s r.2)
      (hadoopFuseTruncate net length s) := by
  unfold hadoopFuseTruncate
  cases hfails : net.fails s.log.length with
  | some e =>
    rw [getBlockLocations_fails hfails]
    exact getBlockLocations_tracked (getBlockLocations_fails hfails)
  | none =>
    obtain rfl := h.resolve_left (not_not.mpr hfails)
    rw [getBlockLocations_eq hfails]
    dsimp only
    rw [if_neg (lt_irrefl _), if_pos rfl]
    exact getBlockLocations_tracked (getBlockLocations_eq hfails)

/-! Runs -/

/-- A call that names its file, or sends no request that names one. A file that is not empty is
not truncated on open. The handle is the number of the file and the word behind it the recorded
block size; or else the call ends before it names the file, or has the file created again first.
By its path a file gets no other length. -/
def HdfsCall.Safe (net : Net) (c : Client) : HdfsCall → Prop
  | .openFile path flags _ _ => flags.trunc → flags.creat ∨ flags.excl ∨
      ∀ file, c.files path = some file → total file.blocks = 0
  | .write fhi _ _ word => ∃ fh, c.records fhi = some fh ∧
      ∀ file, c.files fh.filePath = some file → net.fails c.sent.length ≠ none ∨
        fhi = file.fileid ∧ word = fh.fh.blocksize
  | .ftruncate fhi length word => ∃ fh, c.records fhi = some fh ∧
      ∀ file, c.files fh.filePath = some file → net.fails c.sent.length ≠ none ∨
        length = total file.blocks ∨
        length < total file.blocks ∧ DropsAll (c.view file ⟨fhi, word⟩) length ∧
          (length = 0 ∨ word = fh.fh.blocksize) ∨
        fhi = file.fileid ∧ word = fh.fh.blocksize
  | .truncate path length => ∀ file, c.files path = some file →
      net.fails c.sent.length ≠ none ∨ length = total file.blocks
  | .close _ => True

theorem view_log_length (c : Client) (file : NameFile) (fh : FileHandle) :
    (c.view file fh).log.length = c.sent.length := List.length_map _

theorem usfsWrite_right (hc : AllRight c) {fhi : ℕ} {data : FuseBuffer} {offset : ℕ}
    (hsafe : (HdfsCall.write fhi data offset word).Safe net c) :
    Ensures (· ≠ .badHandle) (fun r => AllRight r.2)
      (usfsWrite net nn depth fhi data offset word c) := by
  obtain ⟨fh, hfh, hfile⟩ := hsafe
  unfold usfsWrite
  rw [hfh]
  refine (onPath_right hc fun file h => ?_).bind fun r hr => hr
  refine Ensures.mapError (fun r hr => write_right (s := c.view file ⟨fhi, word⟩) ?_ hr)
    fun e heq => by cases heq
  rw [view_log_length]
  exact hfile file h

theorem usfsFtruncate_right (hc : AllRight c) {fhi length : ℕ}
    (hsafe : (HdfsCall.ftruncate fhi length word).Safe net c) :
    Ensures (· ≠ .badHandle) (fun r => AllRight r.2)
      (usfsFtruncate net nn depth fhi length word c) := by
  obtain ⟨fh, hfh, hfile⟩ := hsafe
  unfold usfsFtruncate
  rw [hfh]
  refine (onPath_right hc fun file h => ?_).bind fun r hr => hr
  refine Ensures.mapError (fun r hr => ftruncate_right (s := c.view file ⟨fhi, word⟩) ?_ hr)
    fun e heq => by cases heq
  rw [view_log_length]
  exact hfile file h

theorem usfsTruncate_right (hc : AllRight c) {length : ℕ}
    (hsafe : (HdfsCall.truncate path length).Safe net c) :
    Ensures (· ≠ .badHandle) (fun r => AllRight r.2) (usfsTruncate net path length c) := by
  unfold usfsTruncate
  refine (onPath_right hc fun file h => truncate_right ?_).bind fun r hr => hr
  rw [view_log_length]
  exact hsafe file h

theorem exec_right (hc : AllRight c) {call : HdfsCall} (hsafe : call.Safe net c) :
    Addressed (call.exec net nn refusal depth c) := by
  cases call with
  | openFile path flags addr word => exact (usfsOpen_right hc hsafe).map fun _ h => h
  | write fhi data offset word => exact (usfsWrite_right hc hsafe).map fun _ h => h
  | ftruncate fhi length word => exact (usfsFtruncate_right hc hsafe).map fun _ h => h
  | truncate path length => exact (usfsTruncate_right hc hsafe).map fun _ h => h
  | close fhi => exact hc

/-- In every run of such calls the requests name the files they are for. -/
theorem requests_name_file (net : Net) (nn : NamenodeState) (refusal : Failure) (depth : ℕ)
    (c₀ : Client) (h₀ : c₀.sent = []) (calls : List HdfsCall)
    (hsafe : ∀ pre call, pre ++ [call] <+: calls → ∀ c,
      pre.foldlM (HdfsCall.exec net nn refusal depth) c₀ = .ok c → call.Safe net c) :
    ∀ pre, pre <+: calls → Addressed (pre.foldlM (HdfsCall.exec net nn refusal depth) c₀) := by
  intro pre hpre
  apply ensures_foldlM AllRight (fun c call => call.Safe net c)
  · intro c call hc hcall
    exact exec_right hc hcall
  · intro e he
    rw [h₀] at he
    cases he
  · intro p call hp c hc
    exact hsafe p call (hp.trans hpre) c hc

def execHere : Client → HdfsCall → Except Stop Client :=
  HdfsCall.exec obligingNet twoBytePackets ⟨- EINVAL, by decide⟩ 3

/-- A file is created and written by a handle that happens to be its number. -/
theorem requests_name_file_by_chance :
    Addressed ([.openFile pathA ⟨true, false, false⟩ 1 0, .write 1 (.ofBytes [5]) 0 4].foldlM
      execHere emptyNamespace) := by
  refine requests_name_file obligingNet twoBytePackets ⟨- EINVAL, by decide⟩ 3 emptyNamespace rfl
    [.openFile pathA ⟨true, false, false⟩ 1 0, .write 1 (.ofBytes [5]) 0 4] (guard_of_guarded ?_) _
    (List.prefix_refl _)
  refine ⟨fun h => absurd h Bool.false_ne_true, fun c hc => ⟨?_, fun _ _ => trivial⟩⟩
  have hopened : (execHere emptyNamespace (.openFile pathA ⟨true, false, false⟩ 1 0)).map
      (fun c => (c.records 1, c.files pathA)) =
        .ok (some ⟨⟨1, 4⟩, pathA⟩, some ⟨[], false, 1, 4⟩) := by
    decide +kernel
  have hfound := map_ok hopened hc
  obtain ⟨hrecord, hfiles⟩ := Prod.mk.inj hfound
  refine ⟨_, hrecord, fun file hfile => Or.inr ?_⟩
  rw [hfiles] at hfile
  cases hfile
  exact ⟨rfl, rfl⟩

/-- The first write to a new file: `addBlock` and `complete` name the file 8, the address of the
structure, and the file has the number 1. -/
theorem not_named_by_write :
    (([.openFile pathA ⟨true, false, false⟩ 8 0, .write 8 (.ofBytes [5]) 0 4].foldlM execHere
        emptyNamespace).map fun c => c.sent[5]?) = .ok (some ⟨1, 4, 4, .addBlock none 8⟩) ∧
      ¬ Addressed ([.openFile pathA ⟨true, false, false⟩ 8 0, .write 8 (.ofBytes [5]) 0 4].foldlM
        execHere emptyNamespace) := by
  have hsent : (([.openFile pathA ⟨true, false, false⟩ 8 0, .write 8 (.ofBytes [5]) 0 4].foldlM
      execHere emptyNamespace).map fun c => c.sent[5]?) =
        .ok (some ⟨1, 4, 4, .addBlock none 8⟩) := by
    decide +kernel
  refine ⟨hsent, fun h => ?_⟩
  unfold Addressed at h
  cases hrun : [.openFile pathA ⟨true, false, false⟩ 8 0, .write 8 (.ofBytes [5]) 0 4].foldlM
    execHere emptyNamespace with
  | error e =>
    rw [hrun] at hsent
    cases hsent
  | ok c =>
    rw [hrun] at h
    have hentry := map_ok hsent hrun
    have hright := h _ (List.mem_of_getElem? hentry)
    exact absurd hright (show (8 : ℕ) ≠ 1 by decide)

end Defuse.HdfsClient
