import Defuse.Proofs.OverlayWrite
import Defuse.Spec.HdfsHandles

/-! `usfs_open` against its flags. The file is created before `hadoop_fuse_open` looks for it,
so that a creation of its own makes `O_EXCL` fail and an existing file makes `O_CREAT` fail. -/

namespace Defuse.HdfsClient

open CSem

def Admits (c : Client) (path : HdfsPath) (flags : OpenFlags) : Prop :=
  (c.files path ≠ none ∧ ¬ (flags.creat ∧ flags.excl)) ∨ (c.files path = none ∧ flags.creat)

/-- What the flags ask of an outcome. -/
structure ObeysFlags (c : Client) (path : HdfsPath) (flags : OpenFlags)
    (outcome : Except Stop (Except ℤ ℕ × Client)) : Prop where
  succeeds : (∃ fhi c', outcome = .ok (.ok fhi, c')) ↔ Admits c path flags
  creates : c.files path = none → flags.creat → ∀ fhi c', outcome = .ok (.ok fhi, c') →
    ∃ file, c'.files path = some file ∧ file.blocks = []
  keeps : ¬ flags.trunc → ∀ file, c.files path = some file → ∀ r c', outcome = .ok (r, c') →
    ∃ file', c'.files path = some file' ∧ visible file'.blocks = visible file.blocks
  unchanged : ∀ e c', outcome = .ok (.error e, c') → c'.files = c.files

/-- A missing file is not to be created exclusively, and an existing one is to be created
exclusively, or opened with none of the flags that `usfs_open` mistakes. Truncating a file that
is not empty leaves its new number in place of the handle. -/
def FlagsHonoured (c : Client) (path : HdfsPath) (flags : OpenFlags) (addr : ℕ) : Prop :=
  match c.files path with
  | none => ¬ (flags.creat ∧ flags.excl)
  | some file => (flags.creat ∧ flags.excl) ∨ (¬ flags.creat ∧ ¬ flags.excl ∧
      (flags.trunc → total file.blocks = 0 ∨ c.fresh = addr ∨ c.records c.fresh ≠ none))

variable {net : Net} {nn : NamenodeState} {refusal : Failure} {depth addr word : ℕ} {c : Client}
  {path : HdfsPath} {flags : OpenFlags} {file : NameFile}

/-! Creation -/

theorem create_exists (hnet : ∀ k, net.fails k = none) (hfile : c.files path = some file) :
    hadoopFuseCreateemptyfile net refusal path c = (.error refusal.val, c.asked path .create) := by
  unfold hadoopFuseCreateemptyfile
  rw [hnet, hfile]

theorem create_missing (hnet : ∀ k, net.fails k = none) (hfile : c.files path = none) :
    ∃ c', hadoopFuseCreateemptyfile net refusal path c = (.ok c.fresh, c') ∧
      c'.files path = some ⟨[], false, c.fresh, c.blocksize⟩ ∧ c'.records = c.records := by
  have hcomplete := fun s => complete_ok hnet c.fresh none s
  unfold hadoopFuseCreateemptyfile
  rw [hnet, hfile]
  dsimp only
  obtain ⟨n, hn⟩ := hcomplete (Client.view { c.asked path .create with
      files := Function.update c.files path (some ⟨[], true, c.fresh, c.blocksize⟩)
      fresh := c.fresh + 1 } ⟨[], true, c.fresh, c.blocksize⟩ ⟨c.fresh, 0⟩)
  rw [hn]
  exact ⟨_, rfl, Function.update_self _ _ _, rfl⟩

/-! Truncation to nothing -/

section Truncation

variable {s : Hdfs}

theorem getBlockLocations_eq (h : net.fails s.log.length = none) :
    net.getBlockLocations s =
      (.ok ⟨total s.blocks, (s.inRange 0 (2 ^ 63 - 1)).map fun pb => ⟨pb.1, pb.2.extended⟩⟩,
        s.logged (.getBlockLocations 0 (2 ^ 63 - 1))) := by
  unfold Net.getBlockLocations
  rw [request_ok h]
  rfl

theorem ftruncate_empty (hnet : ∀ k, net.fails k = none) (h : total s.blocks = 0) :
    hadoopFuseFtruncate net nn (depth + 1) 0 s =
      .ok (0, s.logged (.getBlockLocations 0 (2 ^ 63 - 1))) := by
  rw [hadoopFuseFtruncate, getBlockLocations_eq (hnet _)]
  dsimp only
  rw [h, if_neg (lt_irrefl 0), if_pos rfl]
  rfl

theorem shrinkScan_none (s : Hdfs) (b k : ℕ) :
    shrinkScan 0 ((s.inRange 0 (2 ^ 63 - 1)).map fun pb => ⟨pb.1, pb.2.extended⟩) b k = (k, none) := by
  cases hblocks : s.inRange 0 (2 ^ 63 - 1) with
  | nil => rfl
  | cons pb pbs =>
    have hmem : pb ∈ s.inRange 0 (2 ^ 63 - 1) := hblocks ▸ List.mem_cons_self
    have hbyte := (List.mem_filter.mp hmem).2
    rw [decide_eq_true_eq] at hbyte
    rw [List.map_cons, shrinkScan, if_neg, if_neg (Nat.not_lt_zero _)]
    change ¬ pb.1 + pb.2.numbytes ≤ 0
    omega

theorem ftruncate_all (hnet : ∀ k, net.fails k = none) (h : total s.blocks ≠ 0) :
    ∃ s', hadoopFuseFtruncate net nn (depth + 1) 0 s = .ok (0, s') ∧ s'.fh.fileid = s.fresh := by
  rw [hadoopFuseFtruncate, getBlockLocations_eq (hnet _)]
  dsimp only
  rw [if_neg (Nat.not_lt_zero _), if_neg h.symm]
  unfold shrink
  dsimp only
  rw [shrinkScan_none]
  simp only [readCut, pure_eq_ok, ok_bind, dropBlocks_all _ (hnet _) (hnet _), writeCut, lt_irrefl,
    if_false]
  obtain ⟨n, hn⟩ := complete_ok hnet s.fresh none
    (s.logged (.getBlockLocations 0 (2 ^ 63 - 1))).overwritten
  refine ⟨_, congrArg (fun r : ℤ × Hdfs => Except.ok (if r.1 < 0 then r.1 else 0, r.2)) hn, rfl⟩

end Truncation

/-! The record -/

theorem openRecord_keeps (hnet : ∀ k, net.fails k = none) (hfile : c.files path = some file)
    (htrunc : flags.trunc → total file.blocks = 0) (fileid blocksize : ℕ) :
    ∃ c', openRecord net nn (depth + 1) path flags addr word fileid blocksize c = .ok (.ok addr, c') ∧
      c'.files = c.files ∧ c'.records addr ≠ none := by
  have hfile' : (c.allocated addr ⟨fileid, blocksize⟩).files path = some file := hfile
  unfold openRecord
  by_cases ht : flags.trunc
  · simp only [if_pos ht, onPath, hfile']
    rw [@ftruncate_empty net nn depth ((c.allocated addr ⟨fileid, blocksize⟩).view file ⟨addr, word⟩)
      hnet (htrunc ht)]
    refine ⟨_, rfl, ?_, ?_⟩
    · change Function.update c.files path (some file) = c.files
      rw [← hfile, Function.update_eq_self]
    · change Function.update c.records addr _ addr ≠ none
      simp
  · rw [if_neg ht]
    refine ⟨_, rfl, rfl, ?_⟩
    change Function.update c.records addr _ addr ≠ none
    simp

theorem openRecord_truncates (hnet : ∀ k, net.fails k = none) (hfile : c.files path = some file)
    (htrunc : flags.trunc) (hfull : total file.blocks ≠ 0) (fileid blocksize : ℕ) :
    ∃ c', openRecord net nn (depth + 1) path flags addr word fileid blocksize c =
        .ok (.ok c.fresh, c') ∧
      (c'.records c.fresh = none ↔ ¬ (c.fresh = addr ∨ c.records c.fresh ≠ none)) := by
  have hfile' : (c.allocated addr ⟨fileid, blocksize⟩).files path = some file := hfile
  unfold openRecord
  simp only [if_pos htrunc, onPath, hfile']
  obtain ⟨s', hs', hid⟩ := @ftruncate_all net nn depth
    ((c.allocated addr ⟨fileid, blocksize⟩).view file ⟨addr, word⟩) hnet hfull
  rw [hs']
  refine ⟨_, congrArg (fun n => Except.ok (Except.ok n, _)) hid, ?_⟩
  change Function.update c.records addr _ c.fresh = none ↔ _
  rw [Function.update_apply]
  split_ifs with h
  · simp [h]
  · simp [h]

/-! The calls -/

theorem hadoopFuseOpen_missing (hnet : ∀ k, net.fails k = none) (hfile : c.files path = none)
    (hcreat : ¬ flags.creat) :
    hadoopFuseOpen net nn refusal depth path flags addr word c =
      .ok (.error (- ENOENT), c.asked path .getFileInfo) := by
  unfold hadoopFuseOpen
  simp only [hnet, hfile, if_neg hcreat]
  rfl

theorem hadoopFuseOpen_excl (hnet : ∀ k, net.fails k = none) (hfile : c.files path = some file)
    (hexcl : flags.excl) :
    hadoopFuseOpen net nn refusal depth path flags addr word c =
      .ok (.error (- EEXIST), c.asked path .getFileInfo) := by
  unfold hadoopFuseOpen
  simp only [hnet, hfile, if_pos hexcl]
  rfl

theorem hadoopFuseOpen_exists (hnet : ∀ k, net.fails k = none) (hfile : c.files path = some file)
    (hexcl : ¬ flags.excl) :
    ∃ blocksize, hadoopFuseOpen net nn refusal depth path flags addr word c =
      openRecord net nn depth path flags addr word file.fileid blocksize
        (c.asked path .getFileInfo) := by
  unfold hadoopFuseOpen
  simp only [hnet, hfile, if_neg hexcl]
  exact ⟨_, rfl⟩

theorem usfsOpen_ok {c' c₁ : Client} {fileid fhi : ℕ}
    (hmade : (if flags.creat then hadoopFuseCreateemptyfile net refusal path c else (.ok 0, c)) =
      (.ok fileid, c₁))
    (hopen : hadoopFuseOpen net nn refusal depth path flags addr word c₁ = .ok (.ok fhi, c'))
    (hrecord : c'.records fhi ≠ none) :
    ∃ c'', usfsOpen net nn refusal depth path flags addr word c = .ok (.ok fhi, c'') ∧
      c''.files = c'.files := by
  obtain ⟨fh, hfh⟩ := Option.ne_none_iff_exists'.mp hrecord
  unfold usfsOpen
  simp only [hmade, hopen, ok_bind, hfh]
  exact ⟨_, rfl, rfl⟩

theorem usfsOpen_wild {c' c₁ : Client} {fileid fhi : ℕ}
    (hmade : (if flags.creat then hadoopFuseCreateemptyfile net refusal path c else (.ok 0, c)) =
      (.ok fileid, c₁))
    (hopen : hadoopFuseOpen net nn refusal depth path flags addr word c₁ = .ok (.ok fhi, c'))
    (hrecord : c'.records fhi = none) :
    usfsOpen net nn refusal depth path flags addr word c = .error .badHandle := by
  unfold usfsOpen
  simp only [hmade, hopen, ok_bind, hrecord]

theorem usfsOpen_refused {c' c₁ : Client} {fileid : ℕ} {rc : ℤ}
    (hmade : (if flags.creat then hadoopFuseCreateemptyfile net refusal path c else (.ok 0, c)) =
      (.ok fileid, c₁))
    (hopen : hadoopFuseOpen net nn refusal depth path flags addr word c₁ = .ok (.error rc, c')) :
    usfsOpen net nn refusal depth path flags addr word c = .ok (.error (- rc), c') := by
  unfold usfsOpen
  simp only [hmade, hopen, ok_bind]
  rfl

theorem usfsOpen_exists (hnet : ∀ k, net.fails k = none) (hfile : c.files path = some file)
    (hcreat : flags.creat) :
    usfsOpen net nn refusal depth path flags addr word c =
      .ok (.error (- refusal.val), c.asked path .create) := by
  unfold usfsOpen
  simp only [if_pos hcreat, create_exists hnet hfile]
  rfl

/-! Outcomes -/

section Outcomes

variable {outcome : Except Stop (Except ℤ ℕ × Client)} {c' : Client} {fhi : ℕ} {e : ℤ}

theorem obeys_refused_iff (hout : outcome = .ok (.error e, c')) (hfiles : c'.files = c.files) :
    ObeysFlags c path flags outcome ↔ ¬ Admits c path flags := by
  subst hout
  constructor
  · intro h hadmits
    obtain ⟨fhi, c'', heq⟩ := h.succeeds.mpr hadmits
    cases heq
  · intro hno
    refine ⟨⟨?_, fun h => absurd h hno⟩, ?_, ?_, ?_⟩
    · intro ⟨fhi, c'', heq⟩
      cases heq
    · intro hfile hcreat
      exact absurd (Or.inr ⟨hfile, hcreat⟩) hno
    · intro _ file hfile r c'' heq
      obtain rfl : c' = c'' := congrArg Prod.snd (Except.ok.inj heq)
      exact ⟨file, hfiles ▸ hfile, rfl⟩
    · intro e' c'' heq
      obtain rfl : c' = c'' := congrArg Prod.snd (Except.ok.inj heq)
      exact hfiles

theorem obeys_opened (hout : outcome = .ok (.ok fhi, c')) (hadmits : Admits c path flags)
    (hcreates : c.files path = none → ∃ file, c'.files path = some file ∧ file.blocks = [])
    (hkeeps : ¬ flags.trunc → c.files path ≠ none → c'.files = c.files) :
    ObeysFlags c path flags outcome := by
  subst hout
  refine ⟨⟨fun _ => hadmits, fun _ => ⟨fhi, c', rfl⟩⟩, ?_, ?_, ?_⟩
  · intro hfile _ fhi' c'' heq
    obtain rfl : c' = c'' := congrArg Prod.snd (Except.ok.inj heq)
    exact hcreates hfile
  · intro htrunc file hfile r c'' heq
    obtain rfl : c' = c'' := congrArg Prod.snd (Except.ok.inj heq)
    refine ⟨file, ?_, rfl⟩
    rw [hkeeps htrunc (by simp [hfile]), hfile]
  · intro e c'' heq
    cases heq

theorem not_obeys_stopped {stop : Stop} (hout : outcome = .error stop)
    (hadmits : Admits c path flags) : ¬ ObeysFlags c path flags outcome := by
  subst hout
  intro h
  obtain ⟨fhi, c', heq⟩ := h.succeeds.mpr hadmits
  cases heq

end Outcomes

/-! A missing file and an existing one -/

theorem obeys_missing_iff (nn : NamenodeState) (hnet : ∀ k, net.fails k = none) (addr word : ℕ)
    (hfile : c.files path = none) :
    ObeysFlags c path flags (usfsOpen net nn refusal (depth + 1) path flags addr word c) ↔
      ¬ (flags.creat ∧ flags.excl) := by
  by_cases hcreat : flags.creat
  · have hadmits : Admits c path flags := Or.inr ⟨hfile, hcreat⟩
    obtain ⟨c₁, hmade, hfile₁, -⟩ := @create_missing net refusal c path hnet hfile
    have hmade' : (if flags.creat then hadoopFuseCreateemptyfile net refusal path c
        else (.ok 0, c)) = (.ok c.fresh, c₁) := by
      rw [if_pos hcreat, hmade]
    by_cases hexcl : flags.excl
    · -- the file that was just created is taken for another's
      have hout := @usfsOpen_refused net nn refusal (depth + 1) addr word c path flags _ c₁ _ _ hmade'
        (hadoopFuseOpen_excl hnet hfile₁ hexcl)
      simp only [hcreat, hexcl, and_self, not_true_eq_false, iff_false]
      intro h
      obtain ⟨fhi, c', heq⟩ := h.succeeds.mpr hadmits
      rw [hout] at heq
      cases heq
    · simp only [hexcl, and_false, not_false_eq_true, iff_true, Bool.false_eq_true]
      obtain ⟨blocksize, hopen⟩ := @hadoopFuseOpen_exists net nn refusal (depth + 1) addr word c₁
        path flags _ hnet hfile₁ hexcl
      obtain ⟨c₂, hrecord, hfiles₂, hrec⟩ := @openRecord_keeps net nn depth addr word
        (c₁.asked path .getFileInfo) path flags _ hnet hfile₁ (fun _ => rfl) c.fresh blocksize
      obtain ⟨c₃, hout, hfiles₃⟩ := usfsOpen_ok hmade' (hopen.trans hrecord) hrec
      refine obeys_opened hout hadmits (fun _ => ⟨⟨[], false, c.fresh, c.blocksize⟩, ?_, rfl⟩)
        fun _ h => absurd hfile h
      rw [hfiles₃, hfiles₂]
      exact hfile₁
  · have hmade : (if flags.creat then hadoopFuseCreateemptyfile net refusal path c
        else (.ok 0, c)) = (.ok 0, c) := if_neg hcreat
    have hout := @usfsOpen_refused net nn refusal (depth + 1) addr word c path flags _ c _ _ hmade
      (hadoopFuseOpen_missing hnet hfile hcreat)
    refine (obeys_refused_iff (c := c) hout rfl).trans ?_
    simp [Admits, hfile, hcreat]

theorem obeys_exists_iff (nn : NamenodeState) (hnet : ∀ k, net.fails k = none) (addr word : ℕ)
    (hfile : c.files path = some file) :
    ObeysFlags c path flags (usfsOpen net nn refusal (depth + 1) path flags addr word c) ↔
      (flags.creat ∧ flags.excl) ∨ (¬ flags.creat ∧ ¬ flags.excl ∧
        (flags.trunc → total file.blocks = 0 ∨ c.fresh = addr ∨ c.records c.fresh ≠ none)) := by
  by_cases hcreat : flags.creat
  · refine (obeys_refused_iff (c := c) (usfsOpen_exists hnet hfile hcreat) rfl).trans ?_
    simp [Admits, hfile, hcreat]
  · have hadmits : Admits c path flags := Or.inl ⟨by simp [hfile], fun h => hcreat h.1⟩
    have hmade : (if flags.creat then hadoopFuseCreateemptyfile net refusal path c
        else (.ok 0, c)) = (.ok 0, c) := if_neg hcreat
    have hfile' : (c.asked path .getFileInfo).files path = some file := hfile
    by_cases hexcl : flags.excl
    · have hout := @usfsOpen_refused net nn refusal (depth + 1) addr word c path flags _ c _ _ hmade
        (hadoopFuseOpen_excl hnet hfile hexcl)
      refine (obeys_refused_iff (c := c) hout rfl).trans ?_
      simp [hadmits, hcreat, hexcl]
    · obtain ⟨blocksize, hopen⟩ := @hadoopFuseOpen_exists net nn refusal (depth + 1) addr word c
        path flags _ hnet hfile hexcl
      simp only [hcreat, hexcl, false_and, false_or, not_false_eq_true, true_and,
        Bool.false_eq_true]
      by_cases hkeep : flags.trunc → total file.blocks = 0
      · obtain ⟨c₁, hrecord, hfiles₁, hrec⟩ := @openRecord_keeps net nn depth addr word
          (c.asked path .getFileInfo) path flags _ hnet hfile' hkeep file.fileid blocksize
        obtain ⟨c₂, hout, hfiles₂⟩ := usfsOpen_ok hmade (hopen.trans hrecord) hrec
        refine iff_of_true (obeys_opened hout hadmits ?_ ?_) fun ht => Or.inl (hkeep ht)
        · intro hnone
          rw [hfile] at hnone
          cases hnone
        · intro _ _
          rw [hfiles₂, hfiles₁]
          rfl
      · push Not at hkeep
        obtain ⟨htrunc, hfull⟩ := hkeep
        obtain ⟨c₁, hrecord, hnone⟩ := @openRecord_truncates net nn depth addr word
          (c.asked path .getFileInfo) path flags _ hnet hfile' htrunc hfull file.fileid blocksize
        have hcond : (flags.trunc → total file.blocks = 0 ∨ c.fresh = addr ∨
            c.records c.fresh ≠ none) ↔ (c.fresh = addr ∨ c.records c.fresh ≠ none) :=
          ⟨fun h => (h htrunc).resolve_left hfull, fun h _ => Or.inr h⟩
        rw [hcond]
        by_cases hrec : c₁.records c.fresh = none
        · exact iff_of_false
            (not_obeys_stopped (usfsOpen_wild hmade (hopen.trans hrecord) hrec) hadmits)
            (hnone.mp hrec)
        · obtain ⟨c₂, hout, -⟩ := usfsOpen_ok hmade (hopen.trans hrecord) hrec
          refine iff_of_true (obeys_opened hout hadmits ?_ fun h => absurd htrunc h)
            (not_not.mp fun h => hrec (hnone.mpr h))
          intro hmissing
          rw [hfile] at hmissing
          cases hmissing

/-- `usfs_open` does what its flags say in these cases and no others. -/
theorem open_obeys_flags_iff (net : Net) (nn : NamenodeState) (refusal : Failure) (depth : ℕ)
    (hnet : ∀ k, net.fails k = none) (c : Client) (path : HdfsPath) (flags : OpenFlags)
    (addr word : ℕ) :
    ObeysFlags c path flags (usfsOpen net nn refusal (depth + 1) path flags addr word c) ↔
      FlagsHonoured c path flags addr := by
  unfold FlagsHonoured
  cases hfile : c.files path with
  | none => exact obeys_missing_iff nn hnet addr word hfile
  | some file => exact obeys_exists_iff nn hnet addr word hfile

def emptyNamespace : Client := ⟨fun _ => none, 1, 4, fun _ => none, []⟩

def pathA : HdfsPath := ⟨[97], by decide⟩

/-- A new file is opened. -/
theorem open_obeys_creat :
    (∃ c', usfsOpen obligingNet twoBytePackets ⟨- EINVAL, by decide⟩ 1 pathA ⟨true, false, false⟩ 8 0
        emptyNamespace = .ok (.ok 8, c') ∧ c'.files pathA = some ⟨[], false, 1, 4⟩) ∧
      ObeysFlags emptyNamespace pathA ⟨true, false, false⟩
        (usfsOpen obligingNet twoBytePackets ⟨- EINVAL, by decide⟩ 1 pathA ⟨true, false, false⟩ 8 0
          emptyNamespace) :=
  ⟨⟨_, rfl, rfl⟩, (open_obeys_flags_iff obligingNet twoBytePackets ⟨- EINVAL, by decide⟩ 0
    (fun _ => rfl) emptyNamespace pathA ⟨true, false, false⟩ 8 0).mpr
      (show ¬ (true = true ∧ false = true) by decide)⟩

/-- With `O_CREAT | O_EXCL` the file is created, and the call fails because it exists. -/
theorem not_obeys_exclusive :
    (∃ c', usfsOpen obligingNet twoBytePackets ⟨- EINVAL, by decide⟩ 1 pathA ⟨true, true, false⟩ 8 0
        emptyNamespace = .ok (.error EEXIST, c') ∧ c'.files pathA = some ⟨[], false, 1, 4⟩) ∧
      ¬ ObeysFlags emptyNamespace pathA ⟨true, true, false⟩
        (usfsOpen obligingNet twoBytePackets ⟨- EINVAL, by decide⟩ 1 pathA ⟨true, true, false⟩ 8 0
          emptyNamespace) := by
  refine ⟨⟨_, rfl, rfl⟩, fun h => ?_⟩
  obtain ⟨fhi, c', heq⟩ := h.succeeds.mpr (Or.inr ⟨rfl, rfl⟩)
  cases heq

end Defuse.HdfsClient
