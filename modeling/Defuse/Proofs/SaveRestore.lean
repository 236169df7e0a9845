import Defuse.Spec.SharedSpace
import Defuse.Proofs.DenseList
import Mathlib.Algebra.Order.BigOperators.Group.List

/-! Saving a table and restoring it in the next image. The reader follows the writer
record by record; the one place where it does not undo the writer is the mount, which it
looks up again by a prefix test on the path. -/

namespace Defuse

open CSem FileHandleTable

def mountBytes (mp : MountPointData) : List UInt8 :=
  leBytes 8 (asU64 mp.index) ++
    (leBytes 8 (mp.mountPath.length + 1) ++ (mp.mountPath ++ [0]))

def fileBytes (rec : Fin MAX_FILES × FileHandleData) : List UInt8 :=
  leBytes 8 rec.2.fileHandle.toNat ++ (leBytes 8 rec.1 ++ leBytes 8 rec.2.mount)

/-- The whole space, for the given file records. -/
def spaceBytes (mounts : List MountPointData) (recs : List (Fin MAX_FILES × FileHandleData)) :
    List UInt8 :=
  leBytes 8 mounts.length ++ (mounts.flatMap mountBytes ++
    (leBytes 8 recs.length ++ recs.flatMap fileBytes))

@[simp] theorem mountBytes_length (mp : MountPointData) :
    (mountBytes mp).length = 17 + mp.mountPath.length := by
  simp [mountBytes]
  omega

@[simp] theorem fileBytes_length (rec : Fin MAX_FILES × FileHandleData) :
    (fileBytes rec).length = 24 := by
  simp [fileBytes]

def mountsSize (mounts : List MountPointData) : ℕ :=
  (mounts.map fun mp => 17 + mp.mountPath.length).sum

theorem path_le_mountsSize {mounts : List MountPointData} {mp : MountPointData}
    (h : mp ∈ mounts) : 17 + mp.mountPath.length ≤ mountsSize mounts :=
  List.le_sum_of_mem (List.mem_map_of_mem h)

theorem length_le_mountsSize (mounts : List MountPointData) :
    mounts.length ≤ mountsSize mounts := by
  have h := List.length_le_sum_of_one_le (mounts.map fun mp => 17 + mp.mountPath.length)
    (by simp only [List.mem_map]; rintro _ ⟨mp, -, rfl⟩; omega)
  rwa [List.length_map] at h

theorem flatMap_mountBytes_length (mounts : List MountPointData) :
    (mounts.flatMap mountBytes).length = mountsSize mounts := by
  simp only [List.length_flatMap, mountBytes_length, mountsSize]

theorem flatMap_fileBytes_length (recs : List (Fin MAX_FILES × FileHandleData)) :
    (recs.flatMap fileBytes).length = 24 * recs.length := by
  induction recs with
  | nil => rfl
  | cons rec recs ih =>
    simp only [List.flatMap_cons, List.length_append, fileBytes_length, ih, List.length_cons]
    omega

def spaceNeeded (mounts : List MountPointData) (t : FileHandleTable) : ℕ :=
  16 + mountsSize mounts + 24 * t.usedFileDescriptorPos.toNat

theorem spaceBytes_length (mounts : List MountPointData)
    (recs : List (Fin MAX_FILES × FileHandleData)) :
    (spaceBytes mounts recs).length = 16 + mountsSize mounts + 24 * recs.length := by
  simp only [spaceBytes, List.length_append, leBytes_length, flatMap_fileBytes_length,
    flatMap_mountBytes_length]
  omega

def OnMounts (mounts : List MountPointData) (t : FileHandleTable) : Prop :=
  ∀ i p, t.fileHandles i = some p →
    ∃ r, t.heap p = some r ∧ r.fData.mount < mounts.length

variable {mounts : List MountPointData} {t : FileHandleTable}

theorem OnMounts.mount_lt (h : OnMounts mounts t) {i : Fin MAX_FILES} {d : FileHandleData}
    (hi : t.lookup i = some d) : d.mount < mounts.length := by
  obtain ⟨p, hp, hd⟩ := Option.bind_eq_some_iff.mp hi
  obtain ⟨r, hr, hm⟩ := h i p hp
  rw [hr] at hd
  cases hd
  exact hm

theorem saveMount_eq {mp : MountPointData} (hlen : (mp.mountPath.length : ℤ) < INT_MAX) :
    saveMount mp = .ok (mountBytes mp) := by
  have hint : asInt mp.mountPath.length = mp.mountPath.length := asInt_of_le (by omega) (by omega)
  have h64 : asU64 ((mp.mountPath.length : ℤ) + 1) = mp.mountPath.length + 1 := by
    unfold asU64 INT_MAX at *
    omega
  unfold saveMount mountBytes
  simp only [hint, h64]
  rw [if_neg (by omega), if_neg (by omega)]
  simp

theorem saveFile_eq (hM : Mounted mounts) (hlen : (mounts.length : ℤ) ≤ INT_MAX)
    {k i : Fin MAX_FILES} {p : RecPtr} {r : FileHandleDataInternal}
    (hk : t.usedFileDescriptors k = i) (hi : t.fileHandles i = some p) (hr : t.heap p = some r)
    (hm : r.fData.mount < mounts.length) :
    saveFile mounts t k = .ok (fileBytes (i, r.fData)) := by
  have hmp : mounts[r.fData.mount]? = some mounts[r.fData.mount] := List.getElem?_eq_getElem hm
  have hidx : asU64 mounts[r.fData.mount].index = r.fData.mount := by
    rw [hM.index_eq _ _ hmp]
    apply asU64_natCast
    unfold INT_MAX at hlen
    omega
  have hfd : asU64 (i : ℕ) = i := asU64_natCast (by have := i.isLt; unfold MAX_FILES at this; omega)
  simp [saveFile, hk, hi, deref, hr, hmp, hidx, hfd, fileBytes]

/-- The descriptors of the list with their data, in its order. -/
theorem ListsTracked.records (h : ListsTracked t) (ht : OnMounts mounts t) :
    ∃ recs : List (Fin MAX_FILES × FileHandleData),
      (recs.length : ℤ) = t.usedFileDescriptorPos ∧ (recs.map Prod.fst).Nodup ∧
      (∀ i d, (i, d) ∈ recs ↔ t.lookup i = some d) ∧
      (Mounted mounts → (mounts.length : ℤ) ≤ INT_MAX →
        (List.range t.usedFileDescriptorPos.toNat).mapM (saveFile mounts t) =
          .ok (recs.map fileBytes)) := by
  have h0 := h.pos_nonneg
  have hle := h.pos_le
  have hall : ∀ k : ℕ, k < t.usedFileDescriptorPos.toNat →
      ∃ rec : Fin MAX_FILES × FileHandleData,
        (∀ k' : Fin MAX_FILES, (k' : ℕ) = k → t.usedFileDescriptors k' = rec.1) ∧
        t.lookup rec.1 = some rec.2 ∧
        (Mounted mounts → (mounts.length : ℤ) ≤ INT_MAX →
          saveFile mounts t k = .ok (fileBytes rec)) := by
    intro k hk
    obtain ⟨k, rfl⟩ : ∃ k' : Fin MAX_FILES, k = k' := ⟨⟨k, by omega⟩, rfl⟩
    obtain ⟨i, hi, hki⟩ := h.only k (by omega)
    obtain ⟨p, hp⟩ := Option.ne_none_iff_exists'.mp hi
    obtain ⟨r, hr, hm⟩ := ht i p hp
    refine ⟨(i, r.fData), ?_, by simp [lookup, hp, hr],
      fun hM hlen => saveFile_eq hM hlen hki hp hr hm⟩
    intro k' hk'
    rw [Fin.ext hk', hki]
  choose! f hfd hdata hsave using hall
  have htracked : ∀ k, k < t.usedFileDescriptorPos.toNat → t.fileHandles (f k).1 ≠ none := by
    intro k hk hnone
    have hd := hdata k hk
    simp [lookup, hnone] at hd
  refine ⟨(List.range t.usedFileDescriptorPos.toNat).map f, by simp [h0], ?_, ?_, ?_⟩
  · rw [List.map_map]
    apply List.Nodup.map_on _ List.nodup_range
    intro k hk k' hk' he
    rw [List.mem_range] at hk hk'
    have hlt : k < MAX_FILES := by omega
    have hlt' : k' < MAX_FILES := by omega
    have hu := hfd k hk ⟨k, hlt⟩ rfl
    have hu' := hfd k' hk' ⟨k', hlt'⟩ rfl
    simp only [Function.comp_apply] at he
    rw [← he] at hu'
    have hkk := (h.once _ (htracked k hk)).unique
      ⟨show ((⟨k, hlt⟩ : Fin MAX_FILES) : ℤ) < _ by simp; omega, hu⟩
      ⟨show ((⟨k', hlt'⟩ : Fin MAX_FILES) : ℤ) < _ by simp; omega, hu'⟩
    exact Fin.mk.inj hkk
  · intro i d
    simp only [List.mem_map, List.mem_range]
    constructor
    · rintro ⟨k, hk, he⟩
      have hd := hdata k hk
      rwa [he] at hd
    · intro hd
      have hi : t.fileHandles i ≠ none := by
        intro hi
        simp [lookup, hi] at hd
      obtain ⟨k, ⟨hk, hki⟩, -⟩ := h.once i hi
      have hk' : (k : ℕ) < t.usedFileDescriptorPos.toNat := by omega
      have hfst : (f k).1 = i := by
        have he := hfd k hk' k rfl
        rw [hki] at he
        exact Fin.ext (by exact_mod_cast he.symm)
      have hsnd := hdata k hk'
      rw [hfst, hd] at hsnd
      exact ⟨k, hk', Prod.ext hfst (Option.some.inj hsnd).symm⟩
  · intro hM hlen
    rw [List.map_map]
    exact mapM_ok _ fun k hk => hsave k (List.mem_range.mp hk) hM hlen

theorem ListsTracked.lookup_none (h : ListsTracked t) (h0 : t.usedFileDescriptorPos = 0)
    (i : Fin MAX_FILES) : t.lookup i = none := by
  have hi : t.fileHandles i = none := by
    by_contra hi
    obtain ⟨k, ⟨hk, -⟩, -⟩ := h.once i hi
    omega
  simp [lookup, hi]

theorem savedBytes_eq (hM : Mounted mounts) (h : ListsTracked t) (ht : OnMounts mounts t)
    (hsize : (spaceNeeded mounts t : ℤ) ≤ INT_MAX) :
    ∃ recs : List (Fin MAX_FILES × FileHandleData),
      (recs.length : ℤ) = t.usedFileDescriptorPos ∧ (recs.map Prod.fst).Nodup ∧
      (∀ i d, (i, d) ∈ recs ↔ t.lookup i = some d) ∧
      savedBytes mounts t = .ok (spaceBytes mounts recs) := by
  obtain ⟨recs, hlen, hnd, hmem, hfiles⟩ := h.records ht
  refine ⟨recs, hlen, hnd, hmem, ?_⟩
  have hcount := length_le_mountsSize mounts
  unfold spaceNeeded at hsize
  have hmounts : mounts.mapM saveMount = .ok (mounts.map mountBytes) := by
    apply mapM_ok
    intro mp hmp
    have := path_le_mountsSize hmp
    exact saveMount_eq (by omega)
  have hpos : asU64 t.usedFileDescriptorPos = recs.length := by
    rw [← hlen]
    apply asU64_natCast
    have := h.pos_le
    unfold MAX_FILES at this
    omega
  simp [savedBytes, hmounts, hfiles hM (by omega), hpos, spaceBytes, List.flatMap_def]

def pathOffsets (ptr : ℕ) : List MountPointData → List ℕ
  | [] => []
  | mp :: ms => (ptr + 16) :: pathOffsets (ptr + (mountBytes mp).length) ms

theorem pathOffsets_at {mem : List UInt8} {ptr : ℕ} (ms : List MountPointData)
    (h : At mem ptr (ms.flatMap mountBytes)) (k : ℕ) (mp : MountPointData)
    (hk : ms[k]? = some mp) :
    ∃ off, (pathOffsets ptr ms)[k]? = some off ∧ At mem off (mp.mountPath ++ [0]) := by
  induction ms generalizing ptr k with
  | nil => cases hk
  | cons m ms ih =>
    rw [List.flatMap_cons] at h
    cases k with
    | zero =>
      cases hk
      have hpath := h.left.right.right
      simp only [leBytes_length] at hpath
      exact ⟨ptr + 16, rfl, hpath⟩
    | succ k => exact ih h.right k hk

/-- The loop over the mount records stops behind the last one. -/
theorem restoreMounts_eq {mem : List UInt8} {ptr : ℕ} (cells : ℕ) (ms : List MountPointData)
    (paths : List ℕ) (h : At mem ptr (ms.flatMap mountBytes))
    (hend : ptr + (ms.flatMap mountBytes).length < 2 ^ 64)
    (hcells : paths.length + ms.length ≤ cells)
    (hint : ((paths.length + ms.length : ℕ) : ℤ) ≤ INT_MAX) :
    restoreMounts mem cells ms.length paths ptr =
      .ok (paths ++ pathOffsets ptr ms, ptr + (ms.flatMap mountBytes).length) := by
  induction ms generalizing ptr paths with
  | nil => simp [restoreMounts, pathOffsets]
  | cons m ms ih =>
    rw [List.flatMap_cons] at h hend ⊢
    simp only [List.length_append, List.length_cons, mountBytes_length] at hend hcells hint ⊢
    have hlen : load64 mem ((ptr + 8) % 2 ^ 64) = .ok (m.mountPath.length + 1) := by
      have hat := h.left.right.left
      rw [leBytes_length] at hat
      rw [Nat.mod_eq_of_lt (by omega)]
      exact hat.load64 (by omega)
    have hptr : ((ptr + 16) % 2 ^ 64 + (m.mountPath.length + 1)) % 2 ^ 64 =
        ptr + (mountBytes m).length := by
      rw [mountBytes_length]
      omega
    have hrest := ih (paths ++ [(ptr + 16) % 2 ^ 64]) h.right
      (by rw [mountBytes_length]; omega) (by simp; omega) (by simp; omega)
    rw [restoreMounts, if_neg (by omega), hlen]
    simp only [ok_bind]
    rw [if_neg (by omega), hptr, hrest, pathOffsets, Nat.mod_eq_of_lt (by omega)]
    simp only [List.append_assoc, List.singleton_append, mountBytes_length, Except.ok.injEq,
      Prod.mk.injEq, true_and]
    omega

def pathOf (mounts : List MountPointData) (d : FileHandleData) : Option (List UInt8) :=
  mounts[d.mount]?.map (·.mountPath)

/-- The record as the next image finds it: on the first mount whose path is a prefix of
the path saved with it. -/
def rehomed (mounts : List MountPointData) (d : FileHandleData) : FileHandleData :=
  { d with mount := mounts.findIdx fun m => m.mountPath <+: (pathOf mounts d).getD [] }

theorem findMountFromPath_eq {d : FileHandleData} {mp : MountPointData}
    (hd : mounts[d.mount]? = some mp) :
    findMountFromPath mounts mp.mountPath = some (rehomed mounts d).mount := by
  have hpath : (pathOf mounts d).getD [] = mp.mountPath := by simp [pathOf, hd]
  unfold findMountFromPath rehomed
  simp only [strstr_eq_zero_iff, hpath]
  rw [List.findIdx?_eq_some_iff_findIdx_eq]
  refine ⟨?_, rfl⟩
  apply List.findIdx_lt_length_of_exists
  exact ⟨mp, List.mem_of_getElem? hd, by simp⟩

theorem asInt_fd (i : Fin MAX_FILES) : asInt (i : ℕ) = i := by
  have hilt : (i : ℕ) < 1024 := i.isLt
  exact asInt_of_le (by omega) (by unfold INT_MAX; omega)

/-- Reading back one file record inserts it, on the mount the prefix test finds. -/
theorem restoreFile_eq {mem : List UInt8} {paths : List ℕ} {ptr off : ℕ}
    {i n : Fin MAX_FILES} {d : FileHandleData} {mp : MountPointData}
    (hlen : (mounts.length : ℤ) ≤ INT_MAX) (hi : t.fileHandles i = none)
    (hn : t.usedFileDescriptorPos = n) (hat : At mem ptr (fileBytes (i, d)))
    (hd : mounts[d.mount]? = some mp) (hoff : paths[d.mount]? = some off)
    (hpath : At mem off (mp.mountPath ++ [0])) (h0 : 0 ∉ mp.mountPath) :
    restoreFile mounts mem mounts.length paths ptr t =
      .ok (t.inserted i n (rehomed mounts d)) := by
  have hm : d.mount < mounts.length := (List.getElem?_eq_some_iff.mp hd).1
  have hilt : (i : ℕ) < 1024 := i.isLt
  unfold INT_MAX at hlen
  have hfh : load64 mem ptr = .ok d.fileHandle.toNat :=
    hat.left.load64 (by have := d.fileHandle.toNat_lt; omega)
  have hfd : load64 mem (ptr + 8) = .ok i := by
    have h8 := hat.right.left
    rw [leBytes_length] at h8
    exact h8.load64 (show (i : ℕ) < 2 ^ 64 by omega)
  have hmount : load64 mem (ptr + 16) = .ok d.mount := by
    have h16 := hat.right.right
    simp only [leBytes_length] at h16
    exact h16.load64 (show d.mount < 2 ^ 64 by omega)
  unfold restoreFile
  rw [hmount, ok_bind, if_pos hm]
  simp only [hoff]
  rw [hpath.loadString h0, ok_bind, findMountFromPath_eq hd]
  simp only []
  rw [hfd, ok_bind, asInt_fd, exists_untracked hi, ok_bind, if_neg Bool.false_ne_true, hfh, ok_bind,
    insert_untracked hi hn, ok_bind, UInt64.ofNat_toNat, pure_eq_ok]
  simp only [rehomed]

/-- The loop over the file records inserts them all. -/
theorem restoreFiles_eq {mem : List UInt8} (paths : List ℕ)
    (hlen : (mounts.length : ℤ) ≤ INT_MAX)
    (hpaths : ∀ (k : ℕ) (mp : MountPointData), mounts[k]? = some mp →
      0 ∉ mp.mountPath ∧ ∃ off, paths[k]? = some off ∧ At mem off (mp.mountPath ++ [0]))
    (recs : List (Fin MAX_FILES × FileHandleData)) {i ptr : ℕ}
    (hat : At mem ptr (recs.flatMap fileBytes)) (hend : ptr + 24 * recs.length < 2 ^ 64)
    (hint : ((i + recs.length : ℕ) : ℤ) ≤ INT_MAX) (hnd : (recs.map Prod.fst).Nodup)
    (hm : ∀ rec ∈ recs, rec.2.mount < mounts.length)
    (hs : Sound t) (hd : DenseList t) (hnew : ∀ rec ∈ recs, t.fileHandles rec.1 = none) :
    ∃ t', restoreFiles mounts mem mounts.length paths recs.length i ptr t = .ok t' ∧
      Sound t' ∧ DenseList t' ∧
      ∀ j, t'.lookup j =
        (((recs.find? fun rec => rec.1 = j).map fun rec => rehomed mounts rec.2).or (t.lookup j)) := by
  induction recs generalizing i ptr t with
  | nil => exact ⟨t, rfl, hs, hd, by simp⟩
  | cons rec recs ih =>
    obtain ⟨fd, d⟩ := rec
    simp only [List.map_cons, List.nodup_cons, List.mem_map, Prod.exists, exists_and_right,
      exists_eq_right, not_exists] at hnd
    rw [List.flatMap_cons] at hat
    simp only [List.length_cons] at hend hint
    have hfd : t.fileHandles fd = none := hnew (fd, d) (by simp)
    obtain ⟨n, hn⟩ := hs.room hfd
    obtain ⟨mp, hmp⟩ : ∃ mp, mounts[d.mount]? = some mp :=
      ⟨_, List.getElem?_eq_getElem (hm (fd, d) (by simp))⟩
    obtain ⟨h0, off, hoff, hpath⟩ := hpaths d.mount mp hmp
    have hone := restoreFile_eq hlen hfd hn hat.left hmp hoff hpath h0
    have hs' := inserted_sound hs hfd hn (rehomed mounts d)
    have hd' : DenseList (t.inserted fd n (rehomed mounts d)) :=
      insert_dense hs hd _ (insert_untracked hfd hn _)
    have hnext := hat.right
    rw [fileBytes_length] at hnext
    obtain ⟨t', hrun, hst, hdt, hlook⟩ := ih hnext (by omega) (i := i + 1) (by omega) hnd.2
      (fun r hr => hm r (by simp [hr])) hs' hd' (by
        rintro ⟨j, e⟩ hr
        have hj : j ≠ fd := by
          rintro rfl
          exact hnd.1 e hr
        have := hnew (j, e) (by simp [hr])
        simpa [inserted, linked, Function.update_of_ne hj] using this)
    refine ⟨t', ?_, hst, hdt, ?_⟩
    · rw [List.length_cons, restoreFiles, hone, ok_bind, if_neg (by omega),
        Nat.mod_eq_of_lt (by omega), hrun]
    · intro j
      rw [hlook j, lookup_inserted hs]
      by_cases hj : j = fd
      · subst hj
        have hnone : recs.find? (fun rec => rec.1 = j) = none := by
          simp only [List.find?_eq_none, decide_eq_true_eq]
          rintro ⟨j', e⟩ hr rfl
          exact hnd.1 e hr
        simp [hnone]
      · simp [hj, Ne.symm hj]

/-- Restoring from a memory that starts with the bytes of a save. -/
theorem restore_eq (hM : Mounted mounts) {recs : List (Fin MAX_FILES × FileHandleData)}
    {mem : List UInt8} (hat : At mem 0 (spaceBytes mounts recs))
    (hsize : ((spaceBytes mounts recs).length : ℤ) ≤ INT_MAX) (hnd : (recs.map Prod.fst).Nodup)
    (hm : ∀ rec ∈ recs, rec.2.mount < mounts.length) :
    ∃ t', restoreFileHandlesFromSharedSpace mounts (some mem) zeroed = .ok t' ∧
      Sound t' ∧ DenseList t' ∧
      ∀ j, t'.lookup j =
        (recs.find? fun rec => rec.1 = j).map fun rec => rehomed mounts rec.2 := by
  have hlen := length_le_mountsSize mounts
  rw [spaceBytes_length] at hsize
  unfold INT_MAX at hsize
  have hcount : load64 mem 0 = .ok mounts.length := hat.left.load64 (by omega)
  have hcells : mountPathCells mounts.length = mounts.length := by
    unfold mountPathCells
    rw [Nat.mod_eq_of_lt (by omega), if_pos (by omega)]
    omega
  have hmat : At mem 8 (mounts.flatMap mountBytes) := by
    have h := hat.right.left
    rwa [leBytes_length, Nat.zero_add] at h
  have hrest := hat.right.right
  rw [leBytes_length, flatMap_mountBytes_length, Nat.zero_add] at hrest
  have hfat := hrest.right
  rw [leBytes_length] at hfat
  have hloop := restoreMounts_eq mounts.length mounts [] hmat
    (by rw [flatMap_mountBytes_length]; omega) (by simp) (by unfold INT_MAX; simp; omega)
  rw [flatMap_mountBytes_length, List.nil_append] at hloop
  have hfiles : load64 mem (8 + mountsSize mounts) = .ok recs.length := hrest.left.load64 (by omega)
  obtain ⟨t', hrun, hs, hd, hlook⟩ := restoreFiles_eq (pathOffsets 8 mounts)
    (by unfold INT_MAX; omega) (by
      intro k mp hk
      exact ⟨hM.text mp (List.mem_of_getElem? hk), pathOffsets_at mounts hmat k mp hk⟩)
    recs (i := 0) hfat (by omega) (by unfold INT_MAX; omega) hnd hm zeroed_sound zeroed_dense
    (fun _ _ => rfl)
  refine ⟨t', ?_, hs, hd, ?_⟩
  · unfold restoreFileHandlesFromSharedSpace
    simp only [hcount, ok_bind, hcells, hloop, hfiles]
    rw [Nat.mod_eq_of_lt (by omega), hrun]
  · intro j
    rw [hlook j]
    simp [lookup, zeroed]

theorem find_records {recs : List (Fin MAX_FILES × FileHandleData)}
    (hmem : ∀ i d, (i, d) ∈ recs ↔ t.lookup i = some d) (j : Fin MAX_FILES) :
    (recs.find? fun rec => rec.1 = j).map Prod.snd = t.lookup j := by
  cases hj : recs.find? fun rec => rec.1 = j with
  | none =>
    simp only [List.find?_eq_none, decide_eq_true_eq] at hj
    symm
    apply Option.eq_none_iff_forall_ne_some.mpr
    intro d hd
    exact hj (j, d) ((hmem j d).mpr hd) rfl
  | some rec =>
    obtain ⟨i, d⟩ := rec
    have hi := List.find?_some hj
    simp only [decide_eq_true_eq] at hi
    subst hi
    exact ((hmem i d).mp (List.mem_of_find?_eq_some hj)).symm

theorem spaceBytes_tail {recs : List (Fin MAX_FILES × FileHandleData)} (hne : recs ≠ [])
    (hm : ∀ rec ∈ recs, rec.2.mount < 256) :
    ∃ front, spaceBytes mounts recs = front ++ List.replicate 7 0 := by
  obtain ⟨init, rec, rfl⟩ := List.eq_nil_or_concat recs |>.resolve_left hne
  have hlow : leBytes 8 rec.2.mount = UInt8.ofNat rec.2.mount :: List.replicate 7 0 := by
    have hlt := hm rec (by simp)
    rw [leBytes, Nat.mod_eq_of_lt hlt, Nat.div_eq_of_lt hlt, leBytes_zero]
  refine ⟨leBytes 8 mounts.length ++ (mounts.flatMap mountBytes ++
    (leBytes 8 (init ++ [rec]).length ++ (init.flatMap fileBytes ++
      (leBytes 8 rec.2.fileHandle.toNat ++ (leBytes 8 rec.1 ++ [UInt8.ofNat rec.2.mount]))))), ?_⟩
  simp only [spaceBytes, List.concat_eq_append, List.flatMap_append, List.flatMap_cons,
    List.flatMap_nil, List.append_nil, fileBytes, hlow, List.append_assoc,
    List.cons_append, List.nil_append]

/-- A save into a large enough space, restored from any memory that starts with it. -/
theorem restore_saved (hM : Mounted mounts) (h : ListsTracked t) (ht : OnMounts mounts t)
    (hsize : (spaceNeeded mounts t : ℤ) ≤ INT_MAX) :
    ∃ bytes, savedBytes mounts t = .ok bytes ∧ bytes.length = spaceNeeded mounts t ∧
      (t.usedFileDescriptorPos ≠ 0 → mounts.length ≤ 256 →
        ∃ front, bytes = front ++ List.replicate 7 0) ∧
      ∀ mem, At mem 0 bytes →
        ∃ t', restoreFileHandlesFromSharedSpace mounts (some mem) zeroed = .ok t' ∧
          Sound t' ∧ DenseList t' ∧ ∀ j, t'.lookup j = (t.lookup j).map (rehomed mounts) := by
  obtain ⟨recs, hlen, hnd, hmem, hsave⟩ := savedBytes_eq hM h ht hsize
  have hbytes : (spaceBytes mounts recs).length = spaceNeeded mounts t := by
    rw [spaceBytes_length, spaceNeeded, ← hlen, Int.toNat_natCast]
  have hon : ∀ rec ∈ recs, rec.2.mount < mounts.length := by
    rintro ⟨i, d⟩ hrec
    exact ht.mount_lt ((hmem i d).mp hrec)
  refine ⟨_, hsave, hbytes, ?_, ?_⟩
  · intro hpos hle
    apply spaceBytes_tail
    · rintro rfl
      exact hpos (by simpa using hlen.symm)
    · intro rec hrec
      exact lt_of_lt_of_le (hon rec hrec) hle
  intro mem hat
  obtain ⟨t', hrun, hs, hd, hlook⟩ := restore_eq hM hat (by rw [hbytes]; exact hsize) hnd hon
  refine ⟨t', hrun, hs, hd, ?_⟩
  intro j
  rw [hlook j, ← find_records hmem j, Option.map_map]
  rfl

/-- Both tables have an entry at the same descriptors, with the same handle on the mount
of the same path. -/
def SameEntries (mounts : List MountPointData) (t t' : FileHandleTable) : Prop :=
  ∀ i, (t'.lookup i).map (fun d => (d.fileHandle, pathOf mounts d)) =
    (t.lookup i).map fun d => (d.fileHandle, pathOf mounts d)

def Unshadowed (mounts : List MountPointData) (t : FileHandleTable) : Prop :=
  ∀ i d, t.lookup i = some d → ∀ (k : ℕ) (m mp : MountPointData), k < d.mount →
    mounts[k]? = some m → mounts[d.mount]? = some mp → ¬ m.mountPath <+: mp.mountPath

theorem rehomed_mount_iff {d : FileHandleData} (hm : d.mount < mounts.length) :
    (rehomed mounts d).mount = d.mount ↔
      ∀ (k : ℕ) (m mp : MountPointData), k < d.mount → mounts[k]? = some m →
        mounts[d.mount]? = some mp → ¬ m.mountPath <+: mp.mountPath := by
  have hpath : (pathOf mounts d).getD [] = mounts[d.mount].mountPath := by
    simp [pathOf, List.getElem?_eq_getElem hm]
  unfold rehomed
  simp only [hpath]
  rw [List.findIdx_eq hm]
  simp only [List.prefix_refl, decide_true, decide_eq_false_iff_not, true_and]
  constructor
  · intro h k m mp hk hkm hmp
    obtain ⟨hk', rfl⟩ := List.getElem?_eq_some_iff.mp hkm
    obtain ⟨-, rfl⟩ := List.getElem?_eq_some_iff.mp hmp
    exact h k hk
  · intro h k hk
    exact h k _ _ hk (List.getElem?_eq_getElem (by omega)) (List.getElem?_eq_getElem hm)

theorem pathOf_rehomed_iff (hM : Mounted mounts) {d : FileHandleData}
    (hm : d.mount < mounts.length) :
    pathOf mounts (rehomed mounts d) = pathOf mounts d ↔ (rehomed mounts d).mount = d.mount := by
  constructor
  · intro h
    unfold pathOf at h
    rw [← List.getElem?_map, ← List.getElem?_map] at h
    exact ((List.getElem?_inj (by simpa using hm) hM.distinct).mp h.symm).symm
  · intro h
    unfold pathOf
    rw [h]

theorem sameEntries_iff (hM : Mounted mounts) (ht : OnMounts mounts t) {t' : FileHandleTable}
    (hlook : ∀ j, t'.lookup j = (t.lookup j).map (rehomed mounts)) :
    SameEntries mounts t t' ↔ Unshadowed mounts t := by
  have hone : ∀ i d, t.lookup i = some d →
      ((t'.lookup i).map (fun d => (d.fileHandle, pathOf mounts d)) =
          (t.lookup i).map (fun d => (d.fileHandle, pathOf mounts d)) ↔
        (rehomed mounts d).mount = d.mount) := by
    intro i d hi
    rw [hlook i, hi, ← pathOf_rehomed_iff hM (ht.mount_lt hi)]
    simp [rehomed]
  constructor
  · intro h i d hi
    exact (rehomed_mount_iff (ht.mount_lt hi)).mp ((hone i d hi).mp (h i))
  · intro h i
    cases hi : t.lookup i with
    | none => rw [hlook i, hi]; rfl
    | some d =>
      rw [← hi]
      exact (hone i d hi).mpr ((rehomed_mount_iff (ht.mount_lt hi)).mpr (h i d hi))

/-- The whole exchange, whatever the table holds: every entry comes back, on the mount
the prefix test finds. -/
theorem save_restore_eq (hM : Mounted mounts) (h : ListsTracked t) (ht : OnMounts mounts t)
    (hsize : (spaceNeeded mounts t : ℤ) ≤ INT_MAX) (room : ℕ)
    (hroom : spaceNeeded mounts t ≤ room) :
    ∃ saved t', saveFileHandlesToSharedSpace mounts t (some room) = .ok (0, saved) ∧
      restoreFileHandlesFromSharedSpace mounts saved zeroed = .ok t' ∧
      ∀ j, t'.lookup j = (t.lookup j).map (rehomed mounts) := by
  obtain ⟨bytes, hsave, hlen, -, hread⟩ := restore_saved hM h ht hsize
  unfold saveFileHandlesToSharedSpace
  split_ifs with hpos
  · obtain ⟨t', hrun, -, -, hlook⟩ := hread bytes ⟨[], [], by simp, rfl⟩
    refine ⟨some bytes, t', ?_, hrun, hlook⟩
    simp only [hsave, ok_bind]
    rw [if_pos (by omega), pure_eq_ok]
  · refine ⟨none, zeroed, rfl, rfl, ?_⟩
    intro j
    have hempty : t.usedFileDescriptorPos = 0 := by
      have := h.pos_le
      have := h.pos_nonneg
      unfold asU64 at hpos
      unfold MAX_FILES at *
      omega
    rw [h.lookup_none hempty]
    rfl

/-- The round trip, for a table on the mounts whose list is right and a space that is large
enough: the next image finds every entry again exactly when no entry is shadowed. -/
theorem save_restore_iff (hM : Mounted mounts) (h : ListsTracked t) (ht : OnMounts mounts t)
    (hsize : (spaceNeeded mounts t : ℤ) ≤ INT_MAX) (room : ℕ) (hroom : spaceNeeded mounts t ≤ room) :
    (∃ rv saved t', saveFileHandlesToSharedSpace mounts t (some room) = .ok (rv, saved) ∧
        restoreFileHandlesFromSharedSpace mounts saved zeroed = .ok t' ∧
        SameEntries mounts t t') ↔
      Unshadowed mounts t := by
  obtain ⟨saved, t', hsave, hrestore, hlook⟩ := save_restore_eq hM h ht hsize room hroom
  have hsame : SameEntries mounts t t' ↔ Unshadowed mounts t := sameEntries_iff hM ht hlook
  rw [← hsame]
  constructor
  · rintro ⟨rv, saved₁, t₁, hsave₁, hrestore₁, h₁⟩
    rw [hsave] at hsave₁
    cases hsave₁
    rw [hrestore] at hrestore₁
    cases hrestore₁
    exact h₁
  · intro h'
    exact ⟨0, saved, t', hsave, hrestore, h'⟩

/-- `/mnt/a` and `/mnt/ab`, in this order. -/
def nestedNames : List MountPointData :=
  [⟨0, [0x2f, 0x6d, 0x6e, 0x74, 0x2f, 0x61], [0x2f, 0x62], []⟩,
    ⟨1, [0x2f, 0x6d, 0x6e, 0x74, 0x2f, 0x61, 0x62], [0x2f, 0x63], []⟩]

theorem nestedNames_mounted : Mounted nestedNames where
  index_eq := by
    intro k mp h
    match k with
    | 0 => cases h; rfl
    | 1 => cases h; rfl
    | k + 2 => cases h
  distinct := by decide
  nonempty := by decide
  text := by decide

def oneEntry (m : ℕ) : FileHandleTable := zeroed.inserted 5 0 ⟨9, m⟩

theorem oneEntry_lookup (m : ℕ) (j : Fin MAX_FILES) :
    (oneEntry m).lookup j = if j = 5 then some ⟨9, m⟩ else none := by
  unfold oneEntry
  rw [lookup_inserted zeroed_sound]
  rfl

theorem oneEntry_dense (m : ℕ) : DenseList (oneEntry m) :=
  insert_dense zeroed_sound zeroed_dense _ (insert_untracked rfl rfl _)

theorem oneEntry_onMounts {m : ℕ} (hm : m < mounts.length) : OnMounts mounts (oneEntry m) := by
  intro i p hi
  by_cases h5 : i = 5
  · subst h5
    simp only [oneEntry, inserted, linked, Function.update_self, Option.some.injEq] at hi
    subst hi
    exact ⟨⟨⟨9, m⟩, 1⟩, by simp [oneEntry, inserted, linked], hm⟩
  · simp [oneEntry, inserted, linked, Function.update_of_ne h5, zeroed] at hi

/-- An entry on the first mount survives. -/
theorem save_restore_first : ∃ rv saved t',
    saveFileHandlesToSharedSpace nestedNames (oneEntry 0) (some 4096) = .ok (rv, saved) ∧
      restoreFileHandlesFromSharedSpace nestedNames saved zeroed = .ok t' ∧
      SameEntries nestedNames (oneEntry 0) t' := by
  refine (save_restore_iff nestedNames_mounted (oneEntry_dense 0).toListsTracked
    (oneEntry_onMounts (by decide)) (by decide) 4096 (by decide)).mpr ?_
  intro i d hi k m mp hk
  rw [oneEntry_lookup] at hi
  split_ifs at hi
  cases hi
  exact absurd hk (Nat.not_lt_zero k)

/-- An entry on `/mnt/ab` comes back on `/mnt/a`. -/
theorem save_restore_fails_nested : Mounted nestedNames ∧ ListsTracked (oneEntry 1) ∧
    OnMounts nestedNames (oneEntry 1) ∧ spaceNeeded nestedNames (oneEntry 1) ≤ 4096 ∧
    ∃ saved t', saveFileHandlesToSharedSpace nestedNames (oneEntry 1) (some 4096) = .ok (0, saved) ∧
      restoreFileHandlesFromSharedSpace nestedNames saved zeroed = .ok t' ∧
      (oneEntry 1).lookup 5 = some ⟨9, 1⟩ ∧ t'.lookup 5 = some ⟨9, 0⟩ := by
  have hon : OnMounts nestedNames (oneEntry 1) := oneEntry_onMounts (by decide)
  obtain ⟨saved, t', hsave, hrestore, hlook⟩ := save_restore_eq nestedNames_mounted
    (oneEntry_dense 1).toListsTracked hon (by decide) 4096 (by decide)
  have h5 : (oneEntry 1).lookup 5 = some ⟨9, 1⟩ := by rw [oneEntry_lookup]; rfl
  refine ⟨nestedNames_mounted, (oneEntry_dense 1).toListsTracked, hon, by decide, saved, t', hsave,
    hrestore, h5, ?_⟩
  rw [hlook, h5]
  decide

end Defuse
