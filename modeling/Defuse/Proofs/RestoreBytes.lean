import Defuse.Proofs.TableSound
import Defuse.Spec.SharedSpace

/-! `restore_file_handles_from_shared_space` on an arbitrary file. Nothing it reads is
checked against the size of the mapping, so it stays inside exactly for the files that
`Restorable` describes. -/

namespace Defuse

open CSem FileHandleTable

def wordAt (mem : List UInt8) (off : ℕ) : ℕ := leNat ((mem.drop off).take 8)

def nextMount (mem : List UInt8) (ptr : ℕ) : ℕ :=
  ((ptr + 16) % 2 ^ 64 + wordAt mem ((ptr + 8) % 2 ^ 64)) % 2 ^ 64

def mountPtr (mem : List UInt8) (ptr : ℕ) : ℕ → ℕ
  | 0 => ptr
  | i + 1 => mountPtr mem (nextMount mem ptr) i

def pathPtr (mem : List UInt8) (i : ℕ) : ℕ := (mountPtr mem 8 i + 16) % 2 ^ 64

def recordPtr (ptr : ℕ) : ℕ → ℕ
  | 0 => ptr
  | k + 1 => recordPtr ((ptr + 24) % 2 ^ 64) k

/-- A file record lies inside, and if it names a mount record, then the path there ends
inside, and a descriptor for a known mount is not negative as an `int`. -/
structure RecordOk (mounts : List MountPointData) (mem : List UInt8) (count ptr : ℕ) : Prop where
  inside : ptr + 24 ≤ mem.length
  path : wordAt mem (ptr + 16) < count → ∃ s,
    loadString mem (pathPtr mem (wordAt mem (ptr + 16))) = .ok s ∧
      (findMountFromPath mounts s ≠ none → 0 ≤ asInt (wordAt mem (ptr + 8)))

/-- The files that can be restored without leaving the mapping. -/
structure Restorable (mounts : List MountPointData) (mem : List UInt8) : Prop where
  count_inside : 8 ≤ mem.length
  count_le : (wordAt mem 0 : ℤ) ≤ INT_MAX
  mounts_inside : ∀ i < wordAt mem 0, (mountPtr mem 8 i + 8) % 2 ^ 64 + 8 ≤ mem.length
  files_inside : mountPtr mem 8 (wordAt mem 0) + 8 ≤ mem.length
  files_le : (wordAt mem (mountPtr mem 8 (wordAt mem 0)) : ℤ) ≤ INT_MAX
  records : ∀ k < wordAt mem (mountPtr mem 8 (wordAt mem 0)),
    RecordOk mounts mem (wordAt mem 0)
      (recordPtr ((mountPtr mem 8 (wordAt mem 0) + 8) % 2 ^ 64) k)

def mappedBytes (file : List UInt8) : Option (List UInt8) := if file = [] then none else some file

variable {mounts : List MountPointData} {mem : List UInt8} {t t' : FileHandleTable}
  {count cells off ptr todo i : ℕ} {paths : List ℕ}

theorem load64_inside (h : off + 8 ≤ mem.length) : load64 mem off = .ok (wordAt mem off) := if_pos h

theorem load64_ok_iff {n : ℕ} :
    load64 mem off = .ok n ↔ off + 8 ≤ mem.length ∧ n = wordAt mem off := by
  by_cases h : off + 8 ≤ mem.length
  · rw [load64_inside h]
    constructor
    · intro heq
      exact ⟨h, (Except.ok.inj heq).symm⟩
    · rintro ⟨-, rfl⟩
      rfl
  · rw [load64, if_neg h]
    exact iff_of_false (fun heq => by cases heq) fun hand => h hand.1

/-- The loop over the mount records returns exactly when every record it visits has a cell
to go to and its length inside, and its counter does not overflow. -/
theorem restoreMounts_ok_iff {r : List ℕ × ℕ} :
    restoreMounts mem cells todo paths ptr = .ok r ↔
      (∀ i < todo, paths.length + i < cells ∧ (mountPtr mem ptr i + 8) % 2 ^ 64 + 8 ≤ mem.length ∧
        ((paths.length + i : ℕ) : ℤ) ≠ INT_MAX) ∧
      r = (paths ++ (List.range todo).map (fun i => (mountPtr mem ptr i + 16) % 2 ^ 64),
        mountPtr mem ptr todo) := by
  induction todo generalizing paths ptr with
  | zero => simp [restoreMounts, mountPtr, eq_comm]
  | succ todo ih =>
    rw [Nat.forall_lt_succ_left]
    by_cases hcell : cells ≤ paths.length
    · rw [restoreMounts, if_pos hcell]
      exact iff_of_false (fun h => by cases h) fun h => absurd h.1.1.1 (by omega)
    · rw [restoreMounts, if_neg hcell]
      simp only [bind_ok_iff, load64_ok_iff]
      by_cases hmax : (paths.length : ℤ) = INT_MAX
      · simp only [if_pos hmax]
        refine iff_of_false (fun h => ?_) fun h => absurd hmax h.1.1.2.2
        obtain ⟨n, -, h⟩ := h
        cases h
      · simp only [if_neg hmax]
        have hlist : paths ++ (List.range (todo + 1)).map
            (fun i => (mountPtr mem ptr i + 16) % 2 ^ 64) =
              (paths ++ [(ptr + 16) % 2 ^ 64]) ++ (List.range todo).map
                (fun i => (mountPtr mem (nextMount mem ptr) i + 16) % 2 ^ 64) := by
          rw [List.range_succ_eq_map, List.map_cons, List.map_map, List.append_assoc]
          rfl
        have hrest : restoreMounts mem cells todo (paths ++ [(ptr + 16) % 2 ^ 64])
            (nextMount mem ptr) = .ok r ↔ _ := ih
        rw [hlist]
        constructor
        · rintro ⟨n, ⟨hin, rfl⟩, h⟩
          obtain ⟨hall, hr⟩ := hrest.mp h
          refine ⟨⟨⟨by omega, hin, hmax⟩, fun i hi => ?_⟩, hr⟩
          have := hall i hi
          rw [List.length_append, List.length_singleton] at this
          rw [← Nat.add_assoc, Nat.add_right_comm]
          exact this
        · rintro ⟨⟨⟨-, hin, -⟩, hall⟩, hr⟩
          refine ⟨_, ⟨hin, rfl⟩, hrest.mpr ⟨fun i hi => ?_, hr⟩⟩
          have := hall i hi
          rw [List.length_append, List.length_singleton]
          rw [← Nat.add_assoc, Nat.add_right_comm] at this
          exact this

theorem exists_negative {fd : ℤ} (h : fd < 0) : ∃ e, t.fileHandleExists fd = .error e := by
  have hlt : ¬ fd ≥ MAX_FILES := by omega
  exact ⟨_, by rw [fileHandleExists, if_neg hlt, index_negative h, error_bind]⟩

theorem exists_nonneg (hs : Sound t) {fd : ℤ} (h : 0 ≤ fd) : ∃ b, t.fileHandleExists fd = .ok b := by
  by_cases hlt : fd < MAX_FILES
  · obtain ⟨i, rfl⟩ := exists_fin ⟨h, hlt⟩
    cases hi : t.fileHandles i with
    | none => exact ⟨false, exists_untracked hi⟩
    | some p =>
      obtain ⟨r, hr, -⟩ := hs.live hi
      refine ⟨decide (r.useCount > 0), ?_⟩
      rw [fileHandleExists, if_neg (by omega), index_val, ok_bind, hi, useCount_some hr, ok_bind,
        pure_eq_ok]
  · exact ⟨false, by rw [fileHandleExists, if_pos (by omega), pure_eq_ok]⟩

theorem insert_nonneg (hs : Sound t) {fd : ℤ} (h : 0 ≤ fd) (fhd : FileHandleData) :
    ∃ rv t', t.insertFileHandle fd fhd = .ok (rv, t') ∧ Sound t' := by
  by_cases hlt : fd < MAX_FILES
  · obtain ⟨i, rfl⟩ := exists_fin ⟨h, hlt⟩
    exact insert_sound hs i fhd
  · exact ⟨EBADF, t, by rw [insertFileHandle, if_pos (by omega), pure_eq_ok], hs⟩

def mountPaths (mem : List UInt8) (count : ℕ) : List ℕ :=
  (List.range count).map (pathPtr mem)

theorem mountPaths_get (h : i < count) :
    (mountPaths mem count)[i]? = some (pathPtr mem i) := by
  simp [mountPaths, h]

/-- One iteration of the second loop on a record that is in order. -/
theorem restoreFile_ok (hs : Sound t) (h : RecordOk mounts mem count ptr) :
    ∃ t', restoreFile mounts mem count (mountPaths mem count) ptr t = .ok t' ∧ Sound t' := by
  have hin := h.inside
  have hfh : load64 mem ptr = .ok (wordAt mem ptr) := load64_inside (by omega)
  have hfd : load64 mem (ptr + 8) = .ok (wordAt mem (ptr + 8)) := load64_inside (by omega)
  unfold restoreFile
  rw [load64_inside (by omega), ok_bind]
  by_cases hidx : wordAt mem (ptr + 16) < count
  · obtain ⟨s, hpath, hnn⟩ := h.path hidx
    rw [if_pos hidx, mountPaths_get hidx]
    simp only []
    rw [hpath, ok_bind]
    cases hm : findMountFromPath mounts s with
    | none => exact ⟨t, by simp only [pure_eq_ok], hs⟩
    | some m =>
      replace hnn := hnn (by rw [hm]; exact Option.some_ne_none m)
      simp only []
      rw [hfd, ok_bind]
      generalize asInt (wordAt mem (ptr + 8)) = fd at hnn ⊢
      obtain ⟨b, hb⟩ := exists_nonneg hs hnn
      rw [hb, ok_bind]
      cases b with
      | true => exact ⟨t, by rw [if_pos rfl, pure_eq_ok], hs⟩
      | false =>
        obtain ⟨rv, t', hins, hs'⟩ := insert_nonneg hs hnn ⟨UInt64.ofNat (wordAt mem ptr), m⟩
        refine ⟨t', ?_, hs'⟩
        rw [if_neg Bool.false_ne_true, hfh, ok_bind, hins, ok_bind, pure_eq_ok]
  · rw [if_neg hidx]
    exact ⟨t, by rw [pure_eq_ok], hs⟩

theorem recordOk_of_ok (h : restoreFile mounts mem count (mountPaths mem count) ptr t = .ok t') :
    RecordOk mounts mem count ptr := by
  unfold restoreFile at h
  rw [bind_ok_iff] at h
  obtain ⟨idx, hload, h⟩ := h
  obtain ⟨hin, rfl⟩ := load64_ok_iff.mp hload
  refine ⟨by omega, fun hidx => ?_⟩
  rw [if_pos hidx, mountPaths_get hidx] at h
  simp only [bind_ok_iff] at h
  obtain ⟨s, hs, h⟩ := h
  refine ⟨s, hs, fun hm => not_lt.mp fun hneg => ?_⟩
  obtain ⟨m, hm⟩ := Option.ne_none_iff_exists'.mp hm
  rw [hm] at h
  simp only [bind_ok_iff] at h
  obtain ⟨fd, hfd, b, hb, -⟩ := h
  obtain ⟨-, rfl⟩ := load64_ok_iff.mp hfd
  obtain ⟨e, he⟩ := exists_negative (t := t) hneg
  rw [he] at hb
  cases hb

/-- The second loop returns exactly when every record is in order and its counter does
not overflow. -/
theorem restoreFiles_ok_iff (hs : Sound t) :
    (∃ t', restoreFiles mounts mem count (mountPaths mem count) todo i ptr t = .ok t') ↔
      ∀ k < todo, RecordOk mounts mem count (recordPtr ptr k) ∧ ((i + k : ℕ) : ℤ) ≠ INT_MAX := by
  induction todo generalizing i ptr t with
  | zero => exact iff_of_true ⟨t, rfl⟩ fun k hk => absurd hk (Nat.not_lt_zero k)
  | succ todo ih =>
    rw [Nat.forall_lt_succ_left]
    simp only [restoreFiles, bind_ok_iff]
    by_cases hrec : RecordOk mounts mem count ptr
    · obtain ⟨t₁, ht₁, hs₁⟩ := restoreFile_ok hs hrec
      rw [ht₁]
      simp only [Except.ok.injEq, exists_eq_left']
      by_cases hmax : (i : ℤ) = INT_MAX
      · simp only [if_pos hmax]
        exact iff_of_false (fun ⟨t', h⟩ => by cases h) fun h => absurd hmax h.1.2
      · simp only [if_neg hmax]
        rw [ih hs₁]
        have hshift (k : ℕ) : i + 1 + k = i + (k + 1) := by omega
        simp only [hshift]
        exact ⟨fun h => ⟨⟨hrec, hmax⟩, h⟩, fun h => h.2⟩
    · refine iff_of_false (fun h => ?_) fun h => hrec h.1.1
      obtain ⟨t', t₁, ht₁, -⟩ := h
      exact hrec (recordOk_of_ok ht₁)

theorem counter_iff {n : ℕ} : (∀ k < n, (k : ℤ) ≠ INT_MAX) ↔ (n : ℤ) ≤ INT_MAX := by
  constructor
  · intro h
    by_contra hlt
    have hmax : (INT_MAX.toNat : ℤ) = INT_MAX := by decide
    exact h INT_MAX.toNat (by omega) hmax
  · intro h k hk
    omega

theorem mountPathCells_eq (h : (count : ℤ) ≤ INT_MAX) : mountPathCells count = count := by
  unfold INT_MAX at h
  have hsmall : count * 8 % 2 ^ 64 = count * 8 := Nat.mod_eq_of_lt (by omega)
  rw [mountPathCells, hsmall, if_pos (by omega), Nat.mul_div_cancel _ (by decide)]

theorem restoreMounts_start_iff {r : List ℕ × ℕ} :
    restoreMounts mem (mountPathCells count) count [] 8 = .ok r ↔
      (count : ℤ) ≤ INT_MAX ∧ (∀ i < count, (mountPtr mem 8 i + 8) % 2 ^ 64 + 8 ≤ mem.length) ∧
        r = (mountPaths mem count, mountPtr mem 8 count) := by
  rw [restoreMounts_ok_iff]
  simp only [List.length_nil, Nat.zero_add, List.nil_append]
  constructor
  · rintro ⟨hall, hr⟩
    exact ⟨counter_iff.mp fun i hi => (hall i hi).2.2, fun i hi => (hall i hi).2.1, hr⟩
  · rintro ⟨hle, hin, hr⟩
    refine ⟨fun i hi => ⟨?_, hin i hi, counter_iff.mpr hle i hi⟩, hr⟩
    rw [mountPathCells_eq hle]
    exact hi

/-- A restore from any file, into any table the library can have, returns without leaving
the mapped bytes, the array of paths or the table exactly for an empty file and for the
files that `Restorable` describes. -/
theorem restore_inside_iff (mounts : List MountPointData) (file : List UInt8)
    (t : FileHandleTable) (hs : Sound t) :
    (∃ t', restoreFileHandlesFromSharedSpace mounts (mappedBytes file) t = .ok t') ↔
      file = [] ∨ Restorable mounts file := by
  by_cases hempty : file = []
  · subst hempty
    exact iff_of_true ⟨t, rfl⟩ (Or.inl rfl)
  · rw [mappedBytes, if_neg hempty, or_iff_right hempty]
    simp only [restoreFileHandlesFromSharedSpace, bind_ok_iff, load64_ok_iff]
    constructor
    · rintro ⟨t', count, ⟨hin, rfl⟩, ⟨paths, ptr⟩, hmounts, fileCount, ⟨hfin, rfl⟩, hfiles⟩
      obtain ⟨hle, hall, hr⟩ := restoreMounts_start_iff.mp hmounts
      obtain ⟨rfl, rfl⟩ := Prod.mk.inj hr
      have hrecs := (restoreFiles_ok_iff hs).mp ⟨t', hfiles⟩
      simp only [Nat.zero_add] at hrecs
      exact ⟨by omega, hle, hall, hfin, counter_iff.mp fun k hk => (hrecs k hk).2,
        fun k hk => (hrecs k hk).1⟩
    · intro h
      have hrecs : ∀ k < wordAt file (mountPtr file 8 (wordAt file 0)),
          RecordOk mounts file (wordAt file 0)
            (recordPtr ((mountPtr file 8 (wordAt file 0) + 8) % 2 ^ 64) k) ∧
          ((0 + k : ℕ) : ℤ) ≠ INT_MAX := by
        intro k hk
        rw [Nat.zero_add]
        exact ⟨h.records k hk, counter_iff.mpr h.files_le k hk⟩
      obtain ⟨t', ht'⟩ := (restoreFiles_ok_iff hs).mpr hrecs
      have hcount := h.count_inside
      exact ⟨t', _, ⟨by omega, rfl⟩, _,
        restoreMounts_start_iff.mpr ⟨h.count_le, h.mounts_inside, rfl⟩, _, ⟨h.files_inside, rfl⟩,
        ht'⟩

/-- One mount record for `/` and one file record, for descriptor 5. -/
def smallFile : List UInt8 :=
  leBytes 8 1 ++ (leBytes 8 0 ++ leBytes 8 2 ++ [0x2f, 0]) ++ leBytes 8 1 ++
    (leBytes 8 9 ++ leBytes 8 5 ++ leBytes 8 0)

theorem smallFile_restorable : Restorable [⟨0, [0x2f], [], []⟩] smallFile where
  count_inside := by decide +kernel
  count_le := by decide +kernel
  mounts_inside := by decide +kernel
  files_inside := by decide +kernel
  files_le := by decide +kernel
  records := by
    intro k hk
    have hone : wordAt smallFile (mountPtr smallFile 8 (wordAt smallFile 0)) = 1 := by
      decide +kernel
    obtain rfl : k = 0 := by omega
    exact ⟨by decide +kernel, fun _ => ⟨[0x2f], by decide +kernel, fun _ => by decide +kernel⟩⟩

theorem restore_inside_small : ∃ t', restoreFileHandlesFromSharedSpace [⟨0, [0x2f], [], []⟩]
    (mappedBytes smallFile) zeroed = .ok t' :=
  (restore_inside_iff _ smallFile zeroed zeroed_sound).mpr (Or.inr smallFile_restorable)

/-- A file of 8 bytes that announces one mount record: its length is read behind the end. -/
theorem restore_outside_short :
    restoreFileHandlesFromSharedSpace [⟨0, [0x2f], [], []⟩] (mappedBytes (leBytes 8 1)) zeroed =
      .error .outOfBounds := by
  have hload : load64 (leBytes 8 1) 0 = .ok 1 := by decide +kernel
  have hmounts : restoreMounts (leBytes 8 1) (mountPathCells 1) 1 [] 8 = .error .outOfBounds := by
    decide +kernel
  show restoreFileHandlesFromSharedSpace _ (some (leBytes 8 1)) zeroed = _
  rw [restoreFileHandlesFromSharedSpace, hload, ok_bind, hmounts, error_bind]

end Defuse
