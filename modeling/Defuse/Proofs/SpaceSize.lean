import Defuse.Proofs.SaveRestore
import Mathlib.Data.Int.ModEq

/-! The size that `save_file_handles_to_shared_space` asks for against the bytes it
writes. Both are sums over the mounts and the descriptors, but only the writing counts the
terminators of the paths, and the conversions to `int` on the way change neither side
modulo `2 ^ 32`. -/

namespace Defuse

open CSem FileHandleTable

theorem asInt_modEq (n : ℤ) : asInt n ≡ n [ZMOD 2 ^ 32] := Int.bmod_emod

theorem asU64_modEq (n : ℤ) : (asU64 n : ℤ) ≡ n [ZMOD 2 ^ 32] := by
  unfold asU64 Int.ModEq
  omega

theorem asInt_le_self {n : ℤ} (h : 0 ≤ n) : asInt n ≤ n := by
  unfold asInt
  rw [Int.bmod_def]
  split_ifs <;> omega

variable {mounts : List MountPointData} {t : FileHandleTable} {bytes : List UInt8}

theorem saveMount_modEq {mp : MountPointData} (h : saveMount mp = .ok bytes) :
    (bytes.length : ℤ) ≡ 16 + mp.mountPath.length + 1 [ZMOD 2 ^ 32] := by
  unfold saveMount at h
  simp only at h
  split_ifs at h with hmax hneg
  obtain rfl := Except.ok.inj h
  have hle := asInt_le_self (n := mp.mountPath.length) (by omega)
  have hmod := asInt_modEq mp.mountPath.length
  have hlen : ((leBytes 8 (asU64 mp.index) ++
      leBytes 8 (asU64 (asInt mp.mountPath.length + 1)) ++
      mp.mountPath.take (asInt mp.mountPath.length).toNat ++ [0]).length : ℤ) =
        16 + asInt mp.mountPath.length + 1 := by
    simp only [List.length_append, leBytes_length, List.length_take, List.length_singleton]
    omega
  rw [hlen]
  exact (hmod.add_left 16).add_right 1

theorem saveMounts_modEq {ms : List (List UInt8)} (h : mounts.mapM saveMount = .ok ms) :
    (ms.flatten.length : ℤ) ≡
      ((mounts.map fun mp => 16 + mp.mountPath.length).sum : ℕ) + mounts.length
        [ZMOD 2 ^ 32] := by
  induction mounts generalizing ms with
  | nil =>
    cases h
    rfl
  | cons mp mounts ih =>
    simp only [List.mapM_cons, bind_ok_iff, pure_eq_ok, Except.ok.injEq] at h
    obtain ⟨b, hb, bs, hbs, rfl⟩ := h
    have hsum := (saveMount_modEq hb).add (ih hbs)
    simp only [List.flatten_cons, List.length_append, List.map_cons, List.sum_cons,
      List.length_cons, Nat.cast_add, Nat.cast_one, Nat.cast_ofNat] at hsum ⊢
    have hassoc (a b c : ℤ) : 16 + a + 1 + (b + c) = 16 + a + b + (c + 1) := by ring
    rwa [hassoc] at hsum

theorem saveFile_length {k : ℕ} (h : saveFile mounts t k = .ok bytes) :
    bytes.length = 24 ∧ 0 < mounts.length := by
  simp only [saveFile, bind_ok_iff] at h
  obtain ⟨k', -, i, -, h⟩ := h
  cases hi : t.fileHandles i with
  | none =>
    rw [hi] at h
    cases h
  | some p =>
    rw [hi] at h
    simp only [bind_ok_iff] at h
    obtain ⟨r, -, h⟩ := h
    cases hm : mounts[r.fData.mount]? with
    | none =>
      rw [hm] at h
      cases h
    | some mp =>
      rw [hm] at h
      obtain ⟨hlt, -⟩ := List.getElem?_eq_some_iff.mp hm
      obtain rfl := Except.ok.inj h
      refine ⟨by simp, by omega⟩

theorem saveFiles_length (ks : List ℕ) {fs : List (List UInt8)}
    (h : ks.mapM (saveFile mounts t) = .ok fs) : fs.flatten.length = 24 * ks.length := by
  induction ks generalizing fs with
  | nil =>
    cases h
    rfl
  | cons k ks ih =>
    simp only [List.mapM_cons, bind_ok_iff, pure_eq_ok, Except.ok.injEq] at h
    obtain ⟨b, hb, bs, hbs, rfl⟩ := h
    rw [List.flatten_cons, List.length_append, (saveFile_length hb).1, ih hbs, List.length_cons]
    omega

theorem savedBytes_modEq (h : savedBytes mounts t = .ok bytes) (hpos : 0 < t.usedFileDescriptorPos) :
    (bytes.length : ℤ) ≡ asU64 (sharedSpaceSize mounts t) + mounts.length [ZMOD 2 ^ 32] := by
  simp only [savedBytes, bind_ok_iff, pure_eq_ok, Except.ok.injEq] at h
  obtain ⟨ms, hms, fs, hfs, rfl⟩ := h
  have hm := saveMounts_modEq hms
  have hf := saveFiles_length _ hfs
  rw [List.length_range] at hf
  have hn := asU64_modEq t.usedFileDescriptorPos
  have hsize := (asU64_modEq (sharedSpaceSize mounts t)).trans (asInt_modEq _)
  unfold mountPointFileSize at hsize
  simp only [List.length_append, leBytes_length, hf]
  unfold Int.ModEq at *
  push_cast at *
  omega

theorem saved_mounts_pos (h : savedBytes mounts t = .ok bytes) (hpos : 0 < t.usedFileDescriptorPos) :
    0 < mounts.length := by
  simp only [savedBytes, bind_ok_iff] at h
  obtain ⟨ms, -, fs, hfs, -⟩ := h
  obtain ⟨n, hn⟩ : ∃ n, t.usedFileDescriptorPos.toNat = n + 1 := ⟨_, (Nat.succ_pred (by omega)).symm⟩
  rw [hn, List.range_succ_eq_map, List.mapM_cons, bind_ok_iff] at hfs
  obtain ⟨b, hb, -⟩ := hfs
  exact (saveFile_length hb).2

/-- With a descriptor to save, the bytes written are never as many as the size asked of
`init_shared_space`. `get_all_mounts` returns the number of mounts as an `int`. -/
theorem never_fills_space (mounts : List MountPointData) (hlen : (mounts.length : ℤ) ≤ INT_MAX)
    (t : FileHandleTable) (hpos : 0 < t.usedFileDescriptorPos) :
    ¬ ∃ bytes, savedBytes mounts t = .ok bytes ∧
      bytes.length = asU64 (sharedSpaceSize mounts t) := by
  rintro ⟨bytes, hsave, heq⟩
  have hmod := savedBytes_modEq hsave hpos
  have hm := saved_mounts_pos hsave hpos
  rw [heq] at hmod
  unfold Int.ModEq at hmod
  unfold INT_MAX at hlen
  omega

/-- One descriptor on `/mnt/a`, with `/mnt/ab` mounted too. -/
theorem never_fills_nested :
    ¬ ∃ bytes, savedBytes nestedNames (oneEntry 0) = .ok bytes ∧
      bytes.length = asU64 (sharedSpaceSize nestedNames (oneEntry 0)) :=
  never_fills_space nestedNames (by decide) (oneEntry 0) (by decide +kernel)

/-- The two paths and the descriptor take 87 bytes, and 85 are asked for. -/
theorem overfills_nested : DenseList (oneEntry 0) ∧ OnMounts nestedNames (oneEntry 0) ∧
    sharedSpaceSize nestedNames (oneEntry 0) = 85 ∧
    (savedBytes nestedNames (oneEntry 0)).map List.length = .ok 87 ∧
    saveFileHandlesToSharedSpace nestedNames (oneEntry 0)
      (some (asU64 (sharedSpaceSize nestedNames (oneEntry 0)))) = .error .outOfBounds :=
  ⟨oneEntry_dense 0, oneEntry_onMounts (by decide), by decide +kernel, by decide +kernel,
    by decide +kernel⟩

end Defuse
