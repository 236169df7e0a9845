import Defuse.Proofs.TableMap
import Defuse.Spec.Seek

/-! `lseek` on a tracked descriptor against `lseek` of Linux on a file of the size the
backend reports. The result goes through an `int`, a negative offset is not looked at
for `SEEK_DATA` and `SEEK_HOLE`, and an unknown `whence` is taken for `SEEK_SET`. -/

namespace Defuse

open CSem FileHandleTable

/-- The arguments for which the two agree. -/
def SeekFits (size current : ℕ) (offset whence : ℤ) : Prop :=
  if whence = SEEK_SET then offset ≤ INT_MAX
  else if whence = SEEK_CUR then current + offset ≤ INT_MAX ∨ current + offset > OFF_MAX
  else if whence = SEEK_END then size + offset ≤ INT_MAX
  else if whence = SEEK_DATA then offset ≥ size ∨ 0 ≤ offset ∧ offset ≤ INT_MAX
  else if whence = SEEK_HOLE then offset ≥ size ∨ 0 ≤ offset ∧ (size : ℤ) ≤ INT_MAX
  else offset < 0

instance (size current : ℕ) (offset whence : ℤ) : Decidable (SeekFits size current offset whence) := by
  unfold SeekFits
  infer_instance

variable {eover : ℤ} {current size : ℕ} {target offset whence : ℤ}

theorem throughInt_fail (e : ℤ) : (SeekResult.fail e current).throughInt = .fail e current := rfl

theorem setPos_negative (h : target < 0) : setPos eover current target = .fail EINVAL current :=
  if_pos h

theorem setPos_over (h : target > OFF_MAX) : setPos eover current target = .fail eover current := by
  rw [setPos, if_neg (by omega), if_pos h]

theorem setPos_ok (h0 : 0 ≤ target) (h : target ≤ OFF_MAX) :
    setPos eover current target = ⟨target, none, target.toNat⟩ := by
  rw [setPos, if_neg (by omega), if_neg (by omega)]

theorem asInt_eq_iff (h0 : 0 ≤ target) : asInt target = target ↔ target ≤ INT_MAX := by
  constructor
  · intro h
    rw [← h]
    exact asInt_le target
  · exact asInt_of_le h0

theorem setPos_throughInt_iff :
    (setPos eover current target).throughInt = setPos eover current target ↔
      target ≤ INT_MAX ∨ target > OFF_MAX := by
  by_cases hneg : target < 0
  · rw [setPos_negative hneg]
    refine iff_of_true (throughInt_fail _) (Or.inl ?_)
    unfold INT_MAX
    omega
  · by_cases hover : target > OFF_MAX
    · rw [setPos_over hover]
      exact iff_of_true (throughInt_fail _) (Or.inr hover)
    · have h0 : 0 ≤ target := by omega
      rw [setPos_ok h0 (by omega), SeekResult.throughInt, SeekResult.mk.injEq]
      constructor
      · intro h
        exact Or.inl ((asInt_eq_iff h0).mp h.1)
      · intro h
        exact ⟨(asInt_eq_iff h0).mpr (h.resolve_right hover), rfl, rfl⟩

theorem setPos_throughInt_ne_fail (h0 : 0 ≤ target) (h : target ≤ OFF_MAX) (e : ℤ) :
    (setPos eover current target).throughInt ≠ .fail e current := by
  rw [setPos_ok h0 h]
  intro heq
  cases congrArg SeekResult.errno heq

theorem realLseek_set (w : SeekWorld) :
    w.realLseek current offset SEEK_SET = setPos w.eover current offset := by
  rw [SeekWorld.realLseek, linuxLseek, if_pos rfl]

theorem realLseek_cur (w : SeekWorld) :
    w.realLseek current offset SEEK_CUR = setPos w.eover current (current + offset) := by
  rw [SeekWorld.realLseek, linuxLseek, if_neg (by decide), if_pos rfl]

theorem addOff_ok (h : -2 ^ 63 ≤ offset + target) (h' : offset + target ≤ OFF_MAX) :
    addOff offset target = .ok (offset + target) :=
  if_pos ⟨h, h'⟩

theorem addOff_over (h : offset + target > OFF_MAX) :
    addOff offset target = .error .intOverflow :=
  if_neg fun hand => absurd hand.2 (by omega)

/-- The arguments that the types of the call allow. -/
structure SeekDomain (size current : ℕ) (offset : ℤ) : Prop where
  size_le : size ≤ OFF_MAX
  current_le : current ≤ OFF_MAX
  offset_ge : -2 ^ 63 ≤ offset
  offset_le : offset ≤ OFF_MAX

variable {w : SeekWorld}

theorem seek_set_iff (hd : SeekDomain size current offset) :
    defuseLseek w current offset SEEK_SET = .ok (linuxLseek w.eover size current offset SEEK_SET) ↔
      SeekFits size current offset SEEK_SET := by
  have hle := hd.offset_le
  simp only [defuseLseek, SeekFits, linuxLseek, or_true, if_true, pure_eq_ok, Except.ok.injEq,
    realLseek_set, setPos_throughInt_iff]
  omega

theorem seek_cur_iff :
    defuseLseek w current offset SEEK_CUR = .ok (linuxLseek w.eover size current offset SEEK_CUR) ↔
      SeekFits size current offset SEEK_CUR := by
  have hne : SEEK_CUR ≠ SEEK_SET := by decide
  simp only [defuseLseek, SeekFits, linuxLseek, true_or, if_true, if_neg hne, pure_eq_ok,
    Except.ok.injEq, realLseek_cur, setPos_throughInt_iff]

theorem seek_end_iff (hrv : w.getattrRv = 0) (hsize : w.stSize = size)
    (hd : SeekDomain size current offset) :
    defuseLseek w current offset SEEK_END = .ok (linuxLseek w.eover size current offset SEEK_END) ↔
      SeekFits size current offset SEEK_END := by
  have hcode : defuseLseek w current offset SEEK_END =
      addOff offset size >>= fun o => .ok (setPos w.eover current o).throughInt := by
    simp [defuseLseek, SEEK_END, SEEK_SET, SEEK_CUR, SEEK_HOLE, SEEK_DATA, hrv, hsize]
    rfl
  have hspec : linuxLseek w.eover size current offset SEEK_END =
      setPos w.eover current (offset + size) := by
    rw [add_comm]
    rfl
  have hfits : SeekFits size current offset SEEK_END ↔ offset + size ≤ INT_MAX := by
    rw [add_comm]
    rfl
  have hge := hd.offset_ge
  have hmax : INT_MAX ≤ OFF_MAX := by decide
  rw [hcode, hspec, hfits]
  by_cases hover : offset + size > OFF_MAX
  · -- the sum is not an `off_t`
    rw [addOff_over hover, error_bind]
    exact iff_of_false (fun h => by cases h) (by omega)
  · rw [addOff_ok (by omega) (by omega), ok_bind, Except.ok.injEq, setPos_throughInt_iff]
    omega

/-- A seek to `target` from an offset inside the file. The code does not look whether the offset
is negative. -/
theorem seek_inside_iff (hle : target ≤ OFF_MAX)
    (hneg : offset < 0 → (setPos eover current target).throughInt ≠ .fail ENXIO current) :
    ((if offset ≥ size then .fail ENXIO current else (setPos eover current target).throughInt) =
        if offset < 0 ∨ offset ≥ size then .fail ENXIO current
          else setPos eover current target) ↔
      offset ≥ size ∨ 0 ≤ offset ∧ target ≤ INT_MAX := by
  by_cases hbig : offset ≥ size
  · rw [if_pos hbig, if_pos (Or.inr hbig)]
    exact iff_of_true rfl (Or.inl hbig)
  · rw [if_neg hbig]
    by_cases hlt : offset < 0
    · rw [if_pos (Or.inl hlt)]
      exact iff_of_false (hneg hlt) (by omega)
    · rw [if_neg (by omega), setPos_throughInt_iff]
      omega

theorem seek_data_iff (hrv : w.getattrRv = 0) (hsize : w.stSize = size)
    (hd : SeekDomain size current offset) :
    defuseLseek w current offset SEEK_DATA =
        .ok (linuxLseek w.eover size current offset SEEK_DATA) ↔
      SeekFits size current offset SEEK_DATA := by
  have hcode : defuseLseek w current offset SEEK_DATA =
      .ok (if offset ≥ size then .fail ENXIO current
        else (setPos w.eover current offset).throughInt) := by
    simp only [defuseLseek, SEEK_SET, SEEK_CUR, SEEK_HOLE, SEEK_DATA, hrv, hsize]
    split_ifs <;> first | rfl | omega
  have hspec : linuxLseek w.eover size current offset SEEK_DATA =
      if offset < 0 ∨ offset ≥ size then .fail ENXIO current
        else setPos w.eover current offset := rfl
  rw [hcode, hspec, Except.ok.injEq]
  apply seek_inside_iff hd.offset_le
  -- the kernel's EINVAL in place of ENXIO
  intro hneg h
  rw [setPos_negative hneg, throughInt_fail] at h
  have herr := Option.some.inj (congrArg SeekResult.errno h)
  exact absurd herr (by decide)

theorem seek_hole_iff (hrv : w.getattrRv = 0) (hsize : w.stSize = size)
    (hd : SeekDomain size current offset) :
    defuseLseek w current offset SEEK_HOLE =
        .ok (linuxLseek w.eover size current offset SEEK_HOLE) ↔
      SeekFits size current offset SEEK_HOLE := by
  have hcode : defuseLseek w current offset SEEK_HOLE =
      .ok (if offset ≥ size then .fail ENXIO current
        else (setPos w.eover current size).throughInt) := by
    simp only [defuseLseek, SEEK_SET, SEEK_CUR, SEEK_HOLE, hrv, hsize]
    split_ifs <;> first | rfl | omega
  have hspec : linuxLseek w.eover size current offset SEEK_HOLE =
      if offset < 0 ∨ offset ≥ size then .fail ENXIO current
        else setPos w.eover current size := rfl
  have hle := hd.size_le
  rw [hcode, hspec, Except.ok.injEq]
  apply seek_inside_iff (by omega)
  -- a negative offset is answered with the size
  intro _
  exact setPos_throughInt_ne_fail (by omega) (by omega) _

def KnownWhence (whence : ℤ) : Prop :=
  whence = SEEK_SET ∨ whence = SEEK_CUR ∨ whence = SEEK_END ∨ whence = SEEK_DATA ∨
    whence = SEEK_HOLE

theorem seek_unknown_iff (hrv : w.getattrRv = 0) (hd : SeekDomain size current offset)
    (hwh : ¬ KnownWhence whence) :
    defuseLseek w current offset whence = .ok (linuxLseek w.eover size current offset whence) ↔
      SeekFits size current offset whence := by
  simp only [KnownWhence, not_or] at hwh
  obtain ⟨h0, h1, h2, h3, h4⟩ := hwh
  have hle := hd.offset_le
  simp only [defuseLseek, linuxLseek, SeekFits, h0, h1, h2, h3, h4, or_self, if_false, hrv, ne_eq,
    not_true_eq_false, pure_eq_ok, Except.ok.injEq, realLseek_set]
  by_cases hneg : offset < 0
  · rw [setPos_negative hneg]
    exact iff_of_true (throughInt_fail _) hneg
  · exact iff_of_false (setPos_throughInt_ne_fail (by omega) hle _) hneg

/-- `lseek` on a tracked descriptor does what Linux does on a file of data of the size
that `fgetattr` reports exactly for the arguments of `SeekFits`. -/
theorem lseek_agrees_iff (t : FileHandleTable) (hs : Sound t) (i : Fin MAX_FILES)
    (hi : t.fileHandles i ≠ none) (w : SeekWorld) (hrv : w.getattrRv = 0) (size current : ℕ)
    (hsize : w.stSize = size) (offset whence : ℤ) (hd : SeekDomain size current offset) :
    lseek t w i current offset whence = .ok (linuxLseek w.eover size current offset whence) ↔
      SeekFits size current offset whence := by
  obtain ⟨q, hq⟩ := Option.ne_none_iff_exists'.mp hi
  obtain ⟨r, hr, -⟩ := hs.live hq
  have hcall : lseek t w i current offset whence = defuseLseek w current offset whence := by
    rw [lseek, find_eq hs, lookup_of_some hq hr, ok_bind]
  rw [hcall]
  by_cases hwh : KnownWhence whence
  · obtain rfl | rfl | rfl | rfl | rfl := hwh
    · exact seek_set_iff hd
    · exact seek_cur_iff
    · exact seek_end_iff hrv hsize hd
    · exact seek_data_iff hrv hsize hd
    · exact seek_hole_iff hrv hsize hd
  · exact seek_unknown_iff hrv hd hwh

def seekTable : FileHandleTable := zeroed.inserted 3 0 ⟨7, 0⟩

def seekWorld : SeekWorld := ⟨EINVAL, 0, 0, 100⟩

theorem seekTable_sound : Sound seekTable := inserted_sound zeroed_sound rfl rfl _

theorem seekTable_tracks : seekTable.fileHandles 3 ≠ none := by
  simp [seekTable, inserted, linked]

/-- Ten bytes in front of the end. -/
theorem lseek_agrees_end :
    lseek seekTable seekWorld (3 : Fin MAX_FILES) 0 (-10) SEEK_END =
      .ok (linuxLseek EINVAL 100 0 (-10) SEEK_END) :=
  (lseek_agrees_iff seekTable seekTable_sound 3 seekTable_tracks seekWorld rfl 100 0 rfl (-10)
    SEEK_END ⟨by decide, by decide, by decide, by decide⟩).mpr (by decide)

/-- Seeking to 2 GiB sets the kernel's offset and returns a negative number. -/
theorem lseek_truncates :
    lseek seekTable seekWorld (3 : Fin MAX_FILES) 0 (2 ^ 31) SEEK_SET = .ok ⟨-2 ^ 31, none, 2 ^ 31⟩ ∧
    linuxLseek EINVAL 100 0 (2 ^ 31) SEEK_SET = ⟨2 ^ 31, none, 2 ^ 31⟩ ∧
    SeekDomain 100 0 (2 ^ 31) ∧
    lseek seekTable seekWorld (3 : Fin MAX_FILES) 0 (2 ^ 31) SEEK_SET ≠
      .ok (linuxLseek EINVAL 100 0 (2 ^ 31) SEEK_SET) := by
  have hcode : lseek seekTable seekWorld (3 : Fin MAX_FILES) 0 (2 ^ 31) SEEK_SET =
      .ok ⟨-2 ^ 31, none, 2 ^ 31⟩ := by
    decide +kernel
  have hspec : linuxLseek EINVAL 100 0 (2 ^ 31) SEEK_SET = ⟨2 ^ 31, none, 2 ^ 31⟩ := by
    decide +kernel
  refine ⟨hcode, hspec, ⟨by decide, by decide, by decide, by decide⟩, ?_⟩
  rw [hcode, hspec]
  intro h
  have hvalue := congrArg SeekResult.value (Except.ok.inj h)
  exact absurd hvalue (by decide)

end Defuse
