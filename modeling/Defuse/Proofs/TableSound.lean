import Defuse.Lib.Counting
import Defuse.Lib.Runs
import Defuse.Spec.FileHandles

/-! No call with descriptors in range makes the table code fault. The counter is
the number of tracked descriptors, so it has room whenever one is untracked, and a
record is counted at least once for every entry that points to it, so no entry
points to a freed record. Neither fact needs the dense list to be right. -/

namespace Defuse

open CSem

theorem exists_fin {fd : ℤ} (h : 0 ≤ fd ∧ fd < MAX_FILES) : ∃ i : Fin MAX_FILES, fd = i := by
  obtain ⟨i, hi⟩ := index_isOk_iff.mpr h
  exact ⟨i, index_ok_iff.mp hi⟩

namespace FileHandleTable

def refs (t : FileHandleTable) (p : RecPtr) : ℕ := cells (· = some p) t.fileHandles

def tracked (t : FileHandleTable) : ℕ := cells (· ≠ none) t.fileHandles

/-- `t` after `link_file_descriptor` for `i`, with `n` the first free position. -/
def linked (t : FileHandleTable) (i n : Fin MAX_FILES) : FileHandleTable :=
  { t with
    usePosition := Function.update t.usePosition i n
    usedFileDescriptors := Function.update t.usedFileDescriptors n i
    usedFileDescriptorPos := t.usedFileDescriptorPos + 1 }

/-- `t` after `unlink_file_descriptor` for `i`, when `i` is the only entry. -/
def unlinkedOnly (t : FileHandleTable) (i : Fin MAX_FILES) : FileHandleTable :=
  { t with
    usedFileDescriptorPos := t.usedFileDescriptorPos - 1
    fileHandles := Function.update t.fileHandles i none }

/-- `t` after `unlink_file_descriptor` for `i` at position `p`, with `l` the last position. -/
def unlinked (t : FileHandleTable) (i p l : Fin MAX_FILES) : FileHandleTable :=
  { t with
    usedFileDescriptors := Function.update t.usedFileDescriptors p l
    usePosition := Function.update t.usePosition l (t.usePosition i)
    usedFileDescriptorPos := t.usedFileDescriptorPos - 1
    fileHandles := Function.update t.fileHandles i none }

def setRec (t : FileHandleTable) (p : RecPtr) (r : Option FileHandleDataInternal) :
    FileHandleTable :=
  { t with heap := Function.update t.heap p r }

/-- What holds after any calls with descriptors in range. -/
structure Sound (t : FileHandleTable) : Prop where
  counted : ∀ i p, t.fileHandles i = some p →
    ∃ r, t.heap p = some r ∧ (t.refs p : ℤ) ≤ r.useCount
  fresh : ∀ p, t.nextRec ≤ p → t.heap p = none
  positions : ∀ i, 0 ≤ t.usePosition i ∧ t.usePosition i < MAX_FILES
  pos_eq : t.usedFileDescriptorPos = t.tracked

theorem zeroed_sound : Sound zeroed where
  counted := by intro i p h; simp [zeroed] at h
  fresh := fun _ _ => rfl
  positions := by intro i; simp [zeroed, MAX_FILES]
  pos_eq := by
    have h : zeroed.tracked = 0 := (cells_eq_zero_iff _ _).mpr (by simp [zeroed])
    rw [h]
    rfl

variable {t : FileHandleTable} {i j : Fin MAX_FILES} {p : RecPtr}

theorem refs_pos (h : t.fileHandles i = some p) : 0 < t.refs p :=
  (cells_pos_iff _ _).mpr ⟨i, h⟩

theorem refs_eq_one_iff (h : t.fileHandles i = some p) :
    t.refs p = 1 ↔ ∀ j, t.fileHandles j = some p → j = i :=
  cells_eq_one_iff (· = some p) t.fileHandles h

theorem Sound.live (h : Sound t) (hi : t.fileHandles i = some p) :
    ∃ r, t.heap p = some r ∧ 0 < r.useCount ∧ (t.refs p : ℤ) ≤ r.useCount := by
  obtain ⟨r, hr, hc⟩ := h.counted i p hi
  have := refs_pos hi
  exact ⟨r, hr, by omega, hc⟩

theorem Sound.ptr_lt (h : Sound t) (hi : t.fileHandles i = some p) : p < t.nextRec := by
  obtain ⟨r, hr, -⟩ := h.live hi
  by_contra hlt
  rw [h.fresh p (not_lt.mp hlt)] at hr
  cases hr

theorem Sound.room (h : Sound t) (hi : t.fileHandles i = none) :
    ∃ n : Fin MAX_FILES, t.usedFileDescriptorPos = n := by
  have hlt : t.tracked < MAX_FILES := by
    have h := cells_lt_card (· ≠ none) t.fileHandles i (by simp [hi])
    rw [Fintype.card_fin] at h
    unfold tracked
    exact h
  exact ⟨⟨t.tracked, hlt⟩, by rw [h.pos_eq]⟩

theorem Sound.pos_pos (h : Sound t) (hi : t.fileHandles i = some p) :
    1 ≤ t.usedFileDescriptorPos := by
  have : 0 < t.tracked := (cells_pos_iff _ _).mpr ⟨i, by simp [hi]⟩
  rw [h.pos_eq]
  omega

theorem Sound.pos_le (h : Sound t) : t.usedFileDescriptorPos ≤ MAX_FILES := by
  have hle := cells_le_card (· ≠ none) t.fileHandles
  rw [Fintype.card_fin] at hle
  rw [h.pos_eq]
  exact_mod_cast hle

theorem useCount_none : t.fileHandleUseCountInternal none = .ok 0 := rfl

theorem useCount_some {r : FileHandleDataInternal} (hr : t.heap p = some r) :
    t.fileHandleUseCountInternal (some p) = .ok r.useCount := by
  simp [fileHandleUseCountInternal, deref, hr]

theorem addUseCount_eq {r : FileHandleDataInternal} (hr : t.heap p = some r) (d : ℤ) :
    t.addUseCount p d = .ok (t.setRec p (some { r with useCount := r.useCount + d })) := by
  simp [addUseCount, deref, hr, setRec]

theorem link_eq {n : Fin MAX_FILES} (hn : t.usedFileDescriptorPos = n) :
    t.linkFileDescriptor i = .ok (t.linked i n) := by
  simp [linkFileDescriptor, hn, linked]

theorem unlink_only (h1 : t.usedFileDescriptorPos ≤ 1) :
    t.unlinkFileDescriptor i = .ok (t.unlinkedOnly i) := by
  simp [unlinkFileDescriptor, show ¬ t.usedFileDescriptorPos > 1 by omega, unlinkedOnly]

theorem unlink_eq {l q : Fin MAX_FILES} (h1 : 1 < t.usedFileDescriptorPos)
    (hl : t.usedFileDescriptorPos - 1 = l) (hq : t.usePosition i = q) :
    t.unlinkFileDescriptor i = .ok (t.unlinked i q l) := by
  simp [unlinkFileDescriptor, show t.usedFileDescriptorPos > 1 by omega, hl, hq, unlinked]

private theorem not_ge (i : Fin MAX_FILES) : ¬ ((i : ℤ) ≥ MAX_FILES) := by
  have := i.isLt
  omega

/-- `t` after a successful insertion at `i`. -/
def inserted (t : FileHandleTable) (i n : Fin MAX_FILES) (fhd : FileHandleData) : FileHandleTable :=
  linked { t with
    fileHandles := Function.update t.fileHandles i (some t.nextRec)
    heap := Function.update t.heap t.nextRec (some ⟨fhd, 1⟩)
    nextRec := t.nextRec + 1 } i n

theorem insert_tracked (h : Sound t) (hi : t.fileHandles i = some p) (fhd : FileHandleData) :
    t.insertFileHandle i fhd = .ok (EEXIST, t) := by
  obtain ⟨r, hr, hpos, -⟩ := h.live hi
  simp only [insertFileHandle, not_ge, if_false, index_val, ok_bind, hi, useCount_some hr]
  simp [hpos]

theorem insert_untracked {n : Fin MAX_FILES} (hi : t.fileHandles i = none)
    (hn : t.usedFileDescriptorPos = n) (fhd : FileHandleData) :
    t.insertFileHandle i fhd = .ok (0, t.inserted i n fhd) := by
  simp only [insertFileHandle, not_ge, if_false, index_val, ok_bind, hi, useCount_none]
  simp only [allocateFileHandle, setFileHandle, gt_iff_lt, lt_irrefl, if_false]
  rw [addUseCount_eq (r := ⟨fhd, 0⟩) (by simp)]
  simp only [ok_bind, setRec, Function.update_idem]
  rw [link_eq (by exact hn)]
  simp [inserted]

theorem exists_untracked (hi : t.fileHandles i = none) : t.fileHandleExists i = .ok false := by
  simp only [fileHandleExists, not_ge, if_false, index_val, ok_bind, hi, useCount_none]
  simp

def dropUse (t : FileHandleTable) (p : RecPtr) (r : FileHandleDataInternal) : FileHandleTable :=
  t.setRec p (if r.useCount = 1 then none else some { r with useCount := r.useCount - 1 })

theorem remove_untracked (hi : t.fileHandles i = none) :
    t.removeFileHandle i = .ok (ENOENT, t) := by
  simp only [removeFileHandle, not_ge, if_false, index_val, ok_bind, hi, useCount_none]
  simp

theorem remove_tracked {r : FileHandleDataInternal} (hi : t.fileHandles i = some p)
    (hr : t.heap p = some r) (hpos : 0 < r.useCount) :
    t.removeFileHandle i =
      (t.dropUse p r).unlinkFileDescriptor i >>= fun t' => .ok (0, t') := by
  simp only [removeFileHandle, not_ge, if_false, index_val, ok_bind, hi, useCount_some hr,
    show ¬ r.useCount = 0 by omega]
  rw [addUseCount_eq hr]
  have hd : (t.setRec p (some { r with useCount := r.useCount + -1 })).deref p =
      .ok { r with useCount := r.useCount + -1 } := by
    simp [deref, setRec]
  simp only [ok_bind, hd, pure_eq_ok]
  by_cases h1 : r.useCount = 1
  · simp [h1, dropUse, free, setRec]
  · simp [dropUse, setRec, h1, show ¬ r.useCount + -1 = 0 by omega, sub_eq_add_neg]

theorem duplicate_untracked (hi : t.fileHandles i = none) :
    t.duplicateFileHandle i j = .ok (0, t.fileHandles j, t) := by
  simp only [duplicateFileHandle, not_ge, or_self, if_false, index_val, ok_bind, hi, useCount_none]
  simp

/-- `t` after `j` has been made to share the record of `i`, before any linking. -/
def shared (t : FileHandleTable) (j : Fin MAX_FILES) (p : RecPtr) (r : FileHandleDataInternal) :
    FileHandleTable :=
  (t.setFileHandle j (some p)).setRec p (some { r with useCount := r.useCount + 1 })

theorem duplicate_tracked {r : FileHandleDataInternal} (hi : t.fileHandles i = some p)
    (hr : t.heap p = some r) (hpos : 0 < r.useCount) :
    t.duplicateFileHandle i j =
      if t.fileHandles j = none then
        (t.shared j p r).linkFileDescriptor j >>= fun t' => .ok (0, t.fileHandles j, t')
      else .ok (0, t.fileHandles j, t.shared j p r) := by
  have hq : (t.setFileHandle j (some p)).fileHandles i = some p := by
    by_cases hij : i = j
    · subst hij; simp [setFileHandle]
    · simp [setFileHandle, Function.update_of_ne hij, hi]
  simp only [duplicateFileHandle, not_ge, or_self, if_false, index_val, ok_bind, hi, hq,
    useCount_some hr, gt_iff_lt, hpos, if_true]
  rw [addUseCount_eq (r := r) (by exact hr)]
  simp only [ok_bind, pure_eq_ok, shared]

/-! One store into `file_handles` moves at most one reference. -/

theorem refs_set {t' : FileHandleTable} {v : Option RecPtr}
    (h : t'.fileHandles = Function.update t.fileHandles i v) (q : RecPtr) :
    t'.refs q + (if t.fileHandles i = some q then 1 else 0) =
      t.refs q + (if v = some q then 1 else 0) := by
  unfold refs
  rw [h]
  exact cells_update (· = some q) t.fileHandles i v

theorem tracked_set {t' : FileHandleTable} {v : Option RecPtr}
    (h : t'.fileHandles = Function.update t.fileHandles i v) :
    t'.tracked + (if t.fileHandles i ≠ none then 1 else 0) =
      t.tracked + (if v ≠ none then 1 else 0) := by
  unfold tracked
  rw [h]
  exact cells_update (· ≠ none) t.fileHandles i v

theorem refs_nextRec (h : Sound t) : t.refs t.nextRec = 0 := by
  apply (cells_eq_zero_iff _ _).mpr
  intro j hj
  exact lt_irrefl _ (h.ptr_lt hj)

theorem lookup_inserted (h : Sound t) {n : Fin MAX_FILES} (fhd : FileHandleData)
    (j : Fin MAX_FILES) :
    (t.inserted i n fhd).lookup j = if j = i then some fhd else t.lookup j := by
  split_ifs with hji
  · subst hji
    simp [lookup, inserted, linked]
  · cases hj : t.fileHandles j with
    | none => simp [lookup, inserted, linked, Function.update_of_ne hji, hj]
    | some q =>
      have hq : q ≠ t.nextRec := ne_of_lt (h.ptr_lt hj)
      simp [lookup, inserted, linked, Function.update_of_ne hji, hj, Function.update_of_ne hq]

theorem inserted_sound (h : Sound t) {n : Fin MAX_FILES} (hi : t.fileHandles i = none)
    (hn : t.usedFileDescriptorPos = n) (fhd : FileHandleData) : Sound (t.inserted i n fhd) := by
  have hfh : (t.inserted i n fhd).fileHandles =
    Function.update t.fileHandles i (some t.nextRec) := rfl
  refine ⟨?_, ?_, ?_, ?_⟩
  · intro j q hj
    have hrefs := refs_set hfh q
    rw [hfh] at hj
    by_cases hji : j = i
    · subst hji
      rw [Function.update_self] at hj
      obtain rfl := Option.some.inj hj
      refine ⟨⟨fhd, 1⟩, by simp [inserted, linked], ?_⟩
      simp only [hi, refs_nextRec h, reduceCtorEq, if_false, if_true] at hrefs ⊢
      omega
    · rw [Function.update_of_ne hji] at hj
      have hne : q ≠ t.nextRec := (h.ptr_lt hj).ne
      obtain ⟨r, hr, hc⟩ := h.counted j q hj
      refine ⟨r, by simp [inserted, linked, Function.update_of_ne hne, hr], ?_⟩
      simp only [hi, reduceCtorEq, if_false, Option.some.injEq, hne.symm] at hrefs
      omega
  · intro q hq
    have hlt : t.nextRec < q := hq
    simp only [inserted, linked, Function.update_of_ne hlt.ne']
    exact h.fresh q hlt.le
  · intro j
    by_cases hji : j = i
    · subst hji
      simp [inserted, linked]
    · simp only [inserted, linked, Function.update_of_ne hji]
      exact h.positions j
  · have ht := tracked_set hfh
    simp only [hi, ne_eq, not_true_eq_false, if_false, reduceCtorEq, not_false_eq_true,
      if_true] at ht
    have hp := h.pos_eq
    simp only [inserted, linked] at ht ⊢
    omega

/-- Dropping the entry of `i` together with one use of its record keeps the table
sound, whatever is done to the list of used descriptors. -/
theorem Sound.drop (h : Sound t) {r : FileHandleDataInternal} (hi : t.fileHandles i = some p)
    (hr : t.heap p = some r) {t' : FileHandleTable}
    (hfh : t'.fileHandles = Function.update t.fileHandles i none)
    (hheap : t'.heap = (t.dropUse p r).heap) (hnext : t'.nextRec = t.nextRec)
    (hup : ∀ j, 0 ≤ t'.usePosition j ∧ t'.usePosition j < MAX_FILES)
    (hpos : t'.usedFileDescriptorPos = t.usedFileDescriptorPos - 1) : Sound t' := by
  refine ⟨?_, ?_, hup, ?_⟩
  · intro j q hj
    have hrefs := refs_set hfh q
    have hji : j ≠ i := by
      rintro rfl
      simp [hfh] at hj
    rw [hfh, Function.update_of_ne hji] at hj
    obtain ⟨r', hr', hc⟩ := h.counted j q hj
    have hcnt : 0 < t'.refs q := refs_pos (i := j) (by rw [hfh, Function.update_of_ne hji, hj])
    by_cases hqp : q = p
    · subst hqp
      obtain rfl : r = r' := Option.some.inj (hr.symm.trans hr')
      simp only [hi, if_true, reduceCtorEq, if_false] at hrefs
      refine ⟨{ r with useCount := r.useCount - 1 }, ?_, ?_⟩
      · rw [hheap]
        simp only [dropUse, setRec, Function.update_self, ite_eq_right_iff, reduceCtorEq]
        omega
      · simp only
        omega
    · refine ⟨r', by simp [hheap, dropUse, setRec, Function.update_of_ne hqp, hr'], ?_⟩
      simp only [hi, Option.some.injEq, Ne.symm hqp, reduceCtorEq, if_false] at hrefs
      omega
  · intro q hq
    rw [hnext] at hq
    have hne : q ≠ p := fun e => absurd (h.ptr_lt hi) (by rw [← e]; exact not_lt.mpr hq)
    rw [hheap]
    simp only [dropUse, setRec, Function.update_of_ne hne]
    exact h.fresh q hq
  · have ht := tracked_set hfh
    simp only [hi, ne_eq, not_true_eq_false, if_false, reduceCtorEq, not_false_eq_true,
      if_true] at ht
    rw [hpos, h.pos_eq]
    omega

theorem remove_cases (h : Sound t) (hi : t.fileHandles i = some p) :
    ∃ r, t.heap p = some r ∧
      ((t.usedFileDescriptorPos = 1 ∧
          t.removeFileHandle i = .ok (0, (t.dropUse p r).unlinkedOnly i)) ∨
        ∃ l q : Fin MAX_FILES, 1 < t.usedFileDescriptorPos ∧ t.usedFileDescriptorPos - 1 = l ∧
          t.usePosition i = q ∧
          t.removeFileHandle i = .ok (0, (t.dropUse p r).unlinked i q l)) := by
  obtain ⟨r, hr, hpos, -⟩ := h.live hi
  have h1 := h.pos_pos hi
  have hle := h.pos_le
  refine ⟨r, hr, ?_⟩
  rw [remove_tracked hi hr hpos]
  by_cases hone : t.usedFileDescriptorPos ≤ 1
  · left
    exact ⟨by omega, by rw [unlink_only (by exact hone), ok_bind]⟩
  · right
    obtain ⟨l, hl⟩ : ∃ l : Fin MAX_FILES, t.usedFileDescriptorPos - 1 = l :=
      exists_fin ⟨by omega, by omega⟩
    obtain ⟨q, hq⟩ := exists_fin (h.positions i)
    refine ⟨l, q, by omega, hl, hq, ?_⟩
    rw [unlink_eq (t := t.dropUse p r) (by show 1 < t.usedFileDescriptorPos; omega) hl hq, ok_bind]

theorem remove_entries (h : Sound t) (hi : t.fileHandles i = some p) {rv : ℤ}
    (heq : t.removeFileHandle i = .ok (rv, t')) :
    ∃ r, t.heap p = some r ∧ rv = 0 ∧ t'.nextRec = t.nextRec ∧
      t'.fileHandles = Function.update t.fileHandles i none ∧
      t'.heap = (t.dropUse p r).heap := by
  obtain ⟨r, hr, ⟨-, hrem⟩ | ⟨l, q, -, -, -, hrem⟩⟩ := remove_cases h hi
  · rw [hrem] at heq
    cases heq
    exact ⟨r, hr, rfl, rfl, rfl, rfl⟩
  · rw [hrem] at heq
    cases heq
    exact ⟨r, hr, rfl, rfl, rfl, rfl⟩

theorem remove_sound (h : Sound t) (i : Fin MAX_FILES) :
    ∃ rv t', t.removeFileHandle i = .ok (rv, t') ∧ Sound t' := by
  cases hi : t.fileHandles i with
  | none => exact ⟨_, _, remove_untracked hi, h⟩
  | some p =>
    obtain ⟨r, hr, ⟨-, heq⟩ | ⟨l, q, -, -, hq, heq⟩⟩ := remove_cases h hi
    · exact ⟨_, _, heq, h.drop hi hr rfl rfl rfl h.positions rfl⟩
    · refine ⟨_, _, heq, h.drop hi hr rfl rfl rfl ?_ rfl⟩
      intro j
      by_cases hj : j = l
      · subst hj
        simp only [unlinked, Function.update_self]
        exact h.positions i
      · simp only [unlinked, Function.update_of_ne hj]
        exact h.positions j

theorem insert_sound (h : Sound t) (i : Fin MAX_FILES) (fhd : FileHandleData) :
    ∃ rv t', t.insertFileHandle i fhd = .ok (rv, t') ∧ Sound t' := by
  cases hi : t.fileHandles i with
  | none =>
    obtain ⟨n, hn⟩ := h.room hi
    exact ⟨_, _, insert_untracked hi hn fhd, inserted_sound h hi hn fhd⟩
  | some p => exact ⟨_, _, insert_tracked h hi fhd, h⟩

/-- Making `j` share the record of `i` keeps every count at least as large as the
number of its references: the new one is counted, the overwritten one need not be. -/
theorem Sound.share (h : Sound t) {r : FileHandleDataInternal} (hi : t.fileHandles i = some p)
    (hr : t.heap p = some r) (j : Fin MAX_FILES) {t' : FileHandleTable}
    (hfh : t'.fileHandles = Function.update t.fileHandles j (some p))
    (hheap : t'.heap = (t.shared j p r).heap) (hnext : t'.nextRec = t.nextRec)
    (hup : ∀ k, 0 ≤ t'.usePosition k ∧ t'.usePosition k < MAX_FILES)
    (hpos : t'.usedFileDescriptorPos =
      t.usedFileDescriptorPos + if t.fileHandles j = none then 1 else 0) : Sound t' := by
  refine ⟨?_, ?_, hup, ?_⟩
  · intro k q hk
    have hrefs := refs_set hfh q
    by_cases hqp : q = p
    · subst hqp
      obtain ⟨r', hr', hc⟩ := h.counted i q hi
      obtain rfl : r = r' := Option.some.inj (hr.symm.trans hr')
      refine ⟨{ r with useCount := r.useCount + 1 }, by simp [hheap, shared, setRec], ?_⟩
      simp only [if_true] at hrefs ⊢
      split_ifs at hrefs <;> omega
    · have hold : t.fileHandles k = some q := by
        rw [hfh] at hk
        by_cases hkj : k = j
        · subst hkj
          rw [Function.update_self] at hk
          exact absurd (Option.some.inj hk).symm hqp
        · rwa [Function.update_of_ne hkj] at hk
      obtain ⟨r', hr', hc⟩ := h.counted k q hold
      refine ⟨r', ?_, ?_⟩
      · rw [hheap]
        simpa [shared, setRec, setFileHandle, Function.update_of_ne hqp] using hr'
      · simp only [Option.some.injEq, Ne.symm hqp, if_false] at hrefs
        split_ifs at hrefs <;> omega
  · intro q hq
    rw [hnext] at hq
    have hne : q ≠ p := fun e => absurd (h.ptr_lt hi) (by rw [← e]; exact not_lt.mpr hq)
    rw [hheap]
    simp only [shared, setRec, setFileHandle, Function.update_of_ne hne]
    exact h.fresh q hq
  · have ht := tracked_set hfh
    rw [hpos, h.pos_eq]
    by_cases hj : t.fileHandles j = none
    · simp only [hj, ne_eq, not_true_eq_false, if_false, reduceCtorEq, not_false_eq_true,
        if_true] at ht ⊢
      omega
    · simp only [hj, ne_eq, not_false_eq_true, if_true, if_false, reduceCtorEq] at ht ⊢
      omega

theorem duplicate_cases (h : Sound t) (hi : t.fileHandles i = some p) (j : Fin MAX_FILES) :
    ∃ r, t.heap p = some r ∧
      ((∃ n : Fin MAX_FILES, t.fileHandles j = none ∧ t.usedFileDescriptorPos = n ∧
          t.duplicateFileHandle i j = .ok (0, none, (t.shared j p r).linked j n)) ∨
        (t.fileHandles j ≠ none ∧
          t.duplicateFileHandle i j = .ok (0, t.fileHandles j, t.shared j p r))) := by
  obtain ⟨r, hr, hpos, -⟩ := h.live hi
  refine ⟨r, hr, ?_⟩
  rw [duplicate_tracked hi hr hpos]
  by_cases hj : t.fileHandles j = none
  · left
    obtain ⟨n, hn⟩ := h.room hj
    refine ⟨n, hj, hn, ?_⟩
    rw [if_pos hj, link_eq (by exact hn), ok_bind, hj]
  · right
    exact ⟨hj, by rw [if_neg hj]⟩

/-- What a duplicate of a tracked descriptor does to the entries and the records, whether its
target was free or not. -/
theorem duplicate_entries (h : Sound t) (hi : t.fileHandles i = some p) {rv : ℤ}
    {old : Option RecPtr} (heq : t.duplicateFileHandle i j = .ok (rv, old, t')) :
    ∃ r, t.heap p = some r ∧ rv = 0 ∧ old = t.fileHandles j ∧ t'.nextRec = t.nextRec ∧
      t'.fileHandles = Function.update t.fileHandles j (some p) ∧
      t'.heap = (t.shared j p r).heap := by
  obtain ⟨r, hr, ⟨n, hj, -, hdup⟩ | ⟨-, hdup⟩⟩ := duplicate_cases h hi j
  · rw [hdup] at heq
    cases heq
    exact ⟨r, hr, rfl, hj.symm, rfl, rfl, rfl⟩
  · rw [hdup] at heq
    cases heq
    exact ⟨r, hr, rfl, rfl, rfl, rfl, rfl⟩

theorem shared_data {r : FileHandleDataInternal} (hr : t.heap p = some r) (j : Fin MAX_FILES)
    (q : RecPtr) : ((t.shared j p r).heap q).map (·.fData) = (t.heap q).map (·.fData) := by
  by_cases hq : q = p
  · subst hq
    simp [shared, setRec, setFileHandle, hr]
  · simp [shared, setRec, setFileHandle, Function.update_of_ne hq]

theorem duplicate_sound (h : Sound t) (i j : Fin MAX_FILES) :
    ∃ rv old t', t.duplicateFileHandle i j = .ok (rv, old, t') ∧ Sound t' := by
  cases hi : t.fileHandles i with
  | none => exact ⟨_, _, _, duplicate_untracked hi, h⟩
  | some p =>
    obtain ⟨r, hr, ⟨n, hj, hn, heq⟩ | ⟨hj, heq⟩⟩ := duplicate_cases h hi j
    · refine ⟨_, _, _, heq, h.share hi hr j rfl rfl rfl ?_ (by rw [if_pos hj]; rfl)⟩
      intro k
      by_cases hk : k = j
      · subst hk
        simp [linked]
      · simp only [linked, Function.update_of_ne hk]
        exact h.positions k
    · refine ⟨_, _, _, heq, h.share hi hr j rfl rfl rfl h.positions ?_⟩
      simp [hj, shared, setRec, setFileHandle]

end FileHandleTable

open FileHandleTable

theorem exec_sound {t : FileHandleTable} (h : Sound t) (c : Call) (hc : c.InRange) :
    ∃ t', c.exec t = .ok t' ∧ Sound t' := by
  cases c with
  | insert fd fhd =>
    obtain ⟨i, rfl⟩ := exists_fin hc
    obtain ⟨rv, t', heq, ht'⟩ := insert_sound h i fhd
    exact ⟨t', by simp [Call.exec, heq], ht'⟩
  | remove fd =>
    obtain ⟨i, rfl⟩ := exists_fin hc
    obtain ⟨rv, t', heq, ht'⟩ := remove_sound h i
    exact ⟨t', by simp [Call.exec, heq], ht'⟩
  | duplicate fd1 fd2 =>
    obtain ⟨i, rfl⟩ := exists_fin hc.1
    obtain ⟨j, rfl⟩ := exists_fin hc.2
    obtain ⟨rv, old, t', heq, ht'⟩ := duplicate_sound h i j
    exact ⟨t', by simp [Call.exec, heq], ht'⟩

theorem exec_cases {t t' : FileHandleTable} {c : Call} (hc : c.InRange) (heq : c.exec t = .ok t') :
    (∃ (i : Fin MAX_FILES) (fhd : FileHandleData) (rv : ℤ), c = .insert i fhd ∧
      t.insertFileHandle i fhd = .ok (rv, t')) ∨
    (∃ (i : Fin MAX_FILES) (rv : ℤ), c = .remove i ∧ t.removeFileHandle i = .ok (rv, t')) ∨
    ∃ (i j : Fin MAX_FILES) (rv : ℤ) (old : Option RecPtr), c = .duplicate i j ∧
      t.duplicateFileHandle i j = .ok (rv, old, t') := by
  cases c with
  | insert fd fhd =>
    obtain ⟨i, rfl⟩ := exists_fin hc
    simp only [Call.exec, bind_ok_iff, pure_eq_ok, Except.ok.injEq] at heq
    obtain ⟨⟨rv, t₁⟩, hins, rfl⟩ := heq
    exact Or.inl ⟨i, fhd, rv, rfl, hins⟩
  | remove fd =>
    obtain ⟨i, rfl⟩ := exists_fin hc
    simp only [Call.exec, bind_ok_iff, pure_eq_ok, Except.ok.injEq] at heq
    obtain ⟨⟨rv, t₁⟩, hrem, rfl⟩ := heq
    exact Or.inr (Or.inl ⟨i, rv, rfl, hrem⟩)
  | duplicate fd1 fd2 =>
    obtain ⟨i, rfl⟩ := exists_fin hc.1
    obtain ⟨j, rfl⟩ := exists_fin hc.2
    simp only [Call.exec, bind_ok_iff, pure_eq_ok, Except.ok.injEq] at heq
    obtain ⟨⟨rv, old, t₁⟩, hdup, rfl⟩ := heq
    exact Or.inr (Or.inr ⟨i, j, rv, old, rfl, hdup⟩)

theorem calls_sound (cs : List Call) (hcs : ∀ c ∈ cs, c.InRange) :
    ∃ t, run Call.exec zeroed cs = .ok t ∧ Sound t :=
  run_invariant Sound Call.InRange (fun _ c ht hc => exec_sound ht c hc) zeroed_sound cs hcs

end Defuse
