import Defuse.Proofs.TableSound

/-! The list of used descriptors. `save_file_handles_to_shared_space` walks its first
`used_file_descriptor_pos` cells, so they have to name the tracked descriptors once
each. Linking keeps that; unlinking moves the number of the last position into the
gap, which is the descriptor standing there only by luck. -/

namespace Defuse

open CSem FileHandleTable

/-- The used part of the list names every tracked descriptor once and nothing else. -/
structure ListsTracked (t : FileHandleTable) : Prop where
  pos_nonneg : 0 ≤ t.usedFileDescriptorPos
  pos_le : t.usedFileDescriptorPos ≤ MAX_FILES
  once : ∀ i : Fin MAX_FILES, t.fileHandles i ≠ none →
    ∃! k : Fin MAX_FILES, (k : ℤ) < t.usedFileDescriptorPos ∧ t.usedFileDescriptors k = i
  only : ∀ k : Fin MAX_FILES, (k : ℤ) < t.usedFileDescriptorPos →
    ∃ i : Fin MAX_FILES, t.fileHandles i ≠ none ∧ t.usedFileDescriptors k = i

/-- The list is as it should be, and `file_meta` says where each descriptor stands. -/
structure DenseList (t : FileHandleTable) : Prop extends ListsTracked t where
  place : ∀ i : Fin MAX_FILES, t.fileHandles i ≠ none →
    ∃ k : Fin MAX_FILES, t.usePosition i = k ∧ (k : ℤ) < t.usedFileDescriptorPos ∧
      t.usedFileDescriptors k = i

variable {t : FileHandleTable}

/-- The form the step proofs use: list and `file_meta` are inverse to each other. -/
theorem denseList_iff : DenseList t ↔
    (0 ≤ t.usedFileDescriptorPos ∧ t.usedFileDescriptorPos ≤ MAX_FILES) ∧
    (∀ k : Fin MAX_FILES, (k : ℤ) < t.usedFileDescriptorPos → ∃ i : Fin MAX_FILES,
      t.fileHandles i ≠ none ∧ t.usedFileDescriptors k = i ∧ t.usePosition i = k) ∧
    ∀ i : Fin MAX_FILES, t.fileHandles i ≠ none → ∃ k : Fin MAX_FILES,
      (k : ℤ) < t.usedFileDescriptorPos ∧ t.usedFileDescriptors k = i ∧ t.usePosition i = k := by
  constructor
  · intro h
    refine ⟨⟨h.pos_nonneg, h.pos_le⟩, ?_, ?_⟩
    · intro k hk
      obtain ⟨i, hi, hki⟩ := h.only k hk
      obtain ⟨k', hup, hk', hk'i⟩ := h.place i hi
      obtain rfl := (h.once i hi).unique ⟨hk, hki⟩ ⟨hk', hk'i⟩
      exact ⟨i, hi, hki, hup⟩
    · intro i hi
      obtain ⟨k, hup, hk, hki⟩ := h.place i hi
      exact ⟨k, hk, hki, hup⟩
  · rintro ⟨⟨h0, hle⟩, hlist, hplace⟩
    refine ⟨⟨h0, hle, ?_, ?_⟩, ?_⟩
    · intro i hi
      obtain ⟨k, hk, hki, hup⟩ := hplace i hi
      refine ⟨k, ⟨hk, hki⟩, ?_⟩
      rintro k' ⟨hk', hk'i⟩
      obtain ⟨i', -, hi', hup'⟩ := hlist k' hk'
      obtain rfl : i' = i := by
        apply Fin.ext
        omega
      exact Fin.ext (by omega)
    · intro k hk
      obtain ⟨i, hi, hki, -⟩ := hlist k hk
      exact ⟨i, hi, hki⟩
    · intro i hi
      obtain ⟨k, hk, hki, hup⟩ := hplace i hi
      exact ⟨k, hup, hk, hki⟩

theorem zeroed_dense : DenseList zeroed := by
  rw [denseList_iff]
  refine ⟨by simp [zeroed], ?_, ?_⟩
  · intro k hk
    simp only [zeroed] at hk
    omega
  · intro i hi
    exact absurd rfl hi

theorem DenseList.congr (h : DenseList t) {t' : FileHandleTable}
    (hfh : ∀ i, t'.fileHandles i = none ↔ t.fileHandles i = none)
    (hup : t'.usePosition = t.usePosition)
    (hud : t'.usedFileDescriptors = t.usedFileDescriptors)
    (hpos : t'.usedFileDescriptorPos = t.usedFileDescriptorPos) : DenseList t' := by
  rw [denseList_iff] at h ⊢
  simpa only [ne_eq, hfh, hup, hud, hpos] using h

/-- Linking an untracked descriptor at the first free position. -/
theorem DenseList.link (h : DenseList t) {i n : Fin MAX_FILES} (hi : t.fileHandles i = none)
    (hn : t.usedFileDescriptorPos = n) {t' : FileHandleTable}
    (hfh : ∀ j, j ≠ i → (t'.fileHandles j = none ↔ t.fileHandles j = none))
    (hnew : t'.fileHandles i ≠ none)
    (hup : t'.usePosition = Function.update t.usePosition i n)
    (hud : t'.usedFileDescriptors = Function.update t.usedFileDescriptors n i)
    (hpos : t'.usedFileDescriptorPos = t.usedFileDescriptorPos + 1) : DenseList t' := by
  rw [denseList_iff] at h ⊢
  obtain ⟨⟨h0, hle⟩, hlist, hplace⟩ := h
  have hnlt := n.isLt
  refine ⟨⟨by omega, by omega⟩, ?_, ?_⟩
  · intro k hk
    by_cases hkn : k = n
    · subst hkn
      exact ⟨i, hnew, by simp [hud], by simp [hup]⟩
    · have hne : (k : ℕ) ≠ n := fun e => hkn (Fin.ext e)
      obtain ⟨j, hj, hkj, hjk⟩ := hlist k (by omega)
      have hji : j ≠ i := by rintro rfl; exact hj hi
      refine ⟨j, fun e => hj ((hfh j hji).mp e), ?_, ?_⟩
      · rw [hud, Function.update_of_ne hkn, hkj]
      · rw [hup, Function.update_of_ne hji, hjk]
  · intro j hj
    by_cases hji : j = i
    · subst hji
      exact ⟨n, by omega, by simp [hud], by simp [hup]⟩
    · obtain ⟨k, hk, hkj, hjk⟩ := hplace j fun e => hj ((hfh j hji).mpr e)
      have hkn : k ≠ n := by rintro rfl; omega
      refine ⟨k, by omega, ?_, ?_⟩
      · rw [hud, Function.update_of_ne hkn, hkj]
      · rw [hup, Function.update_of_ne hji, hjk]

/-- What a removal needs of the state before it: with `n` tracked descriptors, the
last cell of the list holds its own position, or it holds the removed descriptor
and no tracked descriptor is called `n - 1`. -/
def RemovalSafe (t : FileHandleTable) : Call → Prop
  | .remove fd => ∀ i : Fin MAX_FILES, fd = i → t.fileHandles i ≠ none →
      t.usedFileDescriptorPos ≤ 1 ∨ ∃ l : Fin MAX_FILES, t.usedFileDescriptorPos - 1 = l ∧
        (t.usedFileDescriptors l = l ∨ t.usedFileDescriptors l = i ∧ t.fileHandles l = none)
  | .insert _ _ => True
  | .duplicate _ _ => True

theorem DenseList.unlink_only (h : DenseList t) {i : Fin MAX_FILES} (hi : t.fileHandles i ≠ none)
    (h1 : t.usedFileDescriptorPos = 1) {t' : FileHandleTable}
    (hfh : t'.fileHandles = Function.update t.fileHandles i none)
    (hpos : t'.usedFileDescriptorPos = t.usedFileDescriptorPos - 1) : DenseList t' := by
  rw [denseList_iff] at h ⊢
  obtain ⟨⟨h0, hle⟩, hlist, hplace⟩ := h
  refine ⟨⟨by omega, by omega⟩, ?_, ?_⟩
  · intro k hk
    omega
  · intro j hj
    have hji : j ≠ i := by rintro rfl; simp [hfh] at hj
    rw [hfh, Function.update_of_ne hji] at hj
    obtain ⟨k, hk, hkj, -⟩ := hplace j hj
    obtain ⟨k', hk', hki, -⟩ := hplace i hi
    obtain rfl : k = k' := Fin.ext (by omega)
    exact absurd (Fin.ext (by omega)) hji

/-- The state after `unlink_file_descriptor`, whatever happens to the records. -/
structure Unlinked (t t' : FileHandleTable) (i q l : Fin MAX_FILES) : Prop where
  fileHandles : t'.fileHandles = Function.update t.fileHandles i none
  usePosition : t'.usePosition = Function.update t.usePosition l q
  used : t'.usedFileDescriptors = Function.update t.usedFileDescriptors q l
  pos : t'.usedFileDescriptorPos = t.usedFileDescriptorPos - 1

variable {t' : FileHandleTable} {i q l : Fin MAX_FILES}

theorem DenseList.unlink (h : DenseList t) (hu : Unlinked t t' i q l)
    (hi : t.fileHandles i ≠ none) (h1 : 1 < t.usedFileDescriptorPos)
    (hl : t.usedFileDescriptorPos - 1 = l) (hq : t.usePosition i = q)
    (hsafe : t.usedFileDescriptors l = l ∨ t.usedFileDescriptors l = i ∧ t.fileHandles l = none) :
    DenseList t' := by
  rw [denseList_iff] at h ⊢
  obtain ⟨⟨h0, hle⟩, hlist, hplace⟩ := h
  obtain ⟨hfh, hup, hud, hpos⟩ := hu
  obtain ⟨q', hqlt, hqi, hiq⟩ := hplace i hi
  obtain rfl : q' = q := Fin.ext (by omega)
  -- the descriptor in the last cell and its own position
  obtain ⟨d, hd, hld, hdl⟩ := hlist l (by omega)
  have hplaced : ∀ j, j ≠ i → t.fileHandles j ≠ none → j ≠ l → ∃ k : Fin MAX_FILES,
      (k : ℤ) < t'.usedFileDescriptorPos ∧ t'.usedFileDescriptors k = j ∧ t'.usePosition j = k := by
    intro j hji hj hjl
    obtain ⟨k, hk, hkj, hjk⟩ := hplace j hj
    have hkq : k ≠ q' := by rintro rfl; exact hji (Fin.ext (by omega))
    have hkl : k ≠ l := by
      rintro rfl
      rcases hsafe with hs | ⟨hs, -⟩
      · exact hjl (Fin.ext (by omega))
      · exact hji (Fin.ext (by omega))
    have hne : (k : ℕ) ≠ l := fun e => hkl (Fin.ext e)
    refine ⟨k, by omega, ?_, ?_⟩
    · rw [hud, Function.update_of_ne hkq, hkj]
    · rw [hup, Function.update_of_ne hjl, hjk]
  refine ⟨⟨by omega, by omega⟩, ?_, ?_⟩
  · intro k hk
    by_cases hkq : k = q'
    · subst hkq
      -- the gap is not the last cell, so the last cell holds its own position
      have hll : t.usedFileDescriptors l = l := by
        rcases hsafe with hs | ⟨hs, -⟩
        · exact hs
        · exfalso
          obtain rfl : d = i := Fin.ext (by omega)
          omega
      obtain rfl : d = l := Fin.ext (by omega)
      have hdi : d ≠ i := by
        rintro rfl
        omega
      refine ⟨d, by rwa [hfh, Function.update_of_ne hdi], by simp [hud], by simp [hup]⟩
    · obtain ⟨j, hj, hkj, hjk⟩ := hlist k (by omega)
      have hji : j ≠ i := by rintro rfl; exact hkq (Fin.ext (by omega))
      have hjl : j ≠ l := by
        rintro rfl
        rcases hsafe with hs | ⟨-, hs⟩
        · obtain rfl : d = j := Fin.ext (by omega)
          omega
        · exact hj hs
      refine ⟨j, by rwa [hfh, Function.update_of_ne hji], ?_, ?_⟩
      · rw [hud, Function.update_of_ne hkq, hkj]
      · rw [hup, Function.update_of_ne hjl, hjk]
  · intro j hj
    have hji : j ≠ i := by rintro rfl; simp [hfh] at hj
    rw [hfh, Function.update_of_ne hji] at hj
    by_cases hjl : j = l
    · subst hjl
      have hll : t.usedFileDescriptors j = j := by
        rcases hsafe with hs | ⟨-, hs⟩
        · exact hs
        · exact absurd hs hj
      have hne : (q' : ℕ) ≠ j := by
        intro e
        obtain rfl : q' = j := Fin.ext e
        exact hji (Fin.ext (by omega))
      exact ⟨q', by omega, by simp [hud], by simp [hup]⟩
    · exact hplaced j hji hj hjl

/-- Conversely, a removal that leaves the list dense met the condition. -/
theorem DenseList.unlink_safe (h : DenseList t) (hu : Unlinked t t' i q l)
    (hi : t.fileHandles i ≠ none) (hl : t.usedFileDescriptorPos - 1 = l)
    (hq : t.usePosition i = q) (h' : DenseList t') :
    t.usedFileDescriptors l = l ∨ t.usedFileDescriptors l = i ∧ t.fileHandles l = none := by
  rw [denseList_iff] at h h'
  obtain ⟨-, hlist, hplace⟩ := h
  obtain ⟨-, -, hplace'⟩ := h'
  obtain ⟨hfh, hup, hud, hpos⟩ := hu
  obtain ⟨q', hqlt, hqi, hiq⟩ := hplace i hi
  obtain rfl : q' = q := Fin.ext (by omega)
  obtain ⟨d, hd, hld, hdl⟩ := hlist l (by omega)
  by_cases hdi : d = i
  · subst hdi
    by_cases hfl : t.fileHandles l = none
    · exact Or.inr ⟨hld, hfl⟩
    · by_cases hli : l = d
      · subst hli
        exact Or.inl hld
      · -- the entry of the descriptor called `l` now points behind the list
        obtain ⟨k, hk, hkl, hlk⟩ := hplace' l (by rwa [hfh, Function.update_of_ne hli])
        rw [hup, Function.update_self] at hlk
        omega
  · -- the descriptor of the last cell stays tracked, so it must be in the list again
    obtain ⟨k, hk, hkd, -⟩ := hplace' d (by rwa [hfh, Function.update_of_ne hdi])
    by_cases hkq : k = q'
    · subst hkq
      rw [hud, Function.update_self] at hkd
      exact Or.inl (by omega)
    · rw [hud, Function.update_of_ne hkq] at hkd
      obtain ⟨j, -, hkj, hjk⟩ := hlist k (by omega)
      obtain rfl : j = d := Fin.ext (by omega)
      omega

theorem insert_dense (hs : Sound t) (h : DenseList t) (fhd : FileHandleData) {rv : ℤ}
    (heq : t.insertFileHandle i fhd = .ok (rv, t')) : DenseList t' := by
  cases hi : t.fileHandles i with
  | none =>
    obtain ⟨n, hn⟩ := hs.room hi
    rw [insert_untracked hi hn] at heq
    cases heq
    refine h.link hi hn ?_ (by simp [inserted, linked]) rfl rfl rfl
    intro j hj
    simp [inserted, linked, Function.update_of_ne hj]
  | some p =>
    rw [insert_tracked hs hi] at heq
    cases heq
    exact h

theorem duplicate_dense (hs : Sound t) (h : DenseList t) {j : Fin MAX_FILES} {rv : ℤ}
    {old : Option RecPtr} (heq : t.duplicateFileHandle i j = .ok (rv, old, t')) : DenseList t' := by
  cases hi : t.fileHandles i with
  | none =>
    rw [duplicate_untracked hi] at heq
    cases heq
    exact h
  | some p =>
    obtain ⟨r, -, ⟨n, hj, hn, heq'⟩ | ⟨hj, heq'⟩⟩ := duplicate_cases hs hi j
    · rw [heq'] at heq
      cases heq
      refine h.link hj hn ?_ (by simp [linked, shared, setRec, setFileHandle]) rfl rfl rfl
      intro k hk
      simp [linked, shared, setRec, setFileHandle, Function.update_of_ne hk]
    · rw [heq'] at heq
      cases heq
      refine h.congr ?_ rfl rfl rfl
      intro k
      by_cases hk : k = j
      · subst hk
        simp [shared, setRec, setFileHandle, hj]
      · simp [shared, setRec, setFileHandle, Function.update_of_ne hk]

theorem remove_dense_iff (hs : Sound t) (h : DenseList t) {rv : ℤ}
    (heq : t.removeFileHandle i = .ok (rv, t')) :
    DenseList t' ↔ RemovalSafe t (.remove i) := by
  cases hi : t.fileHandles i with
  | none =>
    rw [remove_untracked hi] at heq
    cases heq
    refine iff_of_true h ?_
    intro j hj htr
    obtain rfl : j = i := Fin.ext (by omega)
    exact absurd hi htr
  | some p =>
    have htr : t.fileHandles i ≠ none := by simp [hi]
    obtain ⟨r, -, ⟨h1, heq'⟩ | ⟨l, q, h1, hl, hq, heq'⟩⟩ := remove_cases hs hi
    · rw [heq'] at heq
      cases heq
      refine iff_of_true (h.unlink_only htr h1 rfl rfl) ?_
      intro _ _ _
      exact Or.inl h1.le
    · rw [heq'] at heq
      cases heq
      have hu : Unlinked t ((t.dropUse p r).unlinked i q l) i q l :=
        ⟨rfl, by simp [unlinked, dropUse, setRec, hq], rfl, rfl⟩
      constructor
      · intro h' j hj _
        obtain rfl : j = i := Fin.ext (by omega)
        exact Or.inr ⟨l, hl, h.unlink_safe hu htr hl hq h'⟩
      · intro hsafe
        obtain hle | ⟨l', hl', hs'⟩ := hsafe i rfl htr
        · omega
        · obtain rfl : l' = l := Fin.ext (by omega)
          exact h.unlink hu htr h1 hl hq hs'

theorem exec_dense_iff (hs : Sound t) (h : DenseList t) {c : Call} (hc : c.InRange)
    (heq : c.exec t = .ok t') : DenseList t' ↔ RemovalSafe t c := by
  obtain ⟨i, fhd, rv, rfl, hins⟩ | ⟨i, rv, rfl, hrem⟩ | ⟨i, j, rv, old, rfl, hdup⟩ :=
    exec_cases hc heq
  · exact iff_of_true (insert_dense hs h fhd hins) trivial
  · exact remove_dense_iff hs h hrem
  · exact iff_of_true (duplicate_dense hs h hdup) trivial

/-- From the zeroed table, a run of calls with descriptors in range never faults and
has a dense list in every state it passes through exactly when each of its removals
met the condition in the state it started from. -/
theorem dense_throughout_iff (cs : List Call) (hcs : ∀ c ∈ cs, c.InRange) :
    (∀ pre, pre <+: cs → ∃ t, run Call.exec zeroed pre = .ok t ∧ DenseList t) ↔
      ∀ pre c, pre ++ [c] <+: cs → ∀ t, run Call.exec zeroed pre = .ok t → RemovalSafe t c :=
  run_throughout_iff Sound (fun _ c ht hc => exec_sound ht c hc)
    (fun _ _ _ hs hc hg heq => exec_dense_iff hs hg hc heq) zeroed_sound zeroed_dense cs hcs

/-- Descriptors 0 and 1 opened in this order and 0 closed: the last cell of the list
holds 1, its own position. -/
theorem dense_throughout_lowest :
    ∃ t, run Call.exec zeroed [.insert 0 ⟨7, 0⟩, .insert 1 ⟨8, 0⟩, .remove 0] = .ok t ∧
      DenseList t := by
  refine (dense_throughout_iff _ (by decide)).mpr ?_ _ (List.prefix_refl _)
  -- only the removal is bound to something, and what is looked at then is computed
  refine guard_of_guarded ⟨trivial, fun t₁ h₁ => ⟨trivial, fun t₂ h₂ => ⟨?_, fun _ _ => trivial⟩⟩⟩
  have hview : (run Call.exec zeroed [.insert 0 ⟨7, 0⟩, .insert 1 ⟨8, 0⟩]).map
      (fun t => (t.usedFileDescriptorPos, t.usedFileDescriptors 1)) = .ok (2, 1) := by
    decide +kernel
  have h := map_ok hview (by rw [run, List.foldlM_cons, h₁, ok_bind, List.foldlM_cons, h₂]; rfl)
  simp only [Prod.mk.injEq] at h
  intro i _ _
  exact Or.inr ⟨1, by rw [h.1]; rfl, Or.inl (by rw [h.2]; rfl)⟩

/-- Descriptors 3 and 4 opened and 3 closed: the list then names descriptor 1. -/
theorem dense_fails_gap :
    (∀ c ∈ [Call.insert 3 ⟨7, 0⟩, .insert 4 ⟨8, 0⟩, .remove 3], c.InRange) ∧
    ∃ t, run Call.exec zeroed [.insert 3 ⟨7, 0⟩, .insert 4 ⟨8, 0⟩, .remove 3] = .ok t ∧
      ¬ DenseList t := by
  have hrange : ∀ c ∈ [Call.insert 3 ⟨7, 0⟩, .insert 4 ⟨8, 0⟩, .remove 3], c.InRange := by
    decide
  obtain ⟨t, ht, -⟩ := calls_sound _ hrange
  refine ⟨hrange, t, ht, ?_⟩
  have hview : (run Call.exec zeroed [.insert 3 ⟨7, 0⟩, .insert 4 ⟨8, 0⟩, .remove 3]).map
      (fun t => (t.usedFileDescriptorPos, t.usedFileDescriptors 0, t.fileHandles 1)) =
        .ok (1, 1, none) := by
    decide +kernel
  have h := map_ok hview ht
  simp only [Prod.mk.injEq] at h
  obtain ⟨hpos, hused, hfh⟩ := h
  intro hd
  obtain ⟨i, hi, hk⟩ := hd.only 0 (by rw [hpos]; exact Int.one_pos)
  obtain rfl : i = 1 := by
    apply Fin.ext
    rw [hused] at hk
    exact (Int.ofNat.inj hk).symm
  exact hi hfh

end Defuse
