import Defuse.Proofs.TableSound

/-! The use counts of the records. `insert_file_handle` and `remove_file_handle` count one
reference each; `duplicate_file_handle` counts the one it makes and forgets the one it
overwrites. -/

namespace Defuse

open CSem FileHandleTable

/-- Each record counts the descriptors that point to it, and it is freed when there is
none left. -/
structure ExactCounts (t : FileHandleTable) : Prop where
  count : ∀ p, t.heap p ≠ none → t.fileHandleUseCount p = .ok (t.refs p)
  freed : ∀ p < t.nextRec, t.heap p = none ↔ t.refs p = 0

variable {t t' : FileHandleTable} {i j : Fin MAX_FILES} {p : RecPtr} {r : FileHandleDataInternal}

theorem useCount_eq (hr : t.heap p = some r) : t.fileHandleUseCount p = .ok r.useCount :=
  useCount_some hr

theorem dropUse_heap_ne {q : RecPtr} (hq : q ≠ p) : (t.dropUse p r).heap q = t.heap q := by
  simp [dropUse, setRec, Function.update_of_ne hq]

theorem shared_heap_self :
    (t.shared j p r).heap p = some { r with useCount := r.useCount + 1 } := by
  simp [shared, setRec]

theorem shared_heap_ne {q : RecPtr} (hq : q ≠ p) : (t.shared j p r).heap q = t.heap q := by
  simp [shared, setRec, setFileHandle, Function.update_of_ne hq]

theorem exactCounts_iff (h : Sound t) :
    ExactCounts t ↔ ∀ p r, t.heap p = some r → r.useCount = t.refs p ∧ 0 < t.refs p := by
  refine ⟨fun he p r hr => ?_, fun hall =>
    ⟨fun p hp => ?_, fun p hp => ⟨fun hnone => ?_, fun hrefs => ?_⟩⟩⟩
  · have hne : t.heap p ≠ none := by
      rw [hr]
      exact Option.some_ne_none r
    have hcount := he.count p hne
    rw [useCount_eq hr] at hcount
    refine ⟨Except.ok.inj hcount, Nat.pos_of_ne_zero fun hzero => ?_⟩
    have hlt : p < t.nextRec := not_le.mp fun hle => hne (h.fresh p hle)
    exact hne ((he.freed p hlt).mpr hzero)
  · obtain ⟨r, hr⟩ := Option.ne_none_iff_exists'.mp hp
    rw [useCount_eq hr, (hall p r hr).1]
  · by_contra hrefs
    obtain ⟨k, hk⟩ := (cells_pos_iff _ _).mp (Nat.pos_of_ne_zero hrefs)
    obtain ⟨r, hr, -⟩ := h.live hk
    rw [hnone] at hr
    cases hr
  · by_contra hne
    obtain ⟨r, hr⟩ := Option.ne_none_iff_exists'.mp hne
    have := (hall p r hr).2
    omega

theorem zeroed_exact : ExactCounts zeroed := by
  refine (exactCounts_iff zeroed_sound).mpr fun p r hr => ?_
  cases hr

namespace ExactCounts

theorem insert (hs : Sound t) (h : ExactCounts t) {n : Fin MAX_FILES} (hi : t.fileHandles i = none)
    (hn : t.usedFileDescriptorPos = n) (fhd : FileHandleData) :
    ExactCounts (t.inserted i n fhd) := by
  have hfh : (t.inserted i n fhd).fileHandles =
    Function.update t.fileHandles i (some t.nextRec) := rfl
  rw [exactCounts_iff hs] at h
  refine (exactCounts_iff (inserted_sound hs hi hn fhd)).mpr fun q r hr => ?_
  have hrefs := refs_set hfh q
  by_cases hq : q = t.nextRec
  · subst hq
    have hnew : (t.inserted i n fhd).heap t.nextRec = some ⟨fhd, 1⟩ := by simp [inserted, linked]
    rw [hnew] at hr
    cases hr
    simp only [hi, refs_nextRec hs, reduceCtorEq, if_false, if_true] at hrefs ⊢
    omega
  · have hold : (t.inserted i n fhd).heap q = t.heap q := by
      simp [inserted, linked, Function.update_of_ne hq]
    rw [hold] at hr
    have := h q r hr
    simp only [hi, reduceCtorEq, if_false, Option.some.injEq, Ne.symm hq] at hrefs
    omega

/-- One descriptor less, and one use less. -/
theorem drop (hs : Sound t) (hs' : Sound t') (h : ExactCounts t) (hi : t.fileHandles i = some p)
    (hr : t.heap p = some r) (hfh : t'.fileHandles = Function.update t.fileHandles i none)
    (hheap : t'.heap = (t.dropUse p r).heap) : ExactCounts t' := by
  rw [exactCounts_iff hs] at h
  refine (exactCounts_iff hs').mpr fun q r' hr' => ?_
  have hrefs := refs_set hfh q
  rw [hheap] at hr'
  by_cases hq : q = p
  · subst hq
    have hold := h q r hr
    simp only [hi, if_true, reduceCtorEq, if_false] at hrefs
    simp only [dropUse, setRec, Function.update_self] at hr'
    by_cases hone : r.useCount = 1
    · rw [if_pos hone] at hr'
      cases hr'
    · rw [if_neg hone] at hr'
      cases hr'
      refine ⟨?_, by omega⟩
      simp only
      omega
  · rw [dropUse_heap_ne hq] at hr'
    have := h q r' hr'
    simp only [hi, Option.some.injEq, Ne.symm hq, reduceCtorEq, if_false] at hrefs
    omega

/-- One use more, and one descriptor more if it had none before. -/
theorem share_iff (hs : Sound t) (hs' : Sound t') (h : ExactCounts t)
    (hi : t.fileHandles i = some p) (hr : t.heap p = some r)
    (hfh : t'.fileHandles = Function.update t.fileHandles j (some p))
    (hheap : t'.heap = (t.shared j p r).heap) : ExactCounts t' ↔ t.fileHandles j = none := by
  have hnew := (congrFun hheap p).trans shared_heap_self
  rw [exactCounts_iff hs] at h
  rw [exactCounts_iff hs']
  have hold := h p r hr
  have hrefs := refs_set hfh p
  refine ⟨fun h' => ?_, fun hj q r' hr' => ?_⟩
  · have hcount := (h' p _ hnew).1
    simp only [if_true] at hrefs hcount
    cases hj : t.fileHandles j with
    | none => rfl
    | some q =>
      by_cases hq : q = p
      · -- the count went up and the number of descriptors did not
        subst hq
        rw [hj, if_pos rfl] at hrefs
        omega
      · -- the record that was overwritten still counts the descriptor
        have hq' := (congrFun hheap q).trans (shared_heap_ne hq)
        obtain ⟨rq, hrq, -⟩ := hs.live hj
        have hqrefs := refs_set hfh q
        rw [hj, if_pos rfl, if_neg (by simpa using Ne.symm hq)] at hqrefs
        have hbefore := (h q rq hrq).1
        have hafter := (h' q rq (hq'.trans hrq)).1
        omega
  · by_cases hq : q = p
    · subst hq
      rw [hnew] at hr'
      cases hr'
      simp only [hj, reduceCtorEq, if_false, if_true] at hrefs ⊢
      omega
    · rw [hheap, shared_heap_ne hq] at hr'
      have hqrefs := refs_set hfh q
      have := h q r' hr'
      simp only [hj, reduceCtorEq, if_false, Option.some.injEq, Ne.symm hq] at hqrefs
      omega

theorem remove (hs : Sound t) (h : ExactCounts t) {rv : ℤ}
    (heq : t.removeFileHandle i = .ok (rv, t')) : ExactCounts t' := by
  obtain ⟨rv', t'', heq', hs'⟩ := remove_sound hs i
  rw [heq] at heq'
  cases heq'
  cases hi : t.fileHandles i with
  | none =>
    rw [remove_untracked hi] at heq
    cases heq
    exact h
  | some p =>
    obtain ⟨r, hr, -, -, hfh, hheap⟩ := remove_entries hs hi heq
    exact h.drop hs hs' hi hr hfh hheap

end ExactCounts

def Tracks (t : FileHandleTable) (fd : ℤ) : Prop :=
  ∃ i : Fin MAX_FILES, fd = i ∧ t.fileHandles i ≠ none

theorem tracks_val : Tracks t i ↔ t.fileHandles i ≠ none := by
  constructor
  · rintro ⟨k, hk, htr⟩
    obtain rfl : i = k := Fin.ext (by omega)
    exact htr
  · intro htr
    exact ⟨i, rfl, htr⟩

/-- Looks at the one entry the descriptor can have. -/
instance (t : FileHandleTable) (fd : ℤ) : Decidable (Tracks t fd) :=
  match h : index MAX_FILES fd with
  | .ok i => decidable_of_iff (t.fileHandles i ≠ none) (by rw [index_ok_iff.mp h, tracks_val])
  | .error _ => .isFalse (by
      rintro ⟨i, rfl, -⟩
      rw [index_val] at h
      cases h)

/-- A duplicate of a tracked descriptor goes to an untracked one. -/
def TargetFree (t : FileHandleTable) : Call → Prop
  | .duplicate fd1 fd2 => Tracks t fd1 → ¬ Tracks t fd2
  | .insert _ _ => True
  | .remove _ => True

instance (t : FileHandleTable) : (c : Call) → Decidable (TargetFree t c)
  | .duplicate fd1 fd2 => inferInstanceAs (Decidable (Tracks t fd1 → ¬ Tracks t fd2))
  | .insert _ _ => .isTrue trivial
  | .remove _ => .isTrue trivial

theorem insert_exact (hs : Sound t) (h : ExactCounts t) (fhd : FileHandleData) {rv : ℤ}
    (heq : t.insertFileHandle i fhd = .ok (rv, t')) : ExactCounts t' := by
  cases hi : t.fileHandles i with
  | none =>
    obtain ⟨n, hn⟩ := hs.room hi
    rw [insert_untracked hi hn] at heq
    cases heq
    exact h.insert hs hi hn fhd
  | some p =>
    rw [insert_tracked hs hi] at heq
    cases heq
    exact h

theorem duplicate_exact_iff (hs : Sound t) (h : ExactCounts t) {rv : ℤ} {old : Option RecPtr}
    (heq : t.duplicateFileHandle i j = .ok (rv, old, t')) :
    ExactCounts t' ↔ (t.fileHandles i ≠ none → t.fileHandles j = none) := by
  obtain ⟨rv', old', t'', heq', hs'⟩ := duplicate_sound hs i j
  rw [heq] at heq'
  cases heq'
  cases hi : t.fileHandles i with
  | none =>
    rw [duplicate_untracked hi] at heq
    cases heq
    exact iff_of_true h fun hne => absurd rfl hne
  | some p =>
    obtain ⟨r, hr, -, -, -, hfh, hheap⟩ := duplicate_entries hs hi heq
    rw [h.share_iff hs hs' hi hr hfh hheap]
    exact ⟨fun hj _ => hj, fun hj => hj (Option.some_ne_none p)⟩

theorem exec_exact_iff (hs : Sound t) (h : ExactCounts t) {c : Call} (hc : c.InRange)
    (heq : c.exec t = .ok t') : ExactCounts t' ↔ TargetFree t c := by
  obtain ⟨i, fhd, rv, rfl, hins⟩ | ⟨i, rv, rfl, hrem⟩ | ⟨i, j, rv, old, rfl, hdup⟩ :=
    exec_cases hc heq
  · exact iff_of_true (insert_exact hs h fhd hins) trivial
  · exact iff_of_true (h.remove hs hrem) trivial
  · rw [duplicate_exact_iff hs h hdup, TargetFree, tracks_val, tracks_val, not_not]

/-- From the zeroed table, a run of calls with descriptors in range never faults and has
exact counts in every state it passes through exactly when none of its duplicates of a
tracked descriptor goes to a tracked one. -/
theorem exact_throughout_iff (cs : List Call) (hcs : ∀ c ∈ cs, c.InRange) :
    (∀ pre, pre <+: cs → ∃ t, run Call.exec zeroed pre = .ok t ∧ ExactCounts t) ↔
      ∀ pre c, pre ++ [c] <+: cs → ∀ t, run Call.exec zeroed pre = .ok t → TargetFree t c :=
  run_throughout_iff Sound (fun _ c ht hc => exec_sound ht c hc)
    (fun _ _ _ hs hc hg heq => exec_exact_iff hs hg hc heq) zeroed_sound zeroed_exact cs hcs

/-- Descriptor 3 opened, duplicated to the free descriptor 4, and closed. -/
theorem exact_throughout_shared :
    ∃ t, run Call.exec zeroed [.insert 3 ⟨7, 0⟩, .duplicate 3 4, .remove 3] = .ok t ∧
      ExactCounts t :=
  (exact_throughout_iff _ (by decide)).mpr (guard_of_tested TargetFree (by decide +kernel)) _
    (List.prefix_refl _)

/-- Descriptors 3 and 4 opened and 3 duplicated to 4: no descriptor points to the record
of 4 any more, and it keeps its count of 1. -/
theorem exact_fails_overwrite :
    (∀ c ∈ [Call.insert 3 ⟨7, 0⟩, .insert 4 ⟨8, 0⟩, .duplicate 3 4], c.InRange) ∧
    ∃ t, run Call.exec zeroed [.insert 3 ⟨7, 0⟩, .insert 4 ⟨8, 0⟩, .duplicate 3 4] = .ok t ∧
      t.fileHandleUseCount 1 = .ok 1 ∧ t.refs 1 = 0 ∧ ¬ ExactCounts t := by
  have hrange : ∀ c ∈ [Call.insert 3 ⟨7, 0⟩, .insert 4 ⟨8, 0⟩, .duplicate 3 4], c.InRange := by
    decide
  obtain ⟨t, ht, -⟩ := calls_sound _ hrange
  have hview : (run Call.exec zeroed [.insert 3 ⟨7, 0⟩, .insert 4 ⟨8, 0⟩, .duplicate 3 4]).map
      (fun t => (t.fileHandleUseCount 1, t.refs 1, (t.heap 1).isSome)) = .ok (.ok 1, 0, true) := by
    decide +kernel
  have h := map_ok hview ht
  simp only [Prod.mk.injEq] at h
  obtain ⟨hcount, hrefs, hsome⟩ := h
  refine ⟨hrange, t, ht, hcount, hrefs, fun he => ?_⟩
  have hne : t.heap 1 ≠ none := Option.isSome_iff_ne_none.mp hsome
  have := he.count 1 hne
  rw [hcount, hrefs] at this
  cases this

end Defuse
