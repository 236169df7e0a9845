import Defuse.Proofs.ExactCounts
import Defuse.Spec.MuslFileHandles

/-! The use counts of the musl port. Its `duplicate_file_handle` is a removal of the
target followed by libdefuse's duplicate onto a free descriptor, the case in which the
latter keeps the counts. -/

namespace Defuse.Musl

open CSem FileHandleTable

variable {t t' : FileHandleTable} {i j : Fin MAX_FILES}

private theorem in_range (i j : Fin MAX_FILES) :
    ¬ ((i : ℤ) ≥ MAX_FILES ∨ (j : ℤ) ≥ MAX_FILES) := by
  have := i.isLt
  have := j.isLt
  omega

/-- With a free target the two ports do the same. -/
theorem duplicate_free (hs : Sound t) (hj : t.fileHandles j = none) :
    duplicateFileHandle t i j = (t.duplicateFileHandle i j).map fun r => (r.1, r.2.2) := by
  cases hi : t.fileHandles i with
  | none =>
    rw [duplicate_untracked hi]
    simp only [duplicateFileHandle, if_neg (in_range i j), index_val, ok_bind, hj, ne_eq,
      not_true_eq_false, if_false, pure_eq_ok, hi, useCount_none, gt_iff_lt, lt_self_iff_false]
    rfl
  | some p =>
    obtain ⟨r, hr, hpos, -⟩ := hs.live hi
    obtain ⟨n, hn⟩ := hs.room hj
    have hij : i ≠ j := by
      rintro rfl
      rw [hi] at hj
      cases hj
    have hq : (t.setFileHandle j (some p)).fileHandles i = some p := by
      simp [setFileHandle, Function.update_of_ne hij, hi]
    rw [duplicate_tracked hi hr hpos, if_pos hj]
    simp only [duplicateFileHandle, if_neg (in_range i j), index_val, ok_bind, hj, ne_eq,
      not_true_eq_false, if_false, pure_eq_ok, hi, hq, useCount_some hr, gt_iff_lt, hpos, if_true]
    rw [addUseCount_eq (r := r) (by exact hr), ok_bind]
    show (t.shared j p r).linkFileDescriptor j >>= _ = _
    rw [link_eq (by exact hn)]
    rfl

theorem duplicate_taken (hs : Sound t) (hj : t.fileHandles j ≠ none) :
    ∃ rv t₁, t.removeFileHandle j = .ok (rv, t₁) ∧ Sound t₁ ∧
      t₁.fileHandles = Function.update t.fileHandles j none ∧
      duplicateFileHandle t i j = duplicateFileHandle t₁ i j := by
  obtain ⟨rv, t₁, hrem, hs₁⟩ := remove_sound hs j
  have hfh : t₁.fileHandles = Function.update t.fileHandles j none := by
    obtain ⟨p, hp⟩ := Option.ne_none_iff_exists'.mp hj
    obtain ⟨r, -, -, -, hfh, -⟩ := remove_entries hs hp hrem
    exact hfh
  have hgone : t₁.fileHandles j = none := by rw [hfh, Function.update_self]
  refine ⟨rv, t₁, hrem, hs₁, hfh, ?_⟩
  simp only [duplicateFileHandle, if_neg (in_range i j), index_val, ok_bind, hj, ne_eq,
    not_false_eq_true, if_true, hrem, pure_eq_ok, hgone, not_true_eq_false, if_false]

theorem duplicate_free_exact (hs : Sound t) (h : ExactCounts t) (hj : t.fileHandles j = none) :
    ∃ rv t', duplicateFileHandle t i j = .ok (rv, t') ∧ Sound t' ∧ ExactCounts t' := by
  obtain ⟨rv, old, t', hdup, hs'⟩ := duplicate_sound hs i j
  refine ⟨rv, t', ?_, hs', (duplicate_exact_iff hs h hdup).mpr fun _ => hj⟩
  rw [duplicate_free hs hj, hdup]
  rfl

theorem duplicate_exact (hs : Sound t) (h : ExactCounts t) (i j : Fin MAX_FILES) :
    ∃ rv t', duplicateFileHandle t i j = .ok (rv, t') ∧ Sound t' ∧ ExactCounts t' := by
  by_cases hj : t.fileHandles j = none
  · exact duplicate_free_exact hs h hj
  · obtain ⟨rv, t₁, hrem, hs₁, hfh, heq⟩ := duplicate_taken (i := i) hs hj
    rw [heq]
    exact duplicate_free_exact hs₁ (h.remove hs hrem) (by rw [hfh, Function.update_self])

theorem exec_exact (h : Sound t ∧ ExactCounts t) (c : Call) (hc : c.InRange) :
    ∃ t', exec t c = .ok t' ∧ Sound t' ∧ ExactCounts t' := by
  obtain ⟨hs, he⟩ := h
  cases c with
  | insert fd fhd =>
    obtain ⟨i, rfl⟩ := exists_fin hc
    obtain ⟨rv, t', heq, hs'⟩ := insert_sound hs i fhd
    exact ⟨t', by simp [exec, heq], hs', insert_exact hs he fhd heq⟩
  | remove fd =>
    obtain ⟨i, rfl⟩ := exists_fin hc
    obtain ⟨rv, t', heq, hs'⟩ := remove_sound hs i
    exact ⟨t', by simp [exec, heq], hs', he.remove hs heq⟩
  | duplicate fd1 fd2 =>
    obtain ⟨i, rfl⟩ := exists_fin hc.1
    obtain ⟨j, rfl⟩ := exists_fin hc.2
    obtain ⟨rv, t', heq, hs', he'⟩ := duplicate_exact hs he i j
    exact ⟨t', by simp [exec, heq], hs', he'⟩

/-- From the zeroed table, a run of calls with descriptors in range never faults, and in
every state it passes through the counts are exact and no entry points to a freed record. -/
theorem exact_throughout (cs : List Call) (hcs : ∀ c ∈ cs, c.InRange) (pre : List Call)
    (hpre : pre <+: cs) :
    ∃ t, run exec zeroed pre = .ok t ∧ ExactCounts t ∧
      ∀ i p, t.fileHandles i = some p → t.heap p ≠ none := by
  obtain ⟨t, ht, hs, he⟩ := run_invariant (fun t => Sound t ∧ ExactCounts t) Call.InRange
    (fun _ c h hc => exec_exact h c hc) ⟨zeroed_sound, zeroed_exact⟩ pre
    fun c hc => hcs c (hpre.subset hc)
  refine ⟨t, ht, he, fun i p hi => ?_⟩
  obtain ⟨r, hr, -⟩ := hs.live hi
  rw [hr]
  exact Option.some_ne_none r

/-- A descriptor duplicated to a tracked one, then to one that shares its record, then to
itself. -/
theorem exact_throughout_overwrite :
    ∃ t, run exec zeroed [.insert 3 ⟨7, 0⟩, .insert 4 ⟨8, 0⟩, .duplicate 3 4, .duplicate 3 4,
        .duplicate 3 3] = .ok t ∧ ExactCounts t ∧
      ∀ i p, t.fileHandles i = some p → t.heap p ≠ none :=
  exact_throughout _ (by decide) _ (List.prefix_refl _)

end Defuse.Musl
