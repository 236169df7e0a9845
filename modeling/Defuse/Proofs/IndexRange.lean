import Defuse.Proofs.TableMap

/-! The subscripts of the table under calls with arbitrary descriptors. The entry points refuse
descriptors that are too large; negative ones reach the array. -/

namespace Defuse

open CSem FileHandleTable

/-- The calls that other code makes on the table. -/
inductive TableCall
  | insert (fd : ℤ) (fhd : FileHandleData)
  | remove (fd : ℤ)
  | duplicate (fd1 fd2 : ℤ)
  | find (fd : ℤ)
  deriving DecidableEq, Repr

/-- What a call reports: an error number or zero, or a pointer to the data found. -/
inductive Report
  | value (rv : ℤ)
  | found (fhd : Option FileHandleData)
  deriving DecidableEq, Repr

namespace TableCall

def perform (t : FileHandleTable) : TableCall → Checked (Report × FileHandleTable)
  | .insert fd fhd => do
    let (rv, t) ← t.insertFileHandle fd fhd
    return (.value rv, t)
  | .remove fd => do
    let (rv, t) ← t.removeFileHandle fd
    return (.value rv, t)
  | .duplicate fd1 fd2 => do
    let (rv, _, t) ← t.duplicateFileHandle fd1 fd2
    return (.value rv, t)
  | .find fd => do return (.found (← t.findFileHandle fd), t)

def exec (t : FileHandleTable) (c : TableCall) : Checked FileHandleTable := do
  return (← c.perform t).2

def descriptors : TableCall → List ℤ
  | .insert fd _ => [fd]
  | .remove fd => [fd]
  | .duplicate fd1 fd2 => [fd1, fd2]
  | .find fd => [fd]

def InRange (c : TableCall) : Prop := ∀ fd ∈ c.descriptors, 0 ≤ fd ∧ fd < MAX_FILES

/-- `EBADF`, or NULL where a pointer is returned. -/
def refusal : TableCall → Report
  | .find _ => .found none
  | _ => .value EBADF

def Guarded (c : TableCall) : Prop :=
  (∀ fd ∈ c.descriptors, 0 ≤ fd) ∨ ∃ fd ∈ c.descriptors, MAX_FILES ≤ fd

instance (c : TableCall) : Decidable c.Guarded := inferInstanceAs (Decidable (_ ∨ _))

end TableCall

variable {t : FileHandleTable} {c : TableCall}

theorem perform_large (h : ∃ fd ∈ c.descriptors, (MAX_FILES : ℤ) ≤ fd) :
    c.perform t = .ok (c.refusal, t) := by
  cases c with
  | insert fd fhd =>
    have hfd : fd ≥ MAX_FILES := by simpa [TableCall.descriptors] using h
    rw [TableCall.perform, insertFileHandle, if_pos hfd]
    rfl
  | remove fd =>
    have hfd : fd ≥ MAX_FILES := by simpa [TableCall.descriptors] using h
    rw [TableCall.perform, removeFileHandle, if_pos hfd]
    rfl
  | duplicate fd1 fd2 =>
    have hfd : fd1 ≥ MAX_FILES ∨ fd2 ≥ MAX_FILES := by simpa [TableCall.descriptors] using h
    rw [TableCall.perform, duplicateFileHandle, if_pos hfd]
    rfl
  | find fd =>
    have hfd : fd ≥ MAX_FILES := by simpa [TableCall.descriptors] using h
    rw [TableCall.perform, find_ge hfd]
    rfl

theorem perform_sound (hs : Sound t) (h : c.InRange) :
    ∃ report t', c.perform t = .ok (report, t') ∧ Sound t' := by
  cases c with
  | insert fd fhd =>
    obtain ⟨i, rfl⟩ := exists_fin (h fd (by simp [TableCall.descriptors]))
    obtain ⟨rv, t', heq, ht'⟩ := insert_sound hs i fhd
    exact ⟨.value rv, t', by rw [TableCall.perform, heq]; rfl, ht'⟩
  | remove fd =>
    obtain ⟨i, rfl⟩ := exists_fin (h fd (by simp [TableCall.descriptors]))
    obtain ⟨rv, t', heq, ht'⟩ := remove_sound hs i
    exact ⟨.value rv, t', by rw [TableCall.perform, heq]; rfl, ht'⟩
  | duplicate fd1 fd2 =>
    obtain ⟨i, rfl⟩ := exists_fin (h fd1 (by simp [TableCall.descriptors]))
    obtain ⟨j, rfl⟩ := exists_fin (h fd2 (by simp [TableCall.descriptors]))
    obtain ⟨rv, old, t', heq, ht'⟩ := duplicate_sound hs i j
    exact ⟨.value rv, t', by rw [TableCall.perform, heq]; rfl, ht'⟩
  | find fd =>
    obtain ⟨i, rfl⟩ := exists_fin (h fd (by simp [TableCall.descriptors]))
    exact ⟨.found (t.lookup i), t, by rw [TableCall.perform, find_eq hs i]; rfl, hs⟩

/-- A negative descriptor that is not refused for another one is used as a subscript. -/
theorem exec_negative (h : ¬ c.Guarded) : ∃ e, c.exec t = .error e := by
  obtain ⟨hneg, hsmall⟩ := not_or.mp h
  push Not at hneg hsmall
  cases c with
  | insert fd fhd =>
    have hfd : fd < 0 := by simpa [TableCall.descriptors] using hneg
    refine ⟨.outOfBounds, ?_⟩
    rw [TableCall.exec, TableCall.perform, insertFileHandle, if_neg (by omega), index_negative hfd]
    rfl
  | remove fd =>
    have hfd : fd < 0 := by simpa [TableCall.descriptors] using hneg
    refine ⟨.outOfBounds, ?_⟩
    rw [TableCall.exec, TableCall.perform, removeFileHandle, if_neg (by omega), index_negative hfd]
    rfl
  | duplicate fd1 fd2 =>
    have hfd : fd1 < 0 ∨ fd2 < 0 := by simpa [TableCall.descriptors] using hneg
    have hlt : fd1 < MAX_FILES ∧ fd2 < MAX_FILES := by simpa [TableCall.descriptors] using hsmall
    refine ⟨.outOfBounds, ?_⟩
    rw [TableCall.exec, TableCall.perform, duplicateFileHandle, if_neg (by omega)]
    by_cases h2 : fd2 < 0
    · rw [index_negative h2]
      rfl
    · obtain ⟨j, rfl⟩ := exists_fin (show 0 ≤ fd2 ∧ fd2 < MAX_FILES from ⟨by omega, hlt.2⟩)
      rw [index_val, ok_bind, index_negative (show fd1 < 0 by omega)]
      rfl
  | find fd =>
    have hfd : fd < 0 := by simpa [TableCall.descriptors] using hneg
    obtain ⟨e, he⟩ := find_negative (t := t) hfd
    exact ⟨e, by rw [TableCall.exec, TableCall.perform, he]; rfl⟩

theorem exec_guarded (hs : Sound t) (h : c.Guarded) : ∃ t', c.exec t = .ok t' ∧ Sound t' := by
  by_cases hlarge : ∃ fd ∈ c.descriptors, (MAX_FILES : ℤ) ≤ fd
  · exact ⟨t, by rw [TableCall.exec, perform_large hlarge]; rfl, hs⟩
  · have hrange : c.InRange := by
      push Not at hlarge
      intro fd hfd
      rcases h with hnonneg | ⟨fd', hfd', hle⟩
      · exact ⟨hnonneg fd hfd, hlarge fd hfd⟩
      · exact absurd hle (not_le.mpr (hlarge fd' hfd'))
    obtain ⟨report, t', hperform, hs'⟩ := perform_sound hs hrange
    exact ⟨t', by rw [TableCall.exec, hperform]; rfl, hs'⟩

/-- No subscript of the run leaves its array, the counter stays in its bounds, and a call with
a descriptor out of range is refused and changes nothing. -/
structure IndicesInRange (calls : List TableCall) : Prop where
  bounded : ∀ pre, pre <+: calls → ∃ t, run TableCall.exec zeroed pre = .ok t ∧
    0 ≤ t.usedFileDescriptorPos ∧ t.usedFileDescriptorPos ≤ MAX_FILES
  refused : ∀ pre c, pre ++ [c] <+: calls → ¬ c.InRange →
    ∀ t, run TableCall.exec zeroed pre = .ok t → c.perform t = .ok (c.refusal, t)

/-- Exactly the runs without a negative descriptor that reaches the array. -/
theorem indices_in_range_iff (calls : List TableCall) :
    IndicesInRange calls ↔ ∀ c ∈ calls, c.Guarded := by
  constructor
  · intro h c hc
    by_contra hbad
    obtain ⟨pre, post, rfl⟩ := List.append_of_mem hc
    have hpre : pre ++ [c] <+: pre ++ c :: post := ⟨post, by simp⟩
    obtain ⟨t, ht, -⟩ := h.bounded pre (List.prefix_append _ _)
    obtain ⟨t', ht', -⟩ := h.bounded _ hpre
    obtain ⟨e, he⟩ := exec_negative (t := t) hbad
    rw [run_snoc, ht, ok_bind, he] at ht'
    cases ht'
  · intro hall
    refine ⟨fun pre hpre => ?_, fun pre c hpre hout t _ => ?_⟩
    · obtain ⟨t, ht, hs⟩ := run_invariant Sound TableCall.Guarded (fun _ _ => exec_guarded)
        zeroed_sound pre fun c hc => hall c (hpre.subset hc)
      have hpos : (0 : ℤ) ≤ t.tracked := Int.natCast_nonneg _
      exact ⟨t, ht, hs.pos_eq ▸ hpos, hs.pos_le⟩
    · -- what is out of range and not negative is too large
      apply perform_large
      rcases hall c (hpre.subset (by simp)) with hnonneg | hlarge
      · by_contra hsmall
        push Not at hsmall
        exact hout fun fd hfd => ⟨hnonneg fd hfd, hsmall fd hfd⟩
      · exact hlarge

/-- `close(-1)`: the entry in front of the array is read. -/
theorem indices_fail_negative :
    (TableCall.find (-1)).perform zeroed = .error .outOfBounds ∧ ¬ IndicesInRange [.find (-1)] := by
  have hrun : (TableCall.find (-1)).perform zeroed = .error .outOfBounds := by rfl
  refine ⟨hrun, fun h => ?_⟩
  obtain ⟨t, ht, -⟩ := h.bounded [.find (-1)] (List.prefix_refl _)
  have hrun' : run TableCall.exec zeroed [.find (-1)] = .error .outOfBounds := by rfl
  rw [hrun'] at ht
  cases ht

end Defuse
