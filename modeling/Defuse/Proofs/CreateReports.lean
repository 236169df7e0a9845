import Defuse.Proofs.ModuleRuns

/-! Creating an object: what `defuse_create_object` returns and leaves behind, against what became
of the backend object. -/

namespace Defuse.WrapModule

open CSem Proc

variable {fullNameHash : Seg → ℕ} {P : Placement} {k : Kernel} {m m₁ m₂ : State} {b : Held} {dir entry : ℕ}
  {mode : UInt16} {hardlink : Option ℕ}

def returned : Except ℤ (Option ℤ) → ℤ
  | .error err => err
  | .ok _ => 0

/-- The result of the backend call, none if there was none. -/
def backendResult : Except ℤ (Option ℤ) → Option ℤ
  | .error _ => none
  | .ok res => res

def NoneDangling (m m₁ : State) : Prop :=
  ∀ i b r, (m₁.inodes i).bDentry = some b → b.ref = some r → r ∈ m₁.released →
    (m.inodes i).bDentry = some b ∧ r ∈ m.released

/-- The caller is told what became of the object, and of a failure nothing is left. -/
structure Reports (entry : ℕ) (m : State) (r : Except ℤ (Option ℤ)) (m₁ : State) : Prop where
  zero : returned r = 0 ↔ backendResult r = some 0
  error : ∀ err, backendResult r = some err → err ≠ 0 → returned r = err
  entry : backendResult r ≠ some 0 → m₁.inodeOf entry = m.inodeOf entry
  dangling : backendResult r ≠ some 0 → NoneDangling m m₁
  writers : m₁.writers = m.writers

/-! Failing before the backend call -/

/-- What a failure before the backend call leaves. -/
structure Quiet (m m₁ : State) : Prop where
  dentries : m₁.dentries = m.dentries
  writers : m₁.writers = m.writers
  dangling : NoneDangling m m₁

theorem State.Extends.quiet (h : m.Extends m₁) (hm : m.Sound P) : Quiet m m₁ where
  dentries := h.dentries
  writers := h.writers
  dangling := by
    intro i b r hb hr hrel
    rw [h.released] at hrel
    obtain hb₀ | hnew := h.stored i b r hb hr
    · exact ⟨hb₀, hrel⟩
    · have := hm.released r hrel
      omega

theorem State.Extends.quiet_dput (h : m.Extends m₁) (hm : m.Sound P) (hb : b.New m m₁) :
    Quiet m (m₁.dput b) := by
  have hq := h.quiet hm
  unfold State.dput
  split
  case h_2 => exact ⟨hq.dentries, hq.writers, hq.dangling⟩
  case h_1 r hr =>
    refine ⟨hq.dentries, hq.writers, ?_⟩
    intro i b' r' hb' hr' hrel
    obtain rfl | hrel := List.mem_cons.mp hrel
    · exact absurd hr' (hb.unstored r' hr i b' hb')
    · exact hq.dangling i b' r' hb' hr' hrel

theorem Undone.quiet (h : Undone m m₁) (hm : m.Sound P) : Quiet m m₁ := by
  cases h with
  | kept h => exact h.quiet hm
  | put h hb => exact h.quiet_dput hm hb

/-! The backend call -/

/-- Nothing stops the call before the backend function is to be called. -/
def ReachesBackend (fullNameHash : Seg → ℕ) (k : Kernel) (dir entry : ℕ) (mode : UInt16)
    (hardlink : Option ℕ) (m : State) : Prop :=
  k.wantWrite = 0 ∧ ∃ target m₁,
    createTarget fullNameHash k dir entry mode hardlink m.wantWrite = .ok (.ok target, m₁)

theorem Quiet.reports (h : Quiet m.wantWrite m₁) {err : ℤ} (herr : err ≠ 0) :
    Reports entry m (.error err) m₁.dropWrite where
  zero := by simp [returned, backendResult, herr]
  error := fun err' h' => nomatch h'
  entry := fun _ => congrArg (List.lookup entry) h.dentries
  dangling := fun _ => h.dangling
  writers := by
    have := h.writers
    simp only [State.wantWrite, State.dropWrite] at this ⊢
    omega

theorem doCreate_reached {target : Held × ℕ}
    (h : createTarget fullNameHash k dir entry mode hardlink m = .ok (.ok target, m₁)) :
    ∃ m₂, doCreate fullNameHash k dir entry mode hardlink m =
      .ok (.ok (vfsCreate k mode hardlink), m₂) ∧ m₂.writers = m₁.writers := by
  have hends : (doCreate fullNameHash k dir entry mode hardlink).Ends m fun r m₂ =>
      r = .ok (vfsCreate k mode hardlink) ∧ m₂.writers = m₁.writers := by
    unfold doCreate
    rw [ends_bind]
    refine ⟨_, _, h, ?_⟩
    simp only [ends_update_bind, ends_pure, State.setBDentry, State.instantiate, true_and]
    split_ifs
    · rfl
    · unfold State.dput
      split <;> rfl
  obtain ⟨r, m₂, hrun, rfl, hw⟩ := hends
  exact ⟨m₂, hrun, hw⟩

/-- Exactly the calls that stop before the backend call or make it with success report the
outcome. -/
theorem create_reports_iff (hm : m.Sound .anywhere) :
    (createObject fullNameHash k dir entry mode hardlink).Ends m (Reports entry m) ↔
      (ReachesBackend fullNameHash k dir entry mode hardlink m →
        vfsCreate k mode hardlink = some 0) := by
  unfold createObject withWrite
  split_ifs with hwant
  · rw [ends_update_bind, ends_thenAlways]
    constructor
    · intro hends hreach
      obtain ⟨-, target, m₁, htarget⟩ := hreach
      obtain ⟨m₂, hrun, -⟩ := doCreate_reached htarget
      obtain ⟨r, m₃, hrun', hreports⟩ := hends
      rw [hrun] at hrun'
      cases hrun'
      exact hreports.zero.mp rfl
    · intro hok
      obtain ⟨r, m₁, htarget, hend⟩ := createTarget_ends (Placement.finds_anywhere k) hm.wantWrite
        fun _ _ _ _ _ _ _ => trivial
      cases r with
      | error err =>
        unfold doCreate
        rw [ends_bind]
        exact ⟨_, _, htarget, (hend.undone.quiet hm.wantWrite).reports hend.err_ne⟩
      | ok target =>
        have hmade := hok ⟨hwant, target, m₁, htarget⟩
        obtain ⟨m₂, hrun, hw⟩ := doCreate_reached htarget
        rw [hmade] at hrun
        refine ⟨_, _, hrun, ?_⟩
        constructor
        · simp [returned, backendResult]
        · intro err h hne
          exact absurd (Option.some.inj h).symm hne
        · exact fun h => absurd rfl h
        · exact fun h => absurd rfl h
        · simp only [State.dropWrite, hw, hend.writers, State.wantWrite]
          omega
  · rw [ends_fail]
    constructor
    · exact fun _ hreach => absurd hreach.1 hwant
    · intro _
      constructor
      · simp [returned, backendResult, hwant]
      · exact fun err h => nomatch h
      · exact fun _ => rfl
      · exact fun _ i b r hb _ hrel => ⟨hb, hrel⟩
      · rfl

/-- A regular file is made in the root. -/
theorem create_reports_regular :
    (createObject List.length (sampleKernel [0] 0) 0 1 S_IFREG none sampleMounted).map
        (fun end_ => (end_.1, end_.2.inodeOf 1, end_.2.released)) =
      .ok (.ok (some 0), some 1, [0]) ∧
    (createObject List.length (sampleKernel [0] 0) 0 1 S_IFREG none).Ends sampleMounted
      (Reports 1 sampleMounted) :=
  ⟨by decide +kernel, (create_reports_iff sampleMounted_sound).mpr fun _ => rfl⟩

/-- The backend has no space for the file. The call returns 0, the entry gets inode 1, and that
stores a backend dentry whose reference, number 1, is released. -/
theorem create_hides_failure :
    (createObject List.length (sampleKernel [0] (- ENOSPC)) 0 1 S_IFREG none sampleMounted).map
        (fun end_ => (end_.1, end_.2.inodeOf 1, (end_.2.inodes 1).bDentry, end_.2.released)) =
      .ok (.ok (some (- ENOSPC)), some 1, some ⟨.backend 1, some 1⟩, [1, 0]) ∧
    ¬ (createObject List.length (sampleKernel [0] (- ENOSPC)) 0 1 S_IFREG none).Ends sampleMounted
      (Reports 1 sampleMounted) := by
  have hrun : (createObject List.length (sampleKernel [0] (- ENOSPC)) 0 1 S_IFREG none
      sampleMounted).map
        (fun end_ => (end_.1, end_.2.inodeOf 1, (end_.2.inodes 1).bDentry, end_.2.released)) =
      .ok (.ok (some (- ENOSPC)), some 1, some ⟨.backend 1, some 1⟩, [1, 0]) := by
    decide +kernel
  refine ⟨hrun, ?_⟩
  intro hends
  obtain ⟨r, m₁, hr, hreports⟩ := hends
  have hview : r = .ok (some (- ENOSPC)) := congrArg Prod.fst (map_ok hrun hr)
  have hzero := hreports.zero
  rw [hview] at hzero
  exact absurd (hzero.mp rfl) (by decide)

end Defuse.WrapModule
