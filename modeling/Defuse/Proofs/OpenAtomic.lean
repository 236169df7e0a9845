import Defuse.Proofs.HandleLifetime

/-! `defuse_open` acquires a backend handle, a kernel descriptor and a table entry: what is
left of them when one of the three cannot be had. -/

namespace Defuse

open CSem FileHandleTable

/-- The descriptors open in the kernel after some effects. -/
def kernelAfter (kernel : Finset ℤ) (effects : List Effect) : Finset ℤ :=
  effects.foldl (fun k e =>
    match e with
    | .realOpen fd => insert fd k
    | .realClose fd => k.erase fd
    | _ => k) kernel

/-- The value of `errno` after some effects; a backend's `close` may set it as well. -/
def errnoAfter (closeErrno : Option ℤ) (errno : ℤ) (effects : List Effect) : ℤ :=
  effects.foldl (fun n e =>
    match e with
    | .errno e => e
    | .backendClose _ _ => closeErrno.getD n
    | _ => n) errno

/-- The result of `insert_file_handle` for the new descriptor. -/
def insertError (t : FileHandleTable) (fd : ℤ) : ℤ :=
  match index MAX_FILES fd with
  | .ok i => if (t.lookup i).isSome then EEXIST else 0
  | .error _ => EBADF

/-- The error of the step that fails, zero when none does. -/
def openError (t : FileHandleTable) (o : OpenOutcome) : ℤ :=
  if o.backendRv ≠ 0 then o.backendRv
  else if o.realFd < 0 then o.realErrno
  else insertError t o.realFd

/-- The descriptor is open and the table maps it to the handle, and nothing else has
changed; or the table and the kernel are as before, each handle that was opened has been
closed, and `errno` is the error of the step that failed. -/
def AllOrNothing (t : FileHandleTable) (mp : ℕ) (o : OpenOutcome) (kernel : Finset ℤ)
    (closeErrno : Option ℤ) (errno : ℤ) : Prop :=
  ∃ rv effects t', defuseOpen t mp o = .ok (rv, effects, t') ∧
    (0 ≤ rv ∧ rv ∈ kernelAfter kernel effects ∧
        (∃ i : Fin MAX_FILES, rv = i ∧ t'.lookup = Function.update t.lookup i (some ⟨o.fh, mp⟩)) ∨
      rv = -1 ∧ t' = t ∧ kernelAfter kernel effects ⊆ kernel ∧
        effects.filterMap Effect.closed = effects.filterMap Effect.opened ∧
        errnoAfter closeErrno errno effects = openError t o)

/-- The table has room for the descriptor, and the backend's `close` does not touch `errno`
when there is no descriptor. -/
def OpenSafe (t : FileHandleTable) (o : OpenOutcome) (closeErrno : Option ℤ) : Prop :=
  o.backendRv = 0 →
    if o.realFd < 0 then closeErrno.getD o.realErrno = o.realErrno else insertError t o.realFd = 0

variable {t : FileHandleTable}

theorem insertError_val (t : FileHandleTable) (i : Fin MAX_FILES) :
    insertError t i = if (t.lookup i).isSome then EEXIST else 0 := by
  unfold insertError
  rw [index_val]

theorem insertError_ge (t : FileHandleTable) {fd : ℤ} (h : fd ≥ MAX_FILES) :
    insertError t fd = EBADF := by
  unfold insertError index
  rw [dif_neg (by omega)]

/-- An insertion fails with its error and leaves the table, or makes the entry. -/
theorem insert_error (h : Sound t) {fd : ℤ} (h0 : 0 ≤ fd) (fhd : FileHandleData) :
    (insertError t fd ≠ 0 ∧ t.insertFileHandle fd fhd = .ok (insertError t fd, t)) ∨
    (insertError t fd = 0 ∧ ∃ (i : Fin MAX_FILES) (t' : FileHandleTable), fd = i ∧
      t.insertFileHandle fd fhd = .ok (0, t') ∧
      t'.lookup = Function.update t.lookup i (some fhd)) := by
  by_cases hmax : fd ≥ MAX_FILES
  · left
    rw [insertError_ge t hmax]
    refine ⟨by decide, ?_⟩
    unfold insertFileHandle
    rw [if_pos hmax, pure_eq_ok]
  obtain ⟨i, rfl⟩ := exists_fin ⟨h0, by omega⟩
  rw [insertError_val]
  cases hi : t.fileHandles i with
  | some p =>
    obtain ⟨r, hr, -⟩ := h.live hi
    rw [lookup_of_some hi hr]
    exact Or.inl ⟨by simp [EEXIST], insert_tracked h hi fhd⟩
  | none =>
    obtain ⟨n, hn⟩ := h.room hi
    rw [lookup_of_none hi]
    refine Or.inr ⟨rfl, i, _, rfl, insert_untracked hi hn fhd, ?_⟩
    funext j
    rw [lookup_inserted h fhd, Function.update_apply]

/-- `defuse_open` is all or nothing exactly when its table has room for the descriptor it
gets, and `errno` survives the close when it gets none. -/
theorem all_or_nothing_iff (t : FileHandleTable) (mp : ℕ) (o : OpenOutcome) (kernel : Finset ℤ)
    (closeErrno : Option ℤ) (errno : ℤ) (ht : Sound t) (hreal : -1 ≤ o.realFd)
    (hnew : 0 ≤ o.realFd → o.realFd ∉ kernel) :
    AllOrNothing t mp o kernel closeErrno errno ↔ OpenSafe t o closeErrno := by
  unfold AllOrNothing OpenSafe defuseOpen openError
  by_cases hrv : o.backendRv = 0
  swap
  · simp only [hrv, if_false, pure_eq_ok, ne_eq, not_false_eq_true, if_true, false_imp_iff,
      iff_true]
    exact ⟨-1, _, t, rfl, Or.inr ⟨rfl, rfl, subset_rfl, rfl, rfl⟩⟩
  simp only [hrv, if_true, true_imp_iff, ne_eq, not_true_eq_false, if_false]
  rcases lt_or_ge o.realFd 0 with hneg | hpos
  · -- no descriptor: the handle is closed after `errno` was set
    simp only [hneg, if_true, ge_iff_le, not_le.mpr hneg, if_false, pure_eq_ok]
    refine ⟨?_, fun h => ⟨o.realFd, _, t, rfl, Or.inr ⟨by omega, rfl, subset_rfl, rfl, h⟩⟩⟩
    rintro ⟨rv, effects, t', heq, h⟩
    cases heq
    rcases h with ⟨h0, -⟩ | ⟨-, -, -, -, herr⟩
    · omega
    · exact herr
  simp only [ge_iff_le, hpos, if_true, not_lt.mpr hpos, if_false]
  rcases insert_error ht hpos ⟨o.fh, mp⟩ with ⟨hne, hins⟩ | ⟨hzero, i, t', hi, hins, hlook⟩
  · -- no entry: the descriptor stays open
    rw [hins, ok_bind]
    refine iff_of_false ?_ hne
    rintro ⟨rv, effects, t', heq, h⟩
    simp only [hne, if_true, not_false_eq_true, pure_eq_ok] at heq
    cases heq
    rcases h with ⟨h0, -⟩ | ⟨-, -, hsub, -⟩
    · omega
    · exact hnew hpos (hsub (Finset.mem_insert_self _ _))
  · rw [hins, ok_bind]
    refine iff_of_true ⟨o.realFd, _, t', rfl, Or.inl ⟨hpos, ?_, i, hi, hlook⟩⟩ hzero
    exact Finset.mem_insert_self _ _

/-- The first open of a process. -/
theorem all_or_nothing_first :
    Sound zeroed ∧ AllOrNothing zeroed 0 ⟨0, 7, 3, 0⟩ {0, 1, 2} (some EIO) 0 :=
  ⟨zeroed_sound, (all_or_nothing_iff zeroed 0 ⟨0, 7, 3, 0⟩ {0, 1, 2} (some EIO) 0 zeroed_sound
    (by decide) (by decide)).mpr (by intro _; decide)⟩

/-- With descriptor 1024 there is no entry: the handle is closed, the descriptor is not. -/
theorem not_all_or_nothing_many_files :
    (defuseOpen zeroed 0 ⟨0, 7, 1024, 0⟩).map (fun r => (r.1, r.2.1)) =
        .ok (-1, [.backendOpen 0 7, .realOpen 1024, .backendClose 0 7, .errno EBADF]) ∧
      ¬ AllOrNothing zeroed 0 ⟨0, 7, 1024, 0⟩ {0, 1, 2} none 0 := by
  have hrun : (defuseOpen zeroed 0 ⟨0, 7, 1024, 0⟩).map (fun r => (r.1, r.2.1)) =
      .ok (-1, [.backendOpen 0 7, .realOpen 1024, .backendClose 0 7, .errno EBADF]) := by decide
  refine ⟨hrun, ?_⟩
  rintro ⟨rv, effects, t', heq, h⟩
  have hview := map_ok hrun heq
  obtain ⟨rfl, rfl⟩ := Prod.mk.inj hview
  rcases h with ⟨h0, -⟩ | ⟨-, -, hsub, -⟩
  · omega
  · exact absurd hsub (by decide)

end Defuse
