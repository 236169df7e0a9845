import Defuse.Spec.ReadWrite

/-! The exits of `defuse_read` and `defuse_write`: what the offset, the lock and the result
are when a call that nothing interrupts has ended. -/

namespace Defuse

open CSem

variable {file : OpenFile} {pid : ℕ} {lock seek transfer : Reply}

def lockError (file : OpenFile) (pid : ℕ) (lock : Reply) : ℤ :=
  if lock.err ≠ 0 then lock.err else if file.locks.conflicts pid .rdlck then EAGAIN else 0

/-- The error of the first step that fails, zero when none does. -/
def callError (file : OpenFile) (pid : ℕ) (lock seek transfer : Reply) : ℤ :=
  if lockError file pid lock ≠ 0 then lockError file pid lock
  else if seek.err ≠ 0 then seek.err else transfer.err

theorem lockError_eq_zero :
    lockError file pid lock = 0 ↔ lock.err = 0 ∧ file.locks.conflicts pid .rdlck = false := by
  unfold lockError EAGAIN
  split_ifs with herr hconf
  · simp [herr]
  · simp [hconf]
  · simp [not_not.mp herr, hconf]

theorem call_refused (op : IoOp) (count : ℕ) (h : lockError file pid lock ≠ 0) :
    op.call file pid count lock seek transfer =
      (file, ⟨op, pid, count, .failed 0 (lockError file pid lock)⟩) := by
  unfold lockError at *
  unfold IoOp.call IoCall.advance
  split_ifs at h ⊢ with herr hconf
  · simp [herr]
  · simp [not_not.mp herr, hconf]
  · exact absurd rfl h

def OpenFile.locked (file : OpenFile) (pid : ℕ) : OpenFile :=
  { file with locks := file.locks.acquire pid .rdlck }

section Granted

variable (op : IoOp) (count : ℕ) (h : lockError file pid lock = 0)

include h

theorem call_unseekable (hseek : seek.err ≠ 0) : op.call file pid count lock seek transfer =
    (file.locked pid, ⟨op, pid, count, .failed 0 seek.err⟩) := by
  obtain ⟨herr, hconf⟩ := lockError_eq_zero.mp h
  simp [IoOp.call, IoCall.advance, OpenFile.locked, herr, hconf, hseek]

theorem call_failing (hseek : seek.err = 0) (hfails : transfer.err ≠ 0) :
    op.call file pid count lock seek transfer =
      (file.locked pid, ⟨op, pid, count, .failed (-1) transfer.err⟩) := by
  obtain ⟨herr, hconf⟩ := lockError_eq_zero.mp h
  simp [IoOp.call, IoCall.advance, OpenFile.locked, herr, hconf, hseek, hfails]

theorem call_done (hseek : seek.err = 0) (hdone : transfer.err = 0) :
    op.call file pid count lock seek transfer =
      (⟨lseekSet file.offset (file.offset + transfer.n), (file.locked pid).locks.release pid⟩,
        ⟨op, pid, count, .returned file.offset transfer.n⟩) := by
  obtain ⟨herr, hconf⟩ := lockError_eq_zero.mp h
  simp [IoOp.call, IoCall.advance, OpenFile.locked, herr, hconf, hseek, hdone]

end Granted

theorem release_free (locks : Locks) (pid : ℕ) : ∀ l ∈ locks.release pid, l.1 ≠ pid := by
  intro l hl
  simpa using (List.mem_filter.mp hl).2

theorem locked_held (file : OpenFile) (pid : ℕ) : ¬ ∀ l ∈ (file.locked pid).locks, l.1 ≠ pid :=
  fun h => h (pid, .rdlck) List.mem_cons_self rfl

/-- A result `n ≥ 0` comes from a transfer of `n` bytes at the offset the kernel reported,
which has moved by `n`; any other is -1, with the error of the step that failed and the
offset where it was. The lock is gone if it was granted. -/
def ConsistentExit (op : IoOp) (file : OpenFile) (pid count : ℕ)
    (lock seek transfer : Reply) : Prop :=
  ∃ file' c rv errno, op.call file pid count lock seek transfer = (file', c) ∧
    c.pc.result = some (rv, errno) ∧
    (0 ≤ rv → c.pc = .returned file.offset transfer.n ∧ rv = transfer.n ∧
      file'.offset = file.offset + transfer.n) ∧
    (rv < 0 → rv = -1 ∧ errno = callError file pid lock seek transfer ∧ errno ≠ 0 ∧
      file'.offset = file.offset) ∧
    (lockError file pid lock = 0 → ∀ l ∈ file'.locks, l.1 ≠ pid)

/-- The exit is consistent exactly when no step fails and the offset behind the transfer is
one the kernel can store. -/
theorem consistent_exit_iff (op : IoOp) (file : OpenFile) (pid count : ℕ)
    (lock seek transfer : Reply) (hcount : count < 2 ^ 64) (hn : transfer.n ≤ count)
    (hoff : file.offset ≤ OFF_MAX) :
    ConsistentExit op file pid count lock seek transfer ↔
      callError file pid lock seek transfer = 0 ∧ file.offset + transfer.n ≤ OFF_MAX := by
  unfold ConsistentExit callError
  by_cases hlock : lockError file pid lock = 0
  swap
  · -- the lock is refused: the result is 0, without a transfer
    rw [call_refused op count hlock, if_pos hlock]
    refine ⟨?_, fun h => absurd h.1 hlock⟩
    rintro ⟨_, _, rv, errno, heq, hres, hpos, -⟩
    cases heq
    cases hres
    cases (hpos le_rfl).1
  rw [if_neg (not_not.mpr hlock)]
  by_cases hseek : seek.err = 0
  swap
  · rw [call_unseekable op count hlock hseek, if_pos hseek]
    refine ⟨?_, fun h => absurd h.1 hseek⟩
    rintro ⟨_, _, rv, errno, heq, hres, hpos, -⟩
    cases heq
    cases hres
    cases (hpos le_rfl).1
  rw [if_neg (not_not.mpr hseek)]
  by_cases hdone : transfer.err = 0
  swap
  · -- the backend fails: the lock is kept
    rw [call_failing op count hlock hseek hdone]
    refine ⟨?_, fun h => absurd h.1 hdone⟩
    rintro ⟨_, _, rv, errno, heq, -, -, -, hfree⟩
    cases heq
    exact absurd (hfree hlock) (locked_held file pid)
  rw [call_done op count hlock hseek hdone]
  refine ⟨?_, ?_⟩
  · rintro ⟨_, _, rv, errno, heq, hres, hpos, hneg, -⟩
    cases heq
    obtain ⟨rfl, rfl⟩ := Prod.mk.inj (Option.some.inj hres)
    refine ⟨hdone, ?_⟩
    rcases Nat.lt_or_ge transfer.n (2 ^ 63) with hlt | hge
    · have hmoved := (hpos (by rw [asI64_natCast hlt]; omega)).2.2
      by_contra hcon
      have hwrap : (file.offset + transfer.n) % 2 ^ 64 = file.offset + transfer.n :=
        Nat.mod_eq_of_lt (by unfold OFF_MAX at hoff; omega)
      unfold lseekSet at hmoved
      rw [hwrap, if_neg hcon] at hmoved
      simp only at hmoved
      omega
    · exact absurd rfl (hneg (asI64_neg hge (by omega))).2.2.1
  · rintro ⟨-, hroom⟩
    have hres : asI64 transfer.n = transfer.n :=
      asI64_natCast (by unfold OFF_MAX at hroom; omega)
    refine ⟨_, _, _, _, rfl, rfl, fun _ => ⟨rfl, hres, lseekSet_of_le hroom⟩, fun h => ?_,
      fun _ => release_free _ pid⟩
    rw [hres] at h
    omega

/-- Four of ten bytes are read. -/
theorem consistent_exit_short_read :
    (4 : ℕ) ≤ 10 ∧ ConsistentExit .read ⟨100, []⟩ 1 10 ⟨0, 0⟩ ⟨0, 0⟩ ⟨0, 4⟩ :=
  ⟨by decide, (consistent_exit_iff .read ⟨100, []⟩ 1 10 ⟨0, 0⟩ ⟨0, 0⟩ ⟨0, 4⟩ (by decide)
    (by decide) (by decide)).mpr (by decide)⟩

/-- A lock of another process: the read returns 0, as at the end of the file. -/
theorem inconsistent_exit_lock :
    ((IoOp.read.call ⟨100, [(2, .wrlck)]⟩ 1 10 ⟨0, 0⟩ ⟨0, 0⟩ ⟨0, 4⟩).2.pc.result =
        some (0, EAGAIN)) ∧
      ¬ ConsistentExit .read ⟨100, [(2, .wrlck)]⟩ 1 10 ⟨0, 0⟩ ⟨0, 0⟩ ⟨0, 4⟩ := by
  refine ⟨by decide, ?_⟩
  rintro ⟨file', c, rv, errno, heq, hres, hpos, -⟩
  have hcall : IoOp.read.call ⟨100, [(2, .wrlck)]⟩ 1 10 ⟨0, 0⟩ ⟨0, 0⟩ ⟨0, 4⟩ =
      (⟨100, [(2, .wrlck)]⟩, ⟨.read, 1, 10, .failed 0 EAGAIN⟩) := by decide
  rw [hcall] at heq
  cases heq
  cases hres
  cases (hpos le_rfl).1

end Defuse
