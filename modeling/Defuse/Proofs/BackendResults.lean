import Defuse.Proofs.CallExits
import Defuse.Spec.Wrappers

/-! The results of the operations below a wrapper, as the callers of `libdefuse` get them. -/

namespace Defuse

open CSem

/-- What crosses the boundary: the outcome of a transfer or of another operation. -/
inductive Crossing
  | transfer (op : IoOp) (o : Except Errno ℕ)
  | fileOp (op : FileOp) (o : Except Errno Unit)

def Crossing.Seekable (file : OpenFile) : Crossing → Prop
  | .transfer _ (.ok n) => file.offset + n ≤ OFF_MAX
  | _ => True

/-- A call has returned the count and moved the offset by it, or returned -1 with the error
number and left the offset alone. -/
def Arrives (file file' : OpenFile) (pc : Pc) : Except Errno ℕ → Prop
  | .ok n => pc.result.map Prod.fst = some (n : ℤ) ∧ file'.offset = file.offset + n
  | .error e => pc.result = some (-1, e.val) ∧ file'.offset = file.offset

/-- The caller of `defuse_read` or `defuse_write` gets the outcome, from what the wrapper returns. -/
def IoOp.Delivers (op : IoOp) (file : OpenFile) (pid count : ℕ) (returned : Checked (ℤ × ℕ))
    (o : Except Errno ℕ) : Prop :=
  ∃ ret bytes, returned = .ok (ret, bytes) ∧
    Arrives file (op.call file pid count ⟨0, 0⟩ ⟨0, 0⟩ ⟨ret, bytes⟩).1
      (op.call file pid count ⟨0, 0⟩ ⟨0, 0⟩ ⟨ret, bytes⟩).2.pc o

/-- The outcome of a transfer arrives at the caller of `defuse_read` or `defuse_write`; the
other operations return zero or the error number. -/
def Wrapper.Carries (w : Wrapper) (stale : ℤ) (file : OpenFile) (pid count : ℕ) :
    Crossing → Prop
  | .transfer op o => op.Delivers file pid count (w.transfer stale o op) o
  | .fileOp op (.ok _) => w.fileOp stale (.ok ()) op = .ok 0
  | .fileOp op (.error e) => w.fileOp stale (.error e) op = .ok e.val

/-- The outcomes a wrapper passes on: counts that fit an `int`, and no error of `close`. Of
`sshfs` only the operations with a path return at all. -/
def Wrapper.PassesOn : Wrapper → Crossing → Prop
  | .sshfs, .transfer _ _ => False
  | .sshfs, .fileOp op _ => ∃ path, op = .unlink path ∨ ∃ length, op = .truncate path length
  | _, .transfer _ (.ok n) => n ≤ INT_MAX
  | _, .transfer _ (.error _) => True
  | _, .fileOp .close o => o.isOk
  | _, .fileOp _ _ => True

theorem Crossing.Seekable.lt {file : OpenFile} {op : IoOp} {n : ℕ}
    (h : (Crossing.transfer op (.ok n)).Seekable file) : n < 2 ^ 64 := by
  unfold Crossing.Seekable OFF_MAX at h
  omega

theorem negInt_errno (e : Errno) : negInt (-e.val) = .ok e.val := by
  rw [negInt_ok (by have := e.prop.2; omega), neg_neg]

theorem asI64_count (n : ℤ) : asI64 (asU64 (asInt n)) = asInt n := by
  have hle := asInt_le n
  have hge := le_asInt n
  unfold INT_MAX at hle hge
  exact asI64_asU64 (by omega) (by omega)

section Transfer

variable {file : OpenFile} {pid : ℕ} (op : IoOp) (count : ℕ)
  (hlock : file.locks.conflicts pid .rdlck = false)

include hlock

theorem call_result (ret : ℤ) (bytes : ℕ) :
    (op.call file pid count ⟨0, 0⟩ ⟨0, 0⟩ ⟨ret, bytes⟩).2.pc.result =
      (if ret = 0 then some (asI64 bytes, 0) else some (-1, ret)) ∧
    (op.call file pid count ⟨0, 0⟩ ⟨0, 0⟩ ⟨ret, bytes⟩).1.offset =
      if ret = 0 then lseekSet file.offset (file.offset + bytes) else file.offset := by
  have hfree : lockError file pid ⟨0, 0⟩ = 0 := lockError_eq_zero.mpr ⟨rfl, hlock⟩
  by_cases hret : ret = 0
  · rw [call_done op count hfree rfl hret, if_pos hret, if_pos hret]
    exact ⟨rfl, rfl⟩
  · rw [call_failing op count hfree rfl hret, if_neg hret, if_neg hret]
    exact ⟨rfl, rfl⟩

theorem delivers_failure {returned : Checked (ℤ × ℕ)} {e : Errno} (bytes : ℕ)
    (h : returned = .ok (e.val, bytes)) : op.Delivers file pid count returned (.error e) := by
  have hne : e.val ≠ 0 := by
    have := e.prop.1
    omega
  obtain ⟨hres, hoff⟩ := call_result op count hlock e.val bytes
  rw [if_neg hne] at hres hoff
  exact ⟨e.val, bytes, h, hres, hoff⟩

theorem delivers_count {returned : Checked (ℤ × ℕ)} {n : ℕ} (hroom : file.offset + n ≤ OFF_MAX)
    (h : returned = .ok (0, n)) : op.Delivers file pid count returned (.ok n) := by
  obtain ⟨hres, hoff⟩ := call_result op count hlock 0 n
  rw [if_pos rfl] at hres hoff
  refine ⟨0, n, h, ?_, hoff.trans (lseekSet_of_le hroom)⟩
  rw [hres, asI64_natCast (by unfold OFF_MAX at hroom; omega)]
  rfl

theorem not_delivers_count {returned : Checked (ℤ × ℕ)} {n : ℕ}
    (h : ∀ ret bytes, returned = .ok (ret, bytes) → ret ≠ 0 ∨ asI64 bytes ≠ n) :
    ¬ op.Delivers file pid count returned (.ok n) := by
  rintro ⟨ret, bytes, hw, hrv, -⟩
  rw [(call_result op count hlock ret bytes).1] at hrv
  by_cases hret : ret = 0
  · rw [if_pos hret, Option.map_some, Option.some_inj] at hrv
    dsimp only at hrv
    rcases h ret bytes hw with hne | hne
    · exact hne hret
    · exact hne hrv
  · rw [if_neg hret, Option.map_some, Option.some_inj] at hrv
    omega

theorem delivers_int_iff {returned : Checked (ℤ × ℕ)} {n : ℕ} (hroom : file.offset + n ≤ OFF_MAX)
    (hfits : asInt n = n → returned = .ok (0, n))
    (hcut : asInt n ≠ n → ∀ ret bytes, returned = .ok (ret, bytes) → ret ≠ 0 ∨ asI64 bytes ≠ n) :
    op.Delivers file pid count returned (.ok n) ↔ (n : ℤ) ≤ INT_MAX := by
  constructor
  · intro h
    by_contra hcon
    have hne : asInt n ≠ n := fun heq => hcon (le_of_eq_of_le heq.symm (asInt_le n))
    exact not_delivers_count op count hlock (hcut hne) h
  · intro h
    exact delivers_count op count hlock hroom (hfits (asInt_of_le (by omega) h))

theorem usfs_transfer_iff (backend : List UInt8) (stale : ℤ) (o : Except Errno ℕ)
    (hroom : (Crossing.transfer op o).Seekable file) :
    (Wrapper.usfs backend).Carries stale file pid count (.transfer op o) ↔
      (Wrapper.usfs backend).PassesOn (.transfer op o) := by
  have hw : (Wrapper.usfs backend).transfer stale o op = .ok (sysRet stale o).transferred := by
    cases op <;> rfl
  cases o with
  | error e => exact iff_of_true (delivers_failure op count hlock 0 hw) trivial
  | ok n =>
    apply delivers_int_iff op count hlock hroom
    · intro hn
      have hlt := hroom.lt
      rw [hw]
      unfold SysRet.transferred sysRet
      simp only
      rw [hn, if_neg (by omega), asU64_natCast hlt]
    · intro hne ret bytes hret
      rw [hw] at hret
      have hpair := Except.ok.inj hret
      unfold SysRet.transferred sysRet at hpair
      simp only at hpair
      by_cases hone : asInt n = -1
      · -- the count -1 is taken for a failure
        rw [if_pos hone] at hpair
        obtain ⟨-, rfl⟩ := Prod.mk.inj hpair
        right
        rw [asI64_natCast (by norm_num)]
        intro h0
        obtain rfl : 0 = n := Nat.cast_injective h0
        exact hne rfl
      · rw [if_neg hone] at hpair
        obtain ⟨-, rfl⟩ := Prod.mk.inj hpair
        right
        rwa [asI64_count]

theorem hdfs_transfer_iff (stale : ℤ) (o : Except Errno ℕ)
    (hroom : (Crossing.transfer op o).Seekable file) :
    Wrapper.hdfs.Carries stale file pid count (.transfer op o) ↔
      Wrapper.hdfs.PassesOn (.transfer op o) := by
  have hw : Wrapper.hdfs.transfer stale o op = HdfsWrap.transfer (opRc o) 0 := by
    cases op <;> rfl
  cases o with
  | error e =>
    refine iff_of_true (delivers_failure op count hlock 0 (hw.trans ?_)) trivial
    unfold HdfsWrap.transfer opRc
    simp only
    rw [if_pos (by have := e.prop.1; omega), negInt_errno]
    rfl
  | ok n =>
    apply delivers_int_iff op count hlock hroom
    · intro hn
      have hlt := hroom.lt
      rw [hw]
      unfold HdfsWrap.transfer opRc
      simp only
      rw [hn, if_neg (by omega), asU64_natCast hlt]
      rfl
    · intro hne ret bytes hret
      rw [hw] at hret
      unfold HdfsWrap.transfer opRc at hret
      simp only at hret
      by_cases hneg : asInt n < 0
      · rw [if_pos hneg] at hret
        left
        unfold negInt at hret
        split_ifs at hret
        · cases hret
        · have := (Prod.mk.inj (Except.ok.inj hret)).1
          omega
      · rw [if_neg hneg] at hret
        obtain ⟨-, rfl⟩ := Prod.mk.inj (Except.ok.inj hret)
        right
        rwa [asI64_count]

/-- What `return -rc` without the count would pass on from an operation that returned: the failures
and the count zero. -/
theorem sshfs_rc_iff (o : Except Errno ℕ) (hroom : (Crossing.transfer op o).Seekable file) :
    op.Delivers file pid count (SshfsWrap.transfer (opRc o) 0) o ↔ ∀ n, o = .ok n → n = 0 := by
  cases o with
  | error e =>
    refine iff_of_true (delivers_failure op count hlock 0 ?_) fun n hn => by cases hn
    unfold SshfsWrap.transfer opRc
    simp only
    rw [negInt_errno]
    rfl
  | ok n =>
    refine ⟨fun h m hm => ?_, fun h => delivers_count op count hlock hroom ?_⟩
    · -- the count of the caller stays zero
      cases hm
      by_contra hcon
      refine not_delivers_count op count hlock (fun ret bytes hret => ?_) h
      unfold SshfsWrap.transfer negInt at hret
      split_ifs at hret
      · cases hret
      · obtain ⟨-, rfl⟩ := Prod.mk.inj (Except.ok.inj hret)
        right
        rw [asI64_natCast (by norm_num)]
        exact fun h0 => hcon (Nat.cast_injective h0).symm
    · obtain rfl : n = 0 := h n rfl
      rfl

end Transfer

/-- With a handle `sshfs` reads behind the parameter it has the address of; the other operations
return zero on success and a failure as its error number. -/
theorem sshfs_fileOp_iff (stale : ℤ) (file : OpenFile) (pid count : ℕ) (op : FileOp)
    (o : Except Errno Unit) :
    Wrapper.sshfs.Carries stale file pid count (.fileOp op o) ↔
      Wrapper.sshfs.PassesOn (.fileOp op o) := by
  have hfault {r : ℤ} : (Except.error Fault.outOfBounds : Checked ℤ) ≠ .ok r := by simp
  cases op with
  | fsync =>
    refine iff_of_false ?_ (by rintro ⟨path, h | ⟨length, h⟩⟩ <;> cases h)
    cases o <;> exact hfault
  | ftruncate =>
    refine iff_of_false ?_ (by rintro ⟨path, h | ⟨length, h⟩⟩ <;> cases h)
    cases o <;> exact hfault
  | close =>
    refine iff_of_false ?_ (by rintro ⟨path, h | ⟨length, h⟩⟩ <;> cases h)
    cases o <;> exact hfault
  | truncate path length =>
    refine iff_of_true ?_ ⟨path, Or.inr ⟨length, rfl⟩⟩
    cases o with
    | ok u => rfl
    | error e => exact negInt_errno e
  | unlink path =>
    refine iff_of_true ?_ ⟨path, Or.inl rfl⟩
    cases o with
    | ok u => rfl
    | error e => exact negInt_errno e

theorem usfs_fileOp_iff (backend : List UInt8) (stale : ℤ) (file : OpenFile) (pid count : ℕ)
    (op : FileOp) (o : Except Errno Unit) :
    (Wrapper.usfs backend).Carries stale file pid count (.fileOp op o) ↔
      (Wrapper.usfs backend).PassesOn (.fileOp op o) := by
  cases o with
  | ok u => exact iff_of_true (by cases op <;> rfl) (by cases op <;> trivial)
  | error e =>
    cases op with
    | close =>
      refine iff_of_false (fun h => ?_) Bool.false_ne_true
      have hpos := e.prop.1
      have : (-1 : ℤ) = e.val := Except.ok.inj h
      omega
    | _ => exact iff_of_true rfl trivial

theorem hdfs_fileOp_iff (stale : ℤ) (file : OpenFile) (pid count : ℕ) (op : FileOp)
    (o : Except Errno Unit) :
    Wrapper.hdfs.Carries stale file pid count (.fileOp op o) ↔
      Wrapper.hdfs.PassesOn (.fileOp op o) := by
  cases o with
  | ok u => exact iff_of_true (by cases op <;> rfl) (by cases op <;> trivial)
  | error e =>
    cases op with
    | close =>
      refine iff_of_false (fun h => ?_) Bool.false_ne_true
      have hpos := e.prop.1
      have : (0 : ℤ) = e.val := Except.ok.inj h
      omega
    | _ => exact iff_of_true (negInt_errno e) trivial

/-- An outcome arrives exactly when the wrapper is one that passes it on. -/
theorem carries_iff (w : Wrapper) (stale : ℤ) (file : OpenFile) (pid count : ℕ) (x : Crossing)
    (hlock : file.locks.conflicts pid .rdlck = false) (hseek : x.Seekable file) :
    w.Carries stale file pid count x ↔ w.PassesOn x := by
  cases x with
  | fileOp op o =>
    cases w with
    | usfs backend => exact usfs_fileOp_iff backend stale file pid count op o
    | hdfs => exact hdfs_fileOp_iff stale file pid count op o
    | sshfs => exact sshfs_fileOp_iff stale file pid count op o
  | transfer op o =>
    cases w with
    | usfs backend => exact usfs_transfer_iff op count hlock backend stale o hseek
    | hdfs => exact hdfs_transfer_iff op count hlock stale o hseek
    | sshfs =>
      refine iff_of_false ?_ id
      rintro ⟨ret, bytes, h, -⟩
      cases op <;> cases h

/-- A short read over `hdfs`. -/
theorem carries_short_read :
    (Crossing.transfer .read (.ok 5)).Seekable ⟨100, []⟩ ∧
      Wrapper.hdfs.Carries 0 ⟨100, []⟩ 1 10 (.transfer .read (.ok 5)) :=
  have hseek : 100 + 5 ≤ OFF_MAX := by decide
  have hpasses : ((5 : ℕ) : ℤ) ≤ INT_MAX := by decide
  ⟨hseek, (carries_iff .hdfs 0 ⟨100, []⟩ 1 10 (.transfer .read (.ok 5)) (by decide)
    hseek).mpr hpasses⟩

/-- The system call of `usfs_close` fails with `EIO`: the caller gets -1 for the error number. -/
theorem not_carries_usfs_close :
    (Wrapper.usfs [slash]).fileOp 0 (.error ⟨ EIO, by decide⟩) .close = .ok (-1) ∧
      ¬ (Wrapper.usfs [slash]).Carries 0 ⟨100, []⟩ 1 10 (.fileOp .close (.error ⟨ EIO, by decide⟩)) := by
  have hw : (Wrapper.usfs [slash]).fileOp 0 (.error ⟨ EIO, by decide⟩) .close = .ok (-1) := by decide
  refine ⟨hw, fun h => ?_⟩
  have heq : (.ok (-1) : Checked ℤ) = .ok EIO := hw.symm.trans h
  exact absurd heq (by decide)

end Defuse
