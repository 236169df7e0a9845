import Defuse.Proofs.MuslCounts
import Defuse.Proofs.TableMap
import Defuse.Spec.MuslDup

/-! `dup2` and `dup3` of the musl port and the two tables they change. The overwritten
descriptor is closed first and by the bare system call, so a call that fails later has
lost it, and a call that succeeds with an untracked source leaves its entry behind. -/

namespace Defuse.Musl

open CSem FileHandleTable

/-- The record a descriptor points to. -/
def entry (t : FileHandleTable) (fd : ℤ) : Option RecPtr :=
  match index MAX_FILES fd with
  | .ok i => t.fileHandles i
  | .error _ => none

def Refused (p : Process) (oldfd newfd flags : ℤ) (refuse : ℤ → Option ℤ) : Prop :=
  oldfd = newfd ∨ p.kernel oldfd = none ∨ refuse flags ≠ none

instance (p : Process) (oldfd newfd flags : ℤ) (refuse : ℤ → Option ℤ) :
    Decidable (Refused p oldfd newfd flags refuse) :=
  inferInstanceAs (Decidable (oldfd = newfd ∨ p.kernel oldfd = none ∨ refuse flags ≠ none))

def Accepted (p : Process) (oldfd newfd flags : ℤ) (refuse : ℤ → Option ℤ) : Prop :=
  ¬ Refused p oldfd newfd flags refuse ∧ (Tracks p.table oldfd → newfd < MAX_FILES)

/-- The library's table and the kernel's descriptors agree on what the call did. The result of
the call does not enter: it is not specified. -/
structure InStep (p : Process) (oldfd newfd flags : ℤ) (refuse : ℤ → Option ℤ)
    (p' : Process) : Prop where
  done : Accepted p oldfd newfd flags refuse →
    p.kernel oldfd ≠ none ∧ p'.kernel newfd = p.kernel oldfd ∧
      entry p'.table newfd = entry p.table oldfd ∧
      p'.table.findFileHandle newfd = p.table.findFileHandle oldfd
  equal : oldfd = newfd → p.kernel oldfd ≠ none → p' = p
  failed : ¬ Accepted p oldfd newfd flags refuse → p' = p

variable {t : FileHandleTable} {p : Process} {oldfd newfd flags fd : ℤ} {refuse : ℤ → Option ℤ}
  {i j : Fin MAX_FILES}

theorem entry_val : entry t i = t.fileHandles i := by
  simp [entry]

theorem tracks_iff_entry : Tracks t fd ↔ entry t fd ≠ none := by
  unfold entry
  cases h : index MAX_FILES fd with
  | ok i => rw [index_ok_iff.mp h, tracks_val]
  | error e =>
    refine iff_of_false ?_ fun hne => hne rfl
    rintro ⟨i, rfl, -⟩
    rw [index_val] at h
    cases h

theorem Tracks.exists_fin (h : Tracks t fd) : ∃ i : Fin MAX_FILES, ∃ q, fd = i ∧
    t.fileHandles i = some q := by
  obtain ⟨i, hi, hne⟩ := h
  obtain ⟨q, hq⟩ := Option.ne_none_iff_exists'.mp hne
  exact ⟨i, q, hi, hq⟩

theorem find_tracks (hs : Sound t) (h : 0 ≤ fd) :
    ∃ x, t.findFileHandle fd = .ok x ∧ (x ≠ none ↔ Tracks t fd) := by
  by_cases hlt : fd < MAX_FILES
  · obtain ⟨i, rfl⟩ := exists_fin ⟨h, hlt⟩
    refine ⟨_, find_eq hs i, ?_⟩
    rw [tracks_val]
    cases hi : t.fileHandles i with
    | none => simp [lookup_of_none hi]
    | some q =>
      obtain ⟨r, hr, -⟩ := hs.live hi
      simp [lookup_of_some hi hr]
  · refine ⟨none, find_ge (by omega), iff_of_false (fun hne => hne rfl) ?_⟩
    rintro ⟨i, rfl, -⟩
    have := i.isLt
    omega

theorem find_untracked (hs : Sound t) (h : 0 ≤ fd) (hfd : ¬ Tracks t fd) :
    t.findFileHandle fd = .ok none := by
  obtain ⟨x, hx, hiff⟩ := find_tracks hs h
  rw [hx, not_not.mp fun hne => hfd (hiff.mp hne)]

theorem realDup3_refused (kernel : ℤ → Option ℕ)
    (h : oldfd = newfd ∨ kernel oldfd = none ∨ refuse flags ≠ none) :
    ∃ e, realDup3 kernel oldfd newfd flags refuse = (-1, some e, kernel) := by
  unfold realDup3
  split_ifs with h1 h2
  · exact ⟨_, rfl⟩
  · exact ⟨_, rfl⟩
  · obtain h | h | h := h
    · exact absurd h h1
    · exact absurd (Or.inl h) h2
    · obtain ⟨e, he⟩ := Option.ne_none_iff_exists'.mp h
      exact ⟨e, by rw [he]⟩

theorem realDup3_done (kernel : ℤ → Option ℕ) (hnew : 0 ≤ newfd) (hne : oldfd ≠ newfd)
    (hold : kernel oldfd ≠ none) (hok : refuse flags = none) :
    realDup3 kernel oldfd newfd flags refuse =
      (newfd, none, Function.update kernel newfd (kernel oldfd)) := by
  have h2 : ¬ (kernel oldfd = none ∨ newfd < 0) := by
    rintro (h | h)
    · exact hold h
    · omega
  rw [realDup3, if_neg hne, if_neg h2, hok]

def closedFirst (p : Process) (newfd : ℤ) : ℤ → Option ℕ :=
  if Tracks p.table newfd then Function.update p.kernel newfd none else p.kernel

theorem closedFirst_of_ne (h : oldfd ≠ newfd) : closedFirst p newfd oldfd = p.kernel oldfd := by
  unfold closedFirst
  split_ifs
  · rw [Function.update_of_ne h]
  · rfl

theorem closedFirst_eq_iff :
    closedFirst p newfd = p.kernel ↔ ¬ (Tracks p.table newfd ∧ p.kernel newfd ≠ none) := by
  unfold closedFirst
  split_ifs with h
  · rw [Function.update_eq_self_iff]
    simp [h, eq_comm]
  · simp [h]

theorem update_closedFirst (f : Option ℕ) :
    Function.update (closedFirst p newfd) newfd f = Function.update p.kernel newfd f := by
  unfold closedFirst
  split_ifs
  · rw [Function.update_idem]
  · rfl

theorem close_if_found {y : Option FileHandleData} (h : y ≠ none ↔ Tracks p.table newfd) :
    ∃ e, (if y ≠ none then p.close newfd else (none, p)) =
      (e, ⟨p.table, closedFirst p newfd⟩) := by
  simp only [h, closedFirst, Process.close]
  split_ifs with htr hclosed
  · refine ⟨some EBADF, ?_⟩
    rw [← hclosed, Function.update_eq_self]
  · exact ⟨none, rfl⟩
  · exact ⟨none, rfl⟩

theorem dupCommon_refused (hs : Sound p.table) (hold : 0 ≤ oldfd) (hnew : 0 ≤ newfd)
    (h : Refused p oldfd newfd flags refuse) :
    ∃ e, dupCommon p oldfd newfd flags true refuse =
      .ok (some e, ⟨p.table, closedFirst p newfd⟩) := by
  obtain ⟨x, hx, -⟩ := find_tracks hs hold
  obtain ⟨y, hy, hyiff⟩ := find_tracks hs hnew
  have h' : oldfd = newfd ∨ closedFirst p newfd oldfd = none ∨ refuse flags ≠ none := by
    by_cases hne : oldfd = newfd
    · exact Or.inl hne
    · rw [closedFirst_of_ne hne]
      exact h
  obtain ⟨e, he⟩ := realDup3_refused (closedFirst p newfd) h'
  obtain ⟨e', hclose⟩ := close_if_found hyiff
  refine ⟨e, ?_⟩
  simp only [dupCommon, hx, hy, ok_bind, if_true, hclose, he, ne_eq, not_true_eq_false, and_false,
    if_false, pure_eq_ok]
  rfl

/-- After a dup3 that succeeded the table follows if the source is tracked. -/
theorem dupCommon_done (hs : Sound p.table) (hold : 0 ≤ oldfd) (hnew : 0 ≤ newfd)
    (h : ¬ Refused p oldfd newfd flags refuse) :
    ∃ e, dupCommon p oldfd newfd flags true refuse =
      if Tracks p.table oldfd then
        duplicateFileHandle p.table oldfd newfd >>= fun r =>
          if r.1 ≠ 0 then .ok (some r.1, ⟨r.2, Function.update p.kernel newfd (p.kernel oldfd)⟩)
          else .ok (e, ⟨r.2, Function.update p.kernel newfd (p.kernel oldfd)⟩)
      else .ok (e, ⟨p.table, Function.update p.kernel newfd (p.kernel oldfd)⟩) := by
  obtain ⟨x, hx, hxiff⟩ := find_tracks hs hold
  obtain ⟨y, hy, hyiff⟩ := find_tracks hs hnew
  simp only [Refused, not_or, not_not] at h
  obtain ⟨hne, hopen, hok⟩ := h
  have hclosed := closedFirst_of_ne (p := p) hne
  have hdone := realDup3_done (closedFirst p newfd) hnew hne (by rwa [hclosed]) hok
  rw [hclosed, update_closedFirst] at hdone
  have hret : newfd ≠ -1 := by omega
  obtain ⟨e, hclose⟩ := close_if_found hyiff
  refine ⟨e, ?_⟩
  simp only [dupCommon, hx, hy, ok_bind, if_true, hclose, hdone]
  by_cases htr : Tracks p.table oldfd
  · rw [if_pos ⟨hxiff.mpr htr, hret⟩, if_pos htr]
    rfl
  · rw [if_neg fun hand => htr (hxiff.mp hand.1), if_neg htr]
    rfl

theorem duplicate_entry (hs : Sound t) {q : RecPtr} (hi : t.fileHandles i = some q) (hij : i ≠ j) :
    ∃ t', duplicateFileHandle t i j = .ok (0, t') ∧ t'.fileHandles j = some q ∧
      t'.findFileHandle j = t.findFileHandle i := by
  have hfree : ∀ t₁, Sound t₁ → t₁.fileHandles i = some q → t₁.fileHandles j = none →
      ∃ t', duplicateFileHandle t₁ i j = .ok (0, t') ∧ t'.fileHandles j = some q ∧
        t'.findFileHandle j = t₁.findFileHandle i := by
    intro t₁ hs₁ hi₁ hj₁
    obtain ⟨rv, old, t', hdup, hs'⟩ := duplicate_sound hs₁ i j
    have hlook := lookup_duplicate hs₁ hdup j
    obtain ⟨r, hr, rfl, -, -, hfh, -⟩ := duplicate_entries hs₁ hi₁ hdup
    refine ⟨t', ?_, ?_, ?_⟩
    · rw [duplicate_free hs₁ hj₁, hdup]
      rfl
    · rw [hfh, Function.update_self]
    · rw [find_eq hs', find_eq hs₁, hlook, if_pos rfl, lookup_of_some hi₁ hr, Option.some_or]
  by_cases hj : t.fileHandles j = none
  · exact hfree t hs hi hj
  · obtain ⟨rv, t₁, hrem, hs₁, hfh, heq⟩ := duplicate_taken (i := i) hs hj
    obtain ⟨t', hdup, hent, hfind⟩ := hfree t₁ hs₁
      (by rw [hfh, Function.update_of_ne hij, hi]) (by rw [hfh, Function.update_self])
    refine ⟨t', heq.trans hdup, hent, ?_⟩
    rw [hfind, find_eq hs₁, find_eq hs, lookup_remove hs hrem, if_neg hij]

theorem duplicate_over (h : newfd ≥ MAX_FILES) :
    duplicateFileHandle t oldfd newfd = .ok (EBADF, t) := by
  rw [duplicateFileHandle, if_pos (Or.inr h), pure_eq_ok]

/-- When the two tables agree after the call, in terms of the state before it. -/
def KeptInStep (p : Process) (oldfd newfd flags : ℤ) (refuse : ℤ → Option ℤ) : Prop :=
  0 ≤ oldfd ∧ 0 ≤ newfd ∧
    (Refused p oldfd newfd flags refuse → ¬ (Tracks p.table newfd ∧ p.kernel newfd ≠ none)) ∧
    (¬ Refused p oldfd newfd flags refuse →
      if Tracks p.table oldfd then newfd < MAX_FILES ∨ p.kernel newfd = p.kernel oldfd
      else ¬ Tracks p.table newfd)

def DupsInStep (p : Process) (oldfd newfd flags : ℤ) (refuse : ℤ → Option ℤ) : Prop :=
  ∃ errno p', dupCommon p oldfd newfd flags true refuse = .ok (errno, p') ∧
    InStep p oldfd newfd flags refuse p'

theorem dupsInStep_of_eq {errno : Option ℤ} {p' : Process}
    (h : dupCommon p oldfd newfd flags true refuse = .ok (errno, p')) :
    DupsInStep p oldfd newfd flags refuse ↔ InStep p oldfd newfd flags refuse p' := by
  constructor
  · rintro ⟨errno₁, p₁, h₁, hin⟩
    rw [h] at h₁
    cases h₁
    exact hin
  · intro hin
    exact ⟨errno, p', h, hin⟩

theorem dupCommon_negative (h : oldfd < 0 ∨ newfd < 0) :
    ∃ e, dupCommon p oldfd newfd flags true refuse = .error e := by
  unfold dupCommon
  cases hx : p.table.findFileHandle oldfd with
  | error e => exact ⟨e, error_bind e _⟩
  | ok x =>
    obtain hneg | hneg := h
    · obtain ⟨e, he⟩ := find_negative (t := p.table) hneg
      rw [he] at hx
      cases hx
    · obtain ⟨e, he⟩ := find_negative (t := p.table) hneg
      rw [ok_bind, if_pos rfl, he]
      exact ⟨e, error_bind e _⟩

theorem dupsInStep_nonneg (h : DupsInStep p oldfd newfd flags refuse) : 0 ≤ oldfd ∧ 0 ≤ newfd := by
  obtain ⟨errno, p', heq, -⟩ := h
  by_contra hneg
  obtain ⟨e, he⟩ := dupCommon_negative (show oldfd < 0 ∨ newfd < 0 by omega)
  rw [heq] at he
  cases he

theorem refused_iff (hs : Sound p.table) (hold : 0 ≤ oldfd) (hnew : 0 ≤ newfd)
    (h : Refused p oldfd newfd flags refuse) :
    DupsInStep p oldfd newfd flags refuse ↔
      ¬ (Tracks p.table newfd ∧ p.kernel newfd ≠ none) := by
  obtain ⟨e, he⟩ := dupCommon_refused hs hold hnew h
  have hnot : ¬ Accepted p oldfd newfd flags refuse := fun hacc => hacc.1 h
  rw [dupsInStep_of_eq he, ← closedFirst_eq_iff]
  constructor
  · intro hin
    exact congrArg Process.kernel (hin.failed hnot)
  · intro heq
    rw [heq]
    exact ⟨fun hacc => absurd hacc hnot, fun _ _ => rfl, fun _ => rfl⟩

theorem tracked_iff (hs : Sound p.table) (hold : 0 ≤ oldfd) (hnew : 0 ≤ newfd)
    (h : ¬ Refused p oldfd newfd flags refuse) (htr : Tracks p.table oldfd) :
    DupsInStep p oldfd newfd flags refuse ↔
      newfd < MAX_FILES ∨ p.kernel newfd = p.kernel oldfd := by
  obtain ⟨e, heq⟩ := dupCommon_done hs hold hnew h
  rw [if_pos htr] at heq
  have hacc : Accepted p oldfd newfd flags refuse ↔ newfd < MAX_FILES :=
    ⟨fun hacc => hacc.2 htr, fun hlt => ⟨h, fun _ => hlt⟩⟩
  simp only [Refused, not_or, not_not] at h
  obtain ⟨hne, hopen, -⟩ := h
  by_cases hlt : newfd < MAX_FILES
  · refine iff_of_true ?_ (Or.inl hlt)
    have hdo := hacc.mpr hlt
    obtain ⟨i, q, rfl, hq⟩ := Tracks.exists_fin htr
    obtain ⟨j, rfl⟩ := exists_fin ⟨hnew, hlt⟩
    obtain ⟨t', hdup, hent, hfind⟩ := duplicate_entry (j := j) hs hq fun hij => hne (by rw [hij])
    rw [hdup, ok_bind, if_neg fun hzero => hzero rfl] at heq
    refine (dupsInStep_of_eq heq).mpr ⟨fun _ => ⟨hopen, ?_, ?_, hfind⟩, ?_, ?_⟩
    · simp
    · rw [entry_val, entry_val, hent, hq]
    · intro hsame
      exact absurd hsame hne
    · intro hnot
      exact absurd hdo hnot
  · -- the kernel's target is replaced before the table refuses it
    have hnot := mt hacc.mp hlt
    rw [duplicate_over (by omega), ok_bind, if_pos (show EBADF ≠ 0 by decide)] at heq
    rw [dupsInStep_of_eq heq]
    constructor
    · intro hin
      have hkernel := congrArg Process.kernel (hin.failed hnot)
      exact Or.inr (Function.update_eq_self_iff.mp hkernel).symm
    · rintro (hlt' | hsame)
      · exact absurd hlt' hlt
      · have hself : Function.update p.kernel newfd (p.kernel oldfd) = p.kernel :=
          Function.update_eq_self_iff.mpr hsame.symm
        rw [hself]
        exact ⟨fun hdo => absurd hdo hnot, fun _ _ => rfl, fun _ => rfl⟩

theorem untracked_iff (hs : Sound p.table) (hold : 0 ≤ oldfd) (hnew : 0 ≤ newfd)
    (h : ¬ Refused p oldfd newfd flags refuse) (htr : ¬ Tracks p.table oldfd) :
    DupsInStep p oldfd newfd flags refuse ↔ ¬ Tracks p.table newfd := by
  obtain ⟨e, heq⟩ := dupCommon_done hs hold hnew h
  rw [if_neg htr] at heq
  have hacc : Accepted p oldfd newfd flags refuse := ⟨h, fun htr' => absurd htr' htr⟩
  simp only [Refused, not_or, not_not] at h
  obtain ⟨hne, hopen, -⟩ := h
  have hnone : entry p.table oldfd = none := not_not.mp fun hent => htr (tracks_iff_entry.mpr hent)
  rw [dupsInStep_of_eq heq]
  constructor
  · intro hin htr'
    obtain ⟨-, -, hent, -⟩ := hin.done hacc
    rw [hnone] at hent
    exact tracks_iff_entry.mp htr' hent
  · intro hnew'
    refine ⟨fun _ => ⟨hopen, by simp, ?_, ?_⟩, fun hsame => absurd hsame hne,
      fun hnot => absurd hacc hnot⟩
    · rw [hnone]
      exact not_not.mp fun hent => hnew' (tracks_iff_entry.mpr hent)
    · rw [find_untracked hs hold htr]
      exact find_untracked hs hnew hnew'

/-- `dup2` and `dup3` keep the two tables in step exactly when both descriptors are not
negative, a target that the table tracks is not open when the real dup3 fails, and after
a real dup3 that succeeds a tracked source goes to a descriptor the table has room for
and an untracked one to an untracked one. -/
theorem dup_in_step_iff (p : Process) (hs : Sound p.table) (oldfd newfd flags : ℤ)
    (refuse : ℤ → Option ℤ) :
    DupsInStep p oldfd newfd flags refuse ↔ KeptInStep p oldfd newfd flags refuse := by
  unfold KeptInStep
  by_cases hnn : 0 ≤ oldfd ∧ 0 ≤ newfd
  · obtain ⟨hold, hnew⟩ := hnn
    by_cases href : Refused p oldfd newfd flags refuse
    · rw [refused_iff hs hold hnew href]
      exact ⟨fun h => ⟨hold, hnew, fun _ => h, fun hno => absurd href hno⟩, fun h => h.2.2.1 href⟩
    · by_cases htr : Tracks p.table oldfd
      · rw [tracked_iff hs hold hnew href htr, if_pos htr]
        exact ⟨fun h => ⟨hold, hnew, fun hyes => absurd hyes href, fun _ => h⟩,
          fun h => h.2.2.2 href⟩
      · rw [untracked_iff hs hold hnew href htr, if_neg htr]
        exact ⟨fun h => ⟨hold, hnew, fun hyes => absurd hyes href, fun _ => h⟩,
          fun h => h.2.2.2 href⟩
  · exact iff_of_false (fun h => hnn (dupsInStep_nonneg h)) fun h => hnn ⟨h.1, h.2.1⟩

def oneTracked : Process := ⟨zeroed.inserted 3 0 ⟨7, 0⟩, Function.update (fun _ => none) 3 (some 0)⟩

theorem oneTracked_sound : Sound oneTracked.table :=
  inserted_sound zeroed_sound rfl rfl _

/-- A tracked descriptor duplicated to a free one. -/
theorem dup_in_step_free : DupsInStep oneTracked 3 4 0 fun _ => none := by
  refine (dup_in_step_iff oneTracked oneTracked_sound 3 4 0 _).mpr
    ⟨by decide, by decide, fun href => ?_, fun _ => ?_⟩
  · exact absurd href (by decide +kernel)
  · rw [if_pos (by decide +kernel)]
    exact Or.inl (by decide)

/-- `dup2(5, 3)` with 5 not open fails with EBADF, and descriptor 3, which was open, is
closed while the table still has its entry. -/
theorem dup_loses_target :
    oneTracked.kernel 3 = some 0 ∧ ¬ Accepted oneTracked 5 3 0 (fun _ => none) ∧
    ∃ p', defuseDup2 oneTracked 5 3 (fun _ => none) = .ok ⟨none, some EBADF, p'⟩ ∧
      p'.kernel 3 = none ∧ Tracks p'.table 3 ∧ ¬ InStep oneTracked 5 3 0 (fun _ => none) p' := by
  have hopen : oneTracked.kernel 3 = some 0 := by simp [oneTracked]
  have hnot : ¬ Accepted oneTracked 5 3 0 (fun _ => none) :=
    fun hacc => hacc.1 (Or.inr (Or.inl (by simp [oneTracked])))
  have hview : (defuseDup2 oneTracked 5 3 fun _ => none).map
      (fun r => (r.result, r.errno, r.process.kernel 3, decide (Tracks r.process.table 3))) =
        .ok (none, some EBADF, none, true) := by
    decide +kernel
  cases heq : defuseDup2 oneTracked 5 3 fun _ => none with
  | error e =>
    rw [heq] at hview
    cases hview
  | ok r =>
    obtain ⟨ret, errno, p'⟩ := r
    have h := map_ok hview heq
    simp only [Prod.mk.injEq, decide_eq_true_eq] at h
    obtain ⟨rfl, rfl, hclosed, htr⟩ := h
    refine ⟨hopen, hnot, p', rfl, hclosed, htr, fun hin => ?_⟩
    rw [hin.failed hnot, hopen] at hclosed
    cases hclosed

end Defuse.Musl
