import Defuse.Spec.SpaceLifecycle

/-! What `libdefuse/shared_space.c` holds on to over any sequence of its calls. The
mappings are always in order; a descriptor is lost by an `init_shared_space` that finds
one open, and a pointer that is no mapping is handed out by a `get_shared_space` behind a
call that failed after its `open`. -/

namespace Defuse

open CSem SpaceProcess

namespace SpaceProcess

def Live (s : SpaceProcess) (p : SpacePtr) : Prop :=
  ∃ id, p = .mapping id ∧ (id, s.space.size) ∈ s.live

/-- What holds whatever the calls were. -/
structure Inv (s : SpaceProcess) : Prop where
  fd_lt : ∀ d, s.space.fd = some d → d < s.opened
  closed_lt : ∀ d ∈ s.closed, d < s.opened
  live : s.live = [] ∨
    s.space.fd ≠ none ∧ ∃ id, s.space.spacePtr = .mapping id ∧ s.live = [(id, s.space.size)]

/-- Each descriptor opened is either the current one, and open, or closed once. -/
def Accounted (s : SpaceProcess) : Prop :=
  ∀ d < s.opened,
    s.space.fd = some d ∧ s.closed.count d = 0 ∨ s.space.fd ≠ some d ∧ s.closed.count d = 1

/-- A pointer that was returned is live, the descriptors are accounted for, and a release
leaves nothing. -/
structure Held (s : SpaceProcess) : Prop where
  pointer : ∀ p, s.last = .returned p → p ≠ .null → s.Live p
  descriptors : s.Accounted
  released : s.last = .released → s.live = [] ∧ ∀ d < s.opened, s.closed.count d = 1

end SpaceProcess

/-- What the outcomes of the calls so far tell: whether the file is open since the last release,
whether the call that opened it also mapped it, and whether any call has come to its `mmap`. -/
structure SpaceHistory where
  isOpen : Bool
  mapped : Bool
  tried : Bool
  deriving DecidableEq, Repr

namespace SpaceHistory

def next (h : SpaceHistory) : SpaceCall → SpaceHistory
  | .get opens fileSize maps =>
    if h.isOpen then h
    else if opens then ⟨true, maps && decide (0 < fileSize), true⟩
    else ⟨false, false, h.tried⟩
  | .init size opens truncates maps =>
    if opens then
      if truncates then ⟨true, maps && decide (0 < size), true⟩ else ⟨true, false, h.tried⟩
    else ⟨false, false, h.tried⟩
  | .release => ⟨false, false, h.tried⟩

def ofCalls (cs : List SpaceCall) : SpaceHistory := cs.foldl next ⟨false, false, false⟩

/-- No `init_shared_space` while the file is open, and no `get_shared_space` behind a call that
opened it and failed in `mmap`, or failed in `ftruncate` with a pointer of an earlier `mmap`
still in the record. -/
def Allows (h : SpaceHistory) : SpaceCall → Prop
  | .get _ _ _ => h.isOpen = true → h.mapped = true ∨ h.tried = false
  | .init _ _ _ _ => h.isOpen = false
  | .release => True

end SpaceHistory

/-- The same in terms of the record that a call finds. -/
def FindsReady (s : SpaceProcess) : SpaceCall → Prop
  | .get _ _ _ => s.space.fd = none ∨ s.space.spacePtr = .null ∨ s.Live s.space.spacePtr
  | .init _ _ _ _ => s.space.fd = none
  | .release => True

variable {s s' : SpaceProcess} {opens maps truncates : Bool} {size : ℕ}

theorem start_inv_space : start.Inv := ⟨nofun, nofun, Or.inl rfl⟩

theorem start_held : start.Held := by
  refine ⟨fun p hp hne => ?_, fun d hd => absurd hd (Nat.not_lt_zero d), nofun⟩
  cases hp
  exact absurd rfl hne

theorem munmap_live (h : s.Inv) : s.munmap.live = [] := by
  obtain h | ⟨-, id, hptr, hlive⟩ := h.live
  · simp [munmap, h]
  · simp [munmap, hptr, hlive]

theorem munmap_inv (h : s.Inv) : s.munmap.Inv :=
  ⟨h.fd_lt, h.closed_lt, Or.inl (munmap_live h)⟩

theorem openFile_inv (h : s.Inv) (hlive : s.live = []) : (s.openFile opens).Inv := by
  unfold openFile
  split_ifs
  · refine ⟨fun d hd => ?_, fun d hd => ?_, Or.inl hlive⟩
    · cases hd
      exact Nat.lt_succ_self _
    · exact Nat.lt_succ_of_lt (h.closed_lt d hd)
  · exact ⟨nofun, h.closed_lt, Or.inl hlive⟩

theorem openFile_live : (s.openFile opens).live = s.live := by
  unfold openFile
  split_ifs <;> rfl

theorem setSize_inv (h : s.Inv) (hlive : s.live = []) : (s.setSize size).Inv :=
  ⟨h.fd_lt, h.closed_lt, Or.inl hlive⟩

theorem mapFile_inv (h : s.Inv) (hlive : s.live = []) (hfd : s.space.fd ≠ none) :
    (s.mapFile maps).Inv := by
  unfold mapFile
  split_ifs
  · exact ⟨h.fd_lt, h.closed_lt, Or.inr ⟨hfd, s.mapped, rfl, by rw [hlive]⟩⟩
  · exact ⟨h.fd_lt, h.closed_lt, Or.inl hlive⟩

theorem reply_inv (h : s.Inv) (r : SpaceReply) : (s.reply r).Inv := ⟨h.fd_lt, h.closed_lt, h.live⟩

theorem replyMapped_inv (h : s.Inv) : s.replyMapped.Inv := reply_inv h _

theorem opened_inv (h : s.Inv) (hlive : s.live = []) (hfd : (s.openFile opens).space.fd ≠ none) :
    (((s.openFile opens).setSize size).mapFile maps).replyMapped.Inv := by
  have hopen : (s.openFile opens).live = [] := openFile_live.trans hlive
  exact replyMapped_inv (mapFile_inv (setSize_inv (openFile_inv h hlive) hopen) hopen hfd)

theorem fd_none_live (h : s.Inv) (hfd : s.space.fd = none) : s.live = [] :=
  h.live.resolve_right fun hand => hand.1 hfd

theorem get_inv (h : s.Inv) : (s.getSharedSpaceCall opens size maps).Inv := by
  unfold getSharedSpaceCall
  simp only
  split_ifs with hfd hopen
  · exact reply_inv (openFile_inv h (fd_none_live h hfd)) _
  · exact opened_inv h (fd_none_live h hfd) hopen
  · exact reply_inv h _

theorem unmapped_inv (h : s.Inv) :
    (if s.space.fd ≠ none then s.munmap else s).Inv ∧
      (if s.space.fd ≠ none then s.munmap else s).live = [] := by
  split_ifs with hfd
  · exact ⟨munmap_inv h, munmap_live h⟩
  · exact ⟨h, fd_none_live h (not_not.mp hfd)⟩

theorem init_inv (h : s.Inv) : (s.initSharedSpaceCall size opens truncates maps).Inv := by
  obtain ⟨hinv, hlive⟩ := unmapped_inv h
  unfold initSharedSpaceCall
  generalize (if s.space.fd ≠ none then s.munmap else s) = s₁ at hinv hlive
  simp only
  split_ifs with hopen htrunc
  · exact reply_inv (openFile_inv hinv hlive) _
  · exact opened_inv hinv hlive hopen
  · exact reply_inv (setSize_inv (openFile_inv hinv hlive) (openFile_live.trans hlive)) _

theorem release_inv (h : s.Inv) : s.releaseSharedSpace.Inv := by
  unfold releaseSharedSpace
  cases hfd : s.space.fd with
  | none => exact reply_inv h _
  | some fd =>
    refine ⟨nofun, fun d hd => ?_, Or.inl (munmap_live h)⟩
    obtain rfl | hd := List.mem_cons.mp hd
    · exact h.fd_lt d hfd
    · exact h.closed_lt d hd

/-! What the calls keep of the accounts. -/

theorem openFile_accounted (h : s.Inv) (ha : s.Accounted) (hfd : s.space.fd = none) :
    (s.openFile opens).Accounted := by
  unfold openFile
  split_ifs
  · intro d hd
    obtain hlt | rfl := Nat.lt_succ_iff_lt_or_eq.mp hd
    · obtain ⟨hcur, -⟩ | ⟨-, hcount⟩ := ha d hlt
      · rw [hfd] at hcur
        cases hcur
      · exact Or.inr ⟨fun heq => absurd (Option.some.inj heq) (by omega), hcount⟩
    · -- the new descriptor has not been closed before it was opened
      refine Or.inl ⟨rfl, List.count_eq_zero.mpr fun hmem => ?_⟩
      exact absurd (h.closed_lt _ hmem) (lt_irrefl _)
  · intro d hd
    obtain ⟨hcur, -⟩ | ⟨-, hcount⟩ := ha d hd
    · rw [hfd] at hcur
      cases hcur
    · exact Or.inr ⟨nofun, hcount⟩

theorem mapFile_accounted_iff : (s.mapFile maps).Accounted ↔ s.Accounted := by
  unfold mapFile
  split_ifs
  · rfl
  · rfl

theorem replyNull_held (ha : s.Accounted) : (s.reply (.returned .null)).Held := by
  refine ⟨fun p hp hne => ?_, ha, nofun⟩
  cases hp
  exact absurd rfl hne

theorem replyMapped_held (ha : s.Accounted) : (s.mapFile maps).replyMapped.Held := by
  refine ⟨fun p hp hne => ?_, mapFile_accounted_iff.mpr ha, nofun⟩
  unfold mapFile at hp ⊢
  split_ifs at hp ⊢ with hmap
  · cases hp
    exact ⟨s.mapped, rfl, List.mem_cons_self⟩
  · cases hp
    exact absurd rfl hne

theorem opened_held (h : s.Inv) (ha : s.Accounted) (hfd : s.space.fd = none) :
    (((s.openFile opens).setSize size).mapFile maps).replyMapped.Held :=
  replyMapped_held (openFile_accounted h ha hfd)

theorem get_held_iff (h : s.Inv) (hh : s.Held) :
    (s.getSharedSpaceCall opens size maps).Held ↔ FindsReady s (.get opens size maps) := by
  unfold getSharedSpaceCall FindsReady
  simp only
  by_cases hfd : s.space.fd = none
  · rw [if_pos hfd]
    refine iff_of_true ?_ (Or.inl hfd)
    split_ifs
    · exact replyNull_held (openFile_accounted h hh.descriptors hfd)
    · exact opened_held h hh.descriptors hfd
  · rw [if_neg hfd, or_iff_right hfd]
    constructor
    · intro hheld
      by_cases hnull : s.space.spacePtr = .null
      · exact Or.inl hnull
      · exact Or.inr (hheld.pointer _ rfl hnull)
    · intro hptr
      refine ⟨fun p hp hne => ?_, hh.descriptors, nofun⟩
      cases hp
      exact hptr.resolve_left hne

theorem not_accounted_of_overwritten {d : ℕ} (hd : d < s.opened) (hcount : s.closed.count d = 0)
    (hfd : s.space.fd ≠ some d) : ¬ s.Accounted := by
  intro ha
  obtain ⟨hcur, -⟩ | ⟨-, hone⟩ := ha d hd
  · exact hfd hcur
  · omega

theorem openFile_overwrites {d : ℕ} (hd : d < s.opened) :
    d < (s.openFile opens).opened ∧ (s.openFile opens).space.fd ≠ some d ∧
      (s.openFile opens).closed = s.closed := by
  unfold openFile
  split_ifs
  · refine ⟨Nat.lt_succ_of_lt hd, fun heq => ?_, rfl⟩
    have := Option.some.inj heq
    omega
  · exact ⟨hd, nofun, rfl⟩

theorem init_held_iff (h : s.Inv) (hh : s.Held) :
    (s.initSharedSpaceCall size opens truncates maps).Held ↔ s.space.fd = none := by
  unfold initSharedSpaceCall
  simp only
  cases hfd : s.space.fd with
  | none =>
    rw [if_neg (not_not.mpr rfl)]
    refine iff_of_true ?_ rfl
    split_ifs
    · exact replyNull_held (openFile_accounted h hh.descriptors hfd)
    · exact opened_held h hh.descriptors hfd
    · exact replyNull_held (openFile_accounted h hh.descriptors hfd)
  | some d =>
    rw [if_pos (Option.some_ne_none d)]
    refine iff_of_false (fun hheld => ?_) (Option.some_ne_none d)
    have hlt := h.fd_lt d hfd
    have hcount : s.munmap.closed.count d = 0 := by
      obtain ⟨-, hzero⟩ | ⟨hne, -⟩ := hh.descriptors d hlt
      · exact hzero
      · exact absurd hfd hne
    obtain ⟨hlt', hne, hclosed⟩ := openFile_overwrites (s := s.munmap) hlt
    have hlost : ¬ (s.munmap.openFile opens).Accounted :=
      not_accounted_of_overwritten hlt' (by rw [hclosed]; exact hcount) hne
    have hacc := hheld.descriptors
    split_ifs at hacc
    · exact hlost hacc
    · exact hlost ((mapFile_accounted_iff (s := (s.munmap.openFile opens).setSize size)).mp hacc)
    · exact hlost hacc

theorem release_held (h : s.Inv) (hh : s.Held) : s.releaseSharedSpace.Held := by
  unfold releaseSharedSpace
  cases hfd : s.space.fd with
  | none =>
    have hlive := fd_none_live h hfd
    refine ⟨nofun, hh.descriptors, fun _ => ⟨hlive, fun d hd => ?_⟩⟩
    obtain ⟨hcur, -⟩ | ⟨-, hone⟩ := hh.descriptors d hd
    · rw [hfd] at hcur
      cases hcur
    · exact hone
  | some fd =>
    have hclosed : ∀ d < s.opened, (fd :: s.closed).count d = 1 := by
      intro d hd
      obtain ⟨hcur, hzero⟩ | ⟨hne, hone⟩ := hh.descriptors d hd
      · rw [hfd] at hcur
        cases hcur
        rw [List.count_cons_self, hzero]
      · have hdiff : fd ≠ d := fun heq => hne (by rw [hfd, heq])
        rw [List.count_cons_of_ne hdiff, hone]
    exact ⟨nofun, fun d hd => Or.inr ⟨nofun, hclosed d hd⟩, fun _ => ⟨munmap_live h, hclosed⟩⟩

theorem spaceExec_held_iff (h : s.Inv) (hh : s.Held) {c : SpaceCall} (heq : c.exec s = .ok s') :
    s'.Held ↔ FindsReady s c := by
  cases c with
  | get opens size maps =>
    cases heq
    exact get_held_iff h hh
  | init size opens truncates maps =>
    cases heq
    exact init_held_iff h hh
  | release =>
    cases heq
    exact iff_of_true (release_held h hh) trivial

theorem spaceExec_inv (h : s.Inv) (c : SpaceCall) : ∃ s', c.exec s = .ok s' ∧ s'.Inv := by
  cases c with
  | get opens size maps => exact ⟨_, rfl, get_inv h⟩
  | init size opens truncates maps => exact ⟨_, rfl, init_inv h⟩
  | release => exact ⟨_, rfl, release_inv h⟩

/-! The record as the outcomes tell it. -/

structure Told (s : SpaceProcess) (h : SpaceHistory) : Prop where
  isOpen : h.isOpen = true ↔ s.space.fd ≠ none
  mapped : h.mapped = true ↔ s.live ≠ []
  tried : h.tried = true ↔ s.space.spacePtr ≠ .null

variable {h : SpaceHistory}

theorem openFile_told (hlive : s.live = []) (ht : h.tried = true ↔ s.space.spacePtr ≠ .null) :
    Told (s.openFile opens) ⟨opens, false, h.tried⟩ := by
  unfold openFile
  cases opens with
  | false => exact ⟨by simp, by simp [hlive], ht⟩
  | true => exact ⟨by simp, by simp [hlive], ht⟩

theorem mapFile_told (hlive : s.live = []) (hfd : s.space.fd ≠ none) :
    Told (s.mapFile maps) ⟨true, maps && decide (0 < s.space.size), true⟩ := by
  unfold mapFile
  split_ifs with hmap
  · exact ⟨by simp [hfd], by simp [hmap.1, hmap.2], by simp⟩
  · refine ⟨by simp [hfd], ?_, by simp⟩
    rw [Bool.and_eq_true, decide_eq_true_eq]
    exact iff_of_false hmap (not_not.mpr hlive)

theorem Told.reply (ht : Told s h) (r : SpaceReply) : Told (s.reply r) h :=
  ⟨ht.isOpen, ht.mapped, ht.tried⟩

theorem opened_told (hlive : s.live = []) (hopen : (s.openFile opens).space.fd ≠ none) :
    Told (((s.openFile opens).setSize size).mapFile maps).replyMapped
      ⟨true, maps && decide (0 < size), true⟩ := by
  have hopened : (s.openFile opens).live = [] := openFile_live.trans hlive
  exact (@mapFile_told ((s.openFile opens).setSize size) maps hopened hopen).reply _

theorem openFile_fd : (s.openFile opens).space.fd ≠ none ↔ opens = true := by
  unfold openFile
  cases opens with
  | false => simp
  | true => simp

theorem get_told (hi : s.Inv) (ht : Told s h) :
    Told (s.getSharedSpaceCall opens size maps) (h.next (.get opens size maps)) := by
  unfold getSharedSpaceCall SpaceHistory.next
  dsimp only
  by_cases hfd : s.space.fd = none
  · have hlive := fd_none_live hi hfd
    have hclosed : ¬ h.isOpen = true := fun hopen => ht.isOpen.mp hopen hfd
    rw [if_pos hfd, if_neg hclosed]
    by_cases hopen : opens = true
    · rw [if_neg (openFile_fd.mpr hopen), if_pos hopen]
      exact opened_told hlive (openFile_fd.mpr hopen)
    · rw [if_pos (not_not.mp (mt openFile_fd.mp hopen)), if_neg hopen]
      have htold := (@openFile_told s opens h hlive ht.tried).reply (.returned .null)
      rwa [Bool.eq_false_iff.mpr hopen] at htold ⊢
  · rw [if_neg hfd, if_pos (ht.isOpen.mpr hfd)]
    exact ht.reply _

theorem init_told (hi : s.Inv) (ht : Told s h) :
    Told (s.initSharedSpaceCall size opens truncates maps)
      (h.next (.init size opens truncates maps)) := by
  have htried : h.tried = true ↔
      (if s.space.fd ≠ none then s.munmap else s).space.spacePtr ≠ .null := by
    split_ifs
    · exact ht.tried
    · exact ht.tried
  obtain ⟨-, hlive⟩ := unmapped_inv hi
  unfold initSharedSpaceCall SpaceHistory.next
  generalize (if s.space.fd ≠ none then s.munmap else s) = s₁ at htried hlive
  dsimp only
  have htold := @openFile_told s₁ opens h hlive htried
  by_cases hopen : opens = true
  · rw [if_neg (openFile_fd.mpr hopen), if_pos hopen]
    split_ifs
    · exact opened_told hlive (openFile_fd.mpr hopen)
    · rw [hopen] at htold ⊢
      exact ⟨htold.isOpen, htold.mapped, htold.tried⟩
  · rw [if_pos (not_not.mp (mt openFile_fd.mp hopen)), if_neg hopen]
    rw [Bool.eq_false_iff.mpr hopen] at htold ⊢
    exact htold.reply _

theorem release_told (hi : s.Inv) (ht : Told s h) :
    Told s.releaseSharedSpace (h.next .release) := by
  unfold releaseSharedSpace SpaceHistory.next
  cases hfd : s.space.fd with
  | none =>
    have htold : Told s ⟨false, false, h.tried⟩ :=
      ⟨by simp [hfd], by simp [fd_none_live hi hfd], ht.tried⟩
    exact htold.reply _
  | some fd => exact ⟨by simp, by simp [munmap_live hi], ht.tried⟩

theorem spaceExec_told (hi : s.Inv) (ht : Told s h) {c : SpaceCall} (heq : c.exec s = .ok s') :
    Told s' (h.next c) := by
  cases c with
  | get opens size maps =>
    cases heq
    exact get_told hi ht
  | init size opens truncates maps =>
    cases heq
    exact init_told hi ht
  | release =>
    cases heq
    exact release_told hi ht

theorem run_told {pre : List SpaceCall} (hrun : run SpaceCall.exec start pre = .ok s) :
    s.Inv ∧ Told s (.ofCalls pre) := by
  induction pre using List.reverseRecOn generalizing s with
  | nil =>
    cases hrun
    exact ⟨start_inv_space, by decide, by decide, by decide⟩
  | append_singleton pre c ih =>
    rw [run_snoc] at hrun
    obtain ⟨s₁, hs₁, hc⟩ := bind_ok_iff.mp hrun
    obtain ⟨hi, ht⟩ := ih hs₁
    obtain ⟨s₂, hs₂, hi'⟩ := spaceExec_inv hi c
    rw [hc] at hs₂
    cases hs₂
    refine ⟨hi', ?_⟩
    rw [SpaceHistory.ofCalls, List.foldl_append]
    exact spaceExec_told hi ht hc

theorem live_iff (hi : s.Inv) : s.Live s.space.spacePtr ↔ s.live ≠ [] := by
  constructor
  · rintro ⟨id, -, hmem⟩
    exact List.ne_nil_of_mem hmem
  · intro hne
    obtain ⟨-, id, hptr, hlive⟩ := hi.live.resolve_left hne
    exact ⟨id, hptr, hlive ▸ List.mem_singleton_self _⟩

theorem findsReady_iff (hi : s.Inv) (ht : Told s h) (c : SpaceCall) :
    FindsReady s c ↔ h.Allows c := by
  cases c with
  | get opens size maps =>
    have htried : h.tried = false ↔ s.space.spacePtr = .null := by
      rw [← Bool.not_eq_true, ht.tried, not_not]
    change s.space.fd = none ∨ s.space.spacePtr = .null ∨ s.Live s.space.spacePtr ↔
      (h.isOpen = true → h.mapped = true ∨ h.tried = false)
    rw [live_iff hi, ht.isOpen, ht.mapped, htried]
    tauto
  | init size opens truncates maps =>
    change s.space.fd = none ↔ h.isOpen = false
    rw [← Bool.not_eq_true, ht.isOpen, not_not]
  | release => exact Iff.rfl

/-- Over any sequence of calls, with any outcomes of the system calls in them, every
pointer returned is live, every descriptor is the current one or closed once, and a
release leaves nothing, exactly when the outcomes before it allow each call. -/
theorem held_throughout_iff (cs : List SpaceCall) :
    (∀ pre, pre <+: cs → ∃ s, run SpaceCall.exec start pre = .ok s ∧ s.Held) ↔
      ∀ pre c, pre ++ [c] <+: cs → (SpaceHistory.ofCalls pre).Allows c := by
  rw [run_throughout_iff SpaceProcess.Inv (fun _ c hi (_ : True) => spaceExec_inv hi c)
    (fun _ _ _ hi _ hh heq => spaceExec_held_iff hi hh heq) start_inv_space start_held cs
    fun _ _ => trivial]
  constructor
  · intro hready pre c hpre
    obtain ⟨s, hs, -⟩ := run_invariant SpaceProcess.Inv (fun _ => True)
      (fun _ c hi _ => spaceExec_inv hi c) start_inv_space pre fun _ _ => trivial
    obtain ⟨hi, ht⟩ := run_told hs
    exact (findsReady_iff hi ht c).mp (hready pre c hpre s hs)
  · intro hallows pre c hpre s hs
    obtain ⟨hi, ht⟩ := run_told hs
    exact (findsReady_iff hi ht c).mpr (hallows pre c hpre)

/-- A `get_shared_space` that fails in `mmap`, and another: the second returns MAP_FAILED. -/
theorem get_returns_failed :
    ∃ s, run SpaceCall.exec start [.get true 100 false, .get true 100 true] = .ok s ∧
      s.last = .returned .failed ∧ s.live = [] ∧ ¬ s.Held := by
  refine ⟨_, rfl, rfl, rfl, fun hh => ?_⟩
  obtain ⟨id, hid, -⟩ := hh.pointer _ rfl (by decide)
  cases hid

end Defuse
