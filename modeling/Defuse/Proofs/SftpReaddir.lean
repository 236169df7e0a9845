import Defuse.Proofs.SftpAttrs
import Defuse.Proofs.SftpCallers
import Defuse.Spec.SftpReaddir

/-! `sftp_readdir_async` keeps several requests on the way, and fills in what `sftp_readdir_sync`
does. The requests in its list are the next ones in the order of sending. -/

namespace Defuse.Sshfs

open CSem

section Replies

variable {ids : SftpIds}

/-- A request that cannot be sent, or is answered. -/
def Outcome.Received : Outcome → Prop
  | .unsent => True
  | .lost => False
  | .reply _ buf => buf.Received

theorem readdirWait_ok {outcome : Outcome} (h : outcome.Received) :
    ∃ err name, readdirWait outcome = .ok (err, name) ∧
      ∀ bytes, name = some bytes → bytes.length + 1 < 2 ^ 32 := by
  match outcome with
  | .unsent => exact ⟨_, _, rfl, nofun⟩
  | .reply type reply => exact Requests.replyResult_ok SSH_FXP_READDIR SSH_FXP_NAME type h

theorem fillEntries_err {name : List UInt8} (hname : name.length + 1 < 2 ^ 32) {err : ℤ}
    {filled : List Filled} (h : fillEntries ids (some name) = .ok (err, filled)) : err ≠ MY_EOF := by
  have hreceived := filled_received name hname
  have hreadError : ∀ e, IsReadError e → e ≠ MY_EOF := by
    intro e he
    rcases he with rfl | rfl
    · decide
    · decide
  obtain ⟨res, buf, hrun, hres⟩ := decodes_uint32 _ hreceived
  rw [fillEntries, bufGetEntries, hrun, ok_bind] at h
  cases res with
  | error e =>
    cases h
    decide
  | ok count =>
    obtain ⟨err', filled', buf', hloop, -, _, _, -, -, hend⟩ :=
      entriesLoop_reads ids count.toNat hres.1
    dsimp only at h
    rw [hloop] at h
    cases h
    rcases hend with ⟨rfl, -, -⟩ | ⟨herr, -, -⟩
    · exact show (0 : ℤ) ≠ MY_EOF by decide
    · exact hreadError _ herr

end Replies

section Window

variable {ids : SftpIds} {outcome : ℕ → Outcome} {pending : ℕ → Bool} {s : Readdir} {i : ℕ}

/-- The replies to the first `i` requests are dealt with, and the others that were sent are in the
list. -/
structure Readdir.Window (i : ℕ) (s : Readdir) : Prop where
  list_eq : s.list = List.range' i s.outstanding
  sent_eq : s.sent = i + s.outstanding
  max_pos : 0 < s.max
  max_le : s.max ≤ READDIR_MAX
  le_max : s.outstanding ≤ s.max
  handled : (s.waited ++ s.dropped).Perm (List.range i)

theorem sendRequests_done {limit : ℕ} (h : s.done = true) : sendRequests outcome limit s = .ok s := by
  cases limit with
  | zero => rw [sendRequests, if_neg (by simp [h])]
  | succ limit => rw [sendRequests, if_neg (by simp [h])]

theorem Readdir.Window.append (h : s.Window i) (hfull : s.outstanding < s.max) :
    s.append.Window i := by
  obtain ⟨hlist, hsent, hmax_pos, hmax_le, -, hhandled⟩ := h
  refine ⟨?_, ?_, hmax_pos, hmax_le, hfull, hhandled⟩
  · rw [Readdir.append, hlist, hsent, List.range'_concat, one_mul]
  · rw [Readdir.append, hsent, Nat.add_assoc]

theorem sendRequests_window (outcome : ℕ → Outcome) {limit : ℕ} (h : s.Window i) (hdone : s.done = false)
    (hlimit : s.max ≤ s.outstanding + limit) :
    ∃ s', sendRequests outcome limit s = .ok s' ∧ s'.Window i ∧ s'.filled = s.filled ∧
      ((s'.done = false ∧ 0 < s'.outstanding) ∨
        (s'.done = true ∧ s'.err = - EIO ∧ outcome s'.sent = .unsent)) := by
  induction limit generalizing s with
  | zero =>
    have hpos := h.max_pos
    refine ⟨s, ?_, h, rfl, Or.inl ⟨hdone, by omega⟩⟩
    rw [sendRequests, if_neg (by omega)]
  | succ limit ih =>
    rw [sendRequests]
    by_cases hfull : s.outstanding < s.max
    · rw [if_pos ⟨hdone, hfull⟩]
      by_cases hunsent : outcome s.sent = .unsent
      · rw [if_pos hunsent]
        exact ⟨_, rfl, ⟨h.list_eq, h.sent_eq, h.max_pos, h.max_le, h.le_max, h.handled⟩, rfl,
          Or.inr ⟨rfl, rfl, hunsent⟩⟩
      · rw [if_neg hunsent]
        exact ih (h.append hfull) hdone (show s.max ≤ s.outstanding + 1 + limit by omega)
    · have hpos := h.max_pos
      rw [if_neg fun hmore => hfull hmore.2]
      exact ⟨s, rfl, h, rfl, Or.inl ⟨hdone, by omega⟩⟩

theorem Readdir.Window.next {s' : Readdir} (h : s.Window i) (hpos : 0 < s.outstanding)
    (hlist : s'.list = List.range' (i + 1) (s.outstanding - 1))
    (hout : s'.outstanding = s.outstanding - 1) (hsent : s'.sent = s.sent) (hmax : s.max ≤ s'.max)
    (hmax' : s'.max ≤ READDIR_MAX)
    (hhandled : (s'.waited ++ s'.dropped).Perm (i :: (s.waited ++ s.dropped))) :
    s'.Window (i + 1) := by
  obtain ⟨-, hsent_eq, hmax_pos, -, hle, hperm⟩ := h
  refine ⟨by rw [hlist, hout], by omega, by omega, hmax', by omega, ?_⟩
  rw [List.range_succ]
  exact (hhandled.trans (hperm.cons i)).trans (List.perm_append_singleton i _).symm

theorem list_cons (h : s.Window i) (hpos : 0 < s.outstanding) :
    s.list = i :: List.range' (i + 1) (s.outstanding - 1) := by
  obtain ⟨n, hn⟩ : ∃ n, s.outstanding = n + 1 := ⟨s.outstanding - 1, by omega⟩
  rw [h.list_eq, hn, List.range'_succ, Nat.add_sub_cancel]

theorem next_done (ids : SftpIds) (pending : ℕ → Bool) (h : s.Window i) (hdone : s.done = true)
    (hpos : 0 < s.outstanding) (hreceived : ∀ j, (outcome j).Received) :
    ∃ s', s.next ids outcome pending = .ok s' ∧ s'.Window (i + 1) ∧
      s'.outstanding = s.outstanding - 1 ∧ s'.done = true ∧ s'.err = s.err ∧
      s'.filled = s.filled ∧ s'.sent = s.sent := by
  have hlist := list_cons h hpos
  rw [Readdir.next, if_neg (by omega), hlist]
  dsimp only
  by_cases hpending : s.done = true ∧ pending i = true
  · rw [if_pos hpending]
    refine ⟨_, rfl, h.next hpos rfl rfl rfl le_rfl h.max_le ?_, rfl, hdone, rfl, rfl, rfl⟩
    dsimp only
    rw [← List.append_assoc]
    exact List.perm_append_singleton i _
  · obtain ⟨err, name, hwait, -⟩ := readdirWait_ok (hreceived i)
    rw [if_neg hpending, Readdir.takeReply, hwait, ok_bind]
    dsimp only
    rw [if_pos hdone]
    refine ⟨_, rfl, h.next hpos rfl rfl rfl le_rfl h.max_le ?_, rfl, hdone, rfl, rfl, rfl⟩
    dsimp only
    rw [List.append_assoc]
    exact List.perm_middle

/-- What the loop has when it ends. -/
structure Readdir.Ended (err : ℤ) (filled : List Filled) (s : Readdir) : Prop where
  list : s.list = []
  handled : (s.waited ++ s.dropped).Perm (List.range s.sent)
  err : s.err = err
  filled : s.filled = filled

/-- When the loop is done, it only empties the list. -/
theorem asyncLoop_done (ids : SftpIds) (pending : ℕ → Bool) {limit : ℕ} (h : s.Window i)
    (hdone : s.done = true) (hlimit : s.outstanding ≤ limit) (hreceived : ∀ j, (outcome j).Received) :
    ∃ s', asyncLoop ids outcome pending limit s = .ok s' ∧ s'.Ended s.err s.filled ∧
      s'.sent = s.sent := by
  induction limit generalizing s i with
  | zero =>
    have hzero : s.outstanding = 0 := by omega
    have hsent := h.sent_eq
    refine ⟨s, by rw [asyncLoop, if_pos ⟨hdone, hzero⟩], ⟨?_, ?_, rfl, rfl⟩, rfl⟩
    · rw [h.list_eq, hzero, List.range'_zero]
    · rw [hsent, hzero]
      exact h.handled
  | succ limit ih =>
    rw [asyncLoop]
    by_cases hzero : s.outstanding = 0
    · have hsent := h.sent_eq
      refine ⟨s, if_pos ⟨hdone, hzero⟩, ⟨?_, ?_, rfl, rfl⟩, rfl⟩
      · rw [h.list_eq, hzero, List.range'_zero]
      · rw [hsent, hzero]
        exact h.handled
    · obtain ⟨s₁, hnext, hwindow, hout, hdone₁, herr, hfilled, hsent⟩ :=
        next_done ids pending h hdone (by omega) hreceived
      obtain ⟨s₂, hloop, hended, hsent₂⟩ := ih hwindow hdone₁ (by omega)
      rw [if_neg fun hend => hzero hend.2, sendRequests_done hdone, ok_bind, hnext, ok_bind]
      rw [herr, hfilled] at hended
      exact ⟨s₂, hloop, hended, hsent₂.trans hsent⟩

theorem round_done (limit : ℕ) (hdone : s.done = true) :
    (s.next ids outcome pending >>= asyncLoop ids outcome pending limit) =
      asyncLoop ids outcome pending (limit + 1) s := by
  rw [asyncLoop]
  by_cases hzero : s.outstanding = 0
  · rw [if_pos ⟨hdone, hzero⟩, Readdir.next, if_pos hzero, ok_bind]
    cases limit with
    | zero => rw [asyncLoop, if_pos ⟨hdone, hzero⟩]
    | succ limit => rw [asyncLoop, if_pos ⟨hdone, hzero⟩]
  · rw [if_neg fun hend => hzero hend.2, sendRequests_done hdone, ok_bind]

/-- What taking a reply changes. -/
structure Readdir.Took (part : List Filled) (s s' : Readdir) : Prop where
  list : s'.list = s.list
  outstanding : s'.outstanding = s.outstanding
  sent : s'.sent = s.sent
  waited : s'.waited = s.waited
  dropped : s'.dropped = s.dropped
  filled : s'.filled = s.filled ++ part
  max : s.max ≤ s'.max
  max_le : s.max ≤ READDIR_MAX → s'.max ≤ READDIR_MAX

/-- With the reply to request `i` both functions go on, or both end with the same result. -/
theorem takeReply_agrees {limit : ℕ} {err : ℤ} {filled : List Filled}
    (hreceived : (outcome i).Received) (hdone : s.done = false)
    (h : syncLoop ids outcome (limit + 1) i = .ok (err, filled)) :
    ∃ s' part, s.takeReply ids (outcome i) = .ok s' ∧ s.Took part s' ∧
      ((s'.done = true ∧ s'.err = err ∧ part = filled) ∨
        (s'.done = false ∧ ∃ more, filled = part ++ more ∧
          syncLoop ids outcome limit (i + 1) = .ok (err, more))) := by
  obtain ⟨tmperr, name, hwait, hname⟩ := readdirWait_ok hreceived
  rw [syncLoop, hwait, ok_bind] at h
  rw [Readdir.takeReply, hwait, ok_bind]
  dsimp only at h ⊢
  rw [if_neg (by rw [hdone]; decide)]
  by_cases htmp : tmperr ≠ 0
  · rw [if_pos htmp] at h ⊢
    cases h
    exact ⟨_, [], rfl, ⟨rfl, rfl, rfl, rfl, rfl, (List.append_nil _).symm, le_rfl, id⟩,
      Or.inl ⟨rfl, rfl, rfl⟩⟩
  · rw [if_neg htmp] at h ⊢
    obtain ⟨⟨ferr, part⟩, hfill, h⟩ := bind_ok_iff.mp h
    have hferr : ferr ≠ MY_EOF := by
      match name, hfill with
      | some bytes, hfill => exact fillEntries_err (hname bytes rfl) hfill
    rw [hfill, ok_bind]
    have htook : s.Took part { s with
        err := ferr
        filled := s.filled ++ part
        max := if s.max < READDIR_MAX then s.max + 1 else s.max
        done := decide (ferr ≠ 0) } := by
      refine ⟨rfl, rfl, rfl, rfl, rfl, rfl, ?_, ?_⟩
      · dsimp only
        split_ifs <;> omega
      · intro hle
        dsimp only
        split_ifs <;> omega
    refine ⟨_, part, rfl, htook, ?_⟩
    dsimp only at h ⊢
    by_cases hzero : ferr ≠ 0
    · rw [if_pos hzero, if_neg hferr] at h
      cases h
      exact Or.inl ⟨decide_eq_true hzero, rfl, rfl⟩
    · rw [if_neg hzero] at h
      obtain ⟨⟨err', more⟩, hmore, h⟩ := bind_ok_iff.mp h
      cases h
      exact Or.inr ⟨decide_eq_false hzero, more, rfl, hmore⟩

/-- The loop waits for the reply to request `i`, the first in the list. -/
def Readdir.waiting (i : ℕ) (s : Readdir) : Readdir :=
  { s with
    list := List.range' (i + 1) (s.outstanding - 1)
    outstanding := s.outstanding - 1
    waited := s.waited ++ [i] }

theorem next_waiting (h : s.Window i) (hdone : s.done = false) (hpos : 0 < s.outstanding) :
    s.next ids outcome pending = (s.waiting i).takeReply ids (outcome i) := by
  rw [Readdir.next, if_neg (by omega), list_cons h hpos]
  exact if_neg (by simp [hdone])

theorem Readdir.Window.took {s' : Readdir} {part : List Filled} (h : s.Window i)
    (hpos : 0 < s.outstanding) (htook : (s.waiting i).Took part s') : s'.Window (i + 1) := by
  apply h.next hpos htook.list htook.outstanding htook.sent htook.max (htook.max_le h.max_le)
  rw [htook.waited, htook.dropped, Readdir.waiting, List.append_assoc]
  exact List.perm_middle

/-- From any window on, the loop ends as the synchronous one does, or at a request that cannot be
sent. -/
theorem asyncLoop_agrees {limit : ℕ} {err : ℤ} {filled : List Filled} (h : s.Window i)
    (hdone : s.done = false) (hreceived : ∀ j, (outcome j).Received)
    (hsync : syncLoop ids outcome limit i = .ok (err, filled)) :
    ∃ s' err' part, asyncLoop ids outcome pending (limit + READDIR_MAX) s = .ok s' ∧
      s'.Ended err' (s.filled ++ part) ∧ part <+: filled ∧
      ((err' = err ∧ part = filled) ∨ (err' = - EIO ∧ outcome s'.sent = .unsent)) := by
  induction limit generalizing s i filled with
  | zero => cases hsync
  | succ limit ih =>
    obtain ⟨s₁, hsend, hwindow, hfilled, hcases⟩ :=
      sendRequests_window outcome h hdone (Nat.le_add_left s.max s.outstanding)
    have hbound := hwindow.le_max.trans hwindow.max_le
    rw [Nat.add_right_comm, asyncLoop, if_neg (by simp [hdone]), hsend, ok_bind]
    rcases hcases with ⟨hdone₁, hpos⟩ | ⟨hdone₁, herr₁, hunsent⟩
    · obtain ⟨s₂, part, htake, htook, hend⟩ :=
        takeReply_agrees (hreceived i) (show (s₁.waiting i).done = false from hdone₁) hsync
      have hwindow₂ := hwindow.took hpos htook
      have hfilled₂ : s₂.filled = s.filled ++ part := htook.filled.trans (by rw [← hfilled]; rfl)
      rw [next_waiting hwindow hdone₁ hpos, htake, ok_bind]
      rcases hend with ⟨hdone₂, herr, rfl⟩ | ⟨hdone₂, more, rfl, hsync₂⟩
      · obtain ⟨s₃, hrun, hended, -⟩ := asyncLoop_done ids pending hwindow₂ hdone₂
          (show s₂.outstanding ≤ limit + READDIR_MAX by
            have := hwindow₂.le_max.trans hwindow₂.max_le
            omega) hreceived
        rw [herr, hfilled₂] at hended
        exact ⟨s₃, err, part, hrun, hended, List.prefix_refl _, Or.inl ⟨rfl, rfl⟩⟩
      · obtain ⟨s₃, err', part', hrun, hended, hstart, hresult⟩ := ih hwindow₂ hdone₂ hsync₂
        rw [hfilled₂, List.append_assoc] at hended
        refine ⟨s₃, err', part ++ part', hrun, hended,
          (List.prefix_append_right_inj part).mpr hstart, ?_⟩
        rcases hresult with ⟨rfl, rfl⟩ | hunsent
        · exact Or.inl ⟨rfl, rfl⟩
        · exact Or.inr hunsent
    · obtain ⟨s₂, hrun, hended, hsent⟩ := asyncLoop_done ids pending hwindow hdone₁
        (show s₁.outstanding ≤ limit + READDIR_MAX + 1 by omega) hreceived
      rw [herr₁, hfilled] at hended
      refine ⟨s₂, - EIO, [], ?_, ?_, List.nil_prefix, Or.inr ⟨rfl, by rwa [hsent]⟩⟩
      · exact (round_done _ hdone₁).trans hrun
      · rwa [List.append_nil]

theorem window_start : ({} : Readdir).Window 0 :=
  ⟨rfl, rfl, by decide, by decide, by decide, .refl _⟩

end Window

/-- With several requests on the way `sftp_readdir_async` fills in the same entries with the same
result as `sftp_readdir_sync`, whatever the server answers as long as it answers. Only when a
request cannot be sent it may stop earlier, and then it reports that. Every request that was sent
is waited for or given up, and none twice. -/
theorem readdir_agrees (ids : SftpIds) (outcome : ℕ → Outcome) (pending : ℕ → Bool) {limit : ℕ}
    {err : ℤ} {filled : List Filled} (hreceived : ∀ i, (outcome i).Received)
    (hsync : sftpReaddirSync ids outcome limit = .ok (err, filled)) :
    ∃ s, sftpReaddirAsync ids outcome pending (limit + READDIR_MAX) = .ok s ∧ s.list = [] ∧
      (s.waited ++ s.dropped).Perm (List.range s.sent) ∧ s.filled <+: filled ∧
      ((s.err = err ∧ s.filled = filled) ∨ (s.err = - EIO ∧ outcome s.sent = .unsent)) := by
  obtain ⟨s, err', part, hrun, hended, hstart, hresult⟩ :=
    asyncLoop_agrees window_start rfl hreceived hsync
  have hfilled : s.filled = part := hended.filled
  refine ⟨s, hrun, hended.list, hended.handled, by rwa [hfilled], ?_⟩
  rcases hresult with ⟨rfl, rfl⟩ | ⟨rfl, hunsent⟩
  · exact Or.inl ⟨hended.err, hfilled⟩
  · exact Or.inr ⟨hended.err, hunsent⟩

def oneEntry : ℕ → Outcome
  | 0 => .reply SSH_FXP_NAME (.filled [0, 0, 0, 1, 0, 0, 0, 1, 97, 0, 0, 0, 0, 0, 0, 0, 0])
  | _ + 1 => .reply SSH_FXP_STATUS (.filled [0, 0, 0, 1])

theorem oneEntry_received (i : ℕ) : (oneEntry i).Received := by
  cases i with
  | zero => exact filled_received _ (by decide)
  | succ i => exact filled_received _ (by decide)

theorem readdir_agrees_one :
    ∃ s, sftpReaddirAsync .mounted oneEntry (fun _ => false) (2 + READDIR_MAX) = .ok s ∧
      s.list = [] ∧ s.err = 0 ∧ s.filled.map Filled.name = [[97]] := by
  obtain ⟨s, hrun, hlist, -, -, hresult⟩ :=
    readdir_agrees .mounted oneEntry (fun _ => false) oneEntry_received
      (show sftpReaddirSync .mounted oneEntry 2 = .ok (0, _) from rfl)
  have hsent : oneEntry s.sent ≠ .unsent := by
    cases s.sent with
    | zero => exact nofun
    | succ i => exact nofun
  rcases hresult with ⟨herr, hfilled⟩ | ⟨-, hunsent⟩
  · exact ⟨s, hrun, hlist, herr, by rw [hfilled]; rfl⟩
  · exact absurd hunsent hsent

end Defuse.Sshfs
