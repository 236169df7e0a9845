import Defuse.Proofs.SftpStages

/-! The threads that make requests: `sftp_request_send` and `sftp_request_wait` step by step. -/

namespace Defuse.Sshfs

open CSem

section Callers

namespace Requests

variable {s s' : Requests} {p : ℕ} {c : Caller}

theorem Sound.lt_next (h : s.Sound) (hc : s.callers p = some c) : p < s.next := by
  by_contra hle
  rw [(h.fresh p (by omega)).2.1] at hc
  cases hc

theorem Sound.stage_of (h : s.Sound) (hc : s.callers p = some c) :
    Stage (s.Answered p) (.ofNat p) c (s.view p) := by
  obtain ⟨c', hc', hstage⟩ := h.stage p (h.lt_next hc)
  obtain rfl := Option.some.inj (hc.symm.trans hc')
  exact hstage

theorem get_eq {r : Request} (hr : (s.view p).request = some r) : s.get p = .ok r := by
  change s.heap p = some r at hr
  rw [get, hr]

theorem locked_iff : s.locked = true ↔ ∃ p, s.receiver = .stuck p := by
  unfold locked
  cases s.receiver with
  | stuck p => simp
  | off => simp
  | reading => simp
  | closing => simp
  | completing req type buf => simp

theorem not_stuck (h : ¬ s.locked = true) : (s.view p).stuck = false :=
  decide_eq_false fun hstuck => h (locked_iff.mpr ⟨p, hstuck⟩)

theorem write_sound (h : s.Sound) (hc : s.callers p = some c) : (s.write p c).Sound := by
  unfold write
  split
  next id hpoint =>
    split_ifs with hdown
    · exact h
    · have hp := h.lt_next hc
      obtain ⟨rfl, r, hlive, hcases⟩ :=
        (h.stage_of hc).sending hpoint (not_stuck fun hlocked => hdown (Or.inr hlocked))
      refine h.moves hp ((moves_outstanding h.next_le hp ?_).trans (moves_goto c .written))
        ⟨_, Function.update_self .., ?_⟩
      · intro id hne
        simp [hne]
      · rcases hcases with ⟨hat, hready, herror, hwant, -⟩ | ⟨hat, herror, hexpect⟩
        · exact .pending r ⟨hlive.1, hlive.2⟩ ⟨hat.1, hat.2, hat.3, hat.4⟩ hready herror hwant
            (decide_eq_true List.mem_cons_self)
        · exact .failed r ⟨hlive.1, hlive.2⟩ ⟨hat.1, hat.2, hat.3, hat.4⟩ herror
            (decide_eq_true hexpect).symm
  next => exact h

theorem sent_sound (h : s.Sound) (hc : s.callers p = some c) : (s.sent p c).Sound := by
  unfold sent
  split
  next hpoint =>
    refine h.moves (h.lt_next hc) (moves_goto c _) ⟨_, Function.update_self .., ?_⟩
    by_cases hexpect : c.expectType = 0
    · rw [if_pos hexpect]
      apply (h.stage_of hc).caller
      · intro want hfits
        unfold Caller.Fits at hfits
        rw [hpoint] at hfits
        exact ⟨by simpa [hexpect] using hfits, hexpect, rfl, rfl⟩
      · rw [hpoint]
        rfl
      · intro _
        exact Or.inl ⟨hexpect, rfl, rfl⟩
      · rw [hpoint]
        exact ⟨nofun, nofun⟩
      · intro err outbuf
        rw [hpoint]
        nofun
    · rw [if_neg hexpect]
      apply (h.stage_of hc).caller
      · intro want hfits
        unfold Caller.Fits at hfits
        rw [hpoint] at hfits
        exact hfits.trans (decide_eq_true hexpect)
      · rw [hpoint]
        rfl
      · intro hover
        unfold Caller.Over at hover
        rw [hpoint] at hover
        exact absurd hover hexpect
      · rw [hpoint]
        exact ⟨nofun, nofun⟩
      · intro err outbuf
        rw [hpoint]
        nofun
  next => exact h

def failedPoint (c : Caller) : CallerPoint :=
  if c.expectType = 0 then .leaving (- EIO) none else .refused

theorem sendFailed_eq {r : Request} (hr : (s.view p).request = some r) :
    s.sendFailed p c =
      .ok ((s.put p (some { r with error := - EIO })).goto p c (failedPoint c)) := by
  rw [sendFailed, get_eq hr, ok_bind, failedPoint]
  split_ifs
  · rfl
  · rfl

theorem sendFailed_stage {r : Request} (hlive : (s.view p).Live (.ofNat p) r)
    (hat : (s.view p).At false none false false) :
    ((s.put p (some { r with error := - EIO })).goto p c (failedPoint c)).StageOf p := by
  have hview : ∀ point, ((s.put p (some { r with error := - EIO })).goto p c point).view p =
      { s.view p with request := some { r with error := - EIO } } := fun _ => view_put _
  refine ⟨_, Function.update_self .., ?_⟩
  rw [hview, failedPoint]
  by_cases hexpect : c.expectType = 0
  · rw [if_pos hexpect]
    exact .leaving _ (- EIO) none ⟨rfl, hlive.2⟩ ⟨hat.1, hat.2, hat.3, hat.4⟩ rfl (Or.inl ⟨rfl, rfl⟩)
  · rw [if_neg hexpect]
    exact .refused _ ⟨rfl, hlive.2⟩ ⟨hat.1, hat.2, hat.3, hat.4⟩ rfl (Or.inl rfl)

theorem unsent_sound (h : s.Sound) (hc : s.callers p = some c) :
    ∃ s', s.unsent p c = .ok s' ∧ s'.Sound := by
  unfold unsent
  split
  next id hpoint =>
    by_cases hlocked : s.locked = true
    · rw [if_pos hlocked]
      exact ⟨s, rfl, h⟩
    · rw [if_neg hlocked]
      have hp := h.lt_next hc
      obtain ⟨rfl, r, hlive, hcases⟩ := (h.stage_of hc).sending hpoint (not_stuck hlocked)
      have hmoves : Moves s (s.remove (.ofNat p)) p := moves_remove h.next_le hp
      -- a request that the receiver has taken and freed is not at this point
      have hheld : ¬ (¬ (s.reqtab.lookup (.ofNat p)).isSome = true ∧ c.expectType = 0) := by
        rintro ⟨hgone, hexpect⟩
        rcases hcases with ⟨hat, -⟩ | ⟨-, -, hne⟩
        · rw [h.lookup_pending hp hat.pending] at hgone
          exact hgone rfl
        · exact hne hexpect
      have hat : ((s.remove (.ofNat p)).view p).At false none false false := by
        rw [view_remove]
        rcases hcases with ⟨hat, -⟩ | ⟨hat, -⟩
        · exact ⟨rfl, hat.2, hat.3, hat.4⟩
        · exact ⟨rfl, hat.2, hat.3, hat.4⟩
      rw [if_neg hheld]
      have hlive' : ((s.remove (.ofNat p)).view p).Live (.ofNat p) r := ⟨hlive.1, hlive.2⟩
      exact ⟨_, sendFailed_eq hlive'.request,
        h.moves hp (hmoves.trans ((moves_put _).trans (moves_goto c _))) (sendFailed_stage hlive' hat)⟩
  next => exact ⟨s, rfl, h⟩

theorem drop_sound (h : s.Sound) (hc : s.callers p = some c) :
    ∃ s', s.drop p c = .ok s' ∧ s'.Sound := by
  unfold drop
  split
  next hpoint =>
    by_cases hlocked : s.locked = true
    · rw [if_pos hlocked]
      exact ⟨s, rfl, h⟩
    · rw [if_neg hlocked]
      have hp := h.lt_next hc
      obtain ⟨r, hlive, hcases⟩ := (h.stage_of hc).holding hpoint
      rw [get_eq hlive.request, ok_bind]
      -- only a request in the table is given up
      cases hpending : (s.view p).pending with
      | false =>
        rw [hlive.id_eq, h.lookup_none hp hpending]
        exact ⟨s, rfl, h⟩
      | true =>
        rw [if_pos (by rw [hlive.id_eq, h.lookup_pending hp hpending]; rfl)]
        refine ⟨_, rfl, h.moves hp ((moves_put _).trans (moves_goto c _))
          ⟨_, Function.update_self .., ?_⟩⟩
        rw [show ((s.put p (some { r with wantReply := false })).goto p c .dropped).view p =
          { s.view p with request := some { r with wantReply := false } } from view_put _]
        rcases hcases with ⟨hat, hready, herror, howed⟩ | ⟨hnot, -⟩ | ⟨hat, -⟩ | ⟨hat, -⟩
        · exact .pending _ ⟨rfl, hlive.2⟩ ⟨hat.1, hat.2, hat.3, hat.4⟩ hready herror rfl howed
        · exact absurd (hpending.symm.trans hnot) nofun
        · exact absurd (hpending.symm.trans hat.pending) nofun
        · exact absurd (hpending.symm.trans hat.pending) nofun
  next => exact ⟨s, rfl, h⟩

theorem forget_sound (h : s.Sound) (hc : s.callers p = some c) : (s.forget p c).Sound := by
  unfold forget
  split
  next hpoint =>
    split_ifs with hreaddir
    · obtain ⟨r, hlive, hat, herror⟩ := (h.stage_of hc).of_refused hpoint
      refine h.moves (h.lt_next hc) (moves_goto c _) ⟨_, Function.update_self .., ?_⟩
      exact .refused r ⟨hlive.1, hlive.2⟩ ⟨hat.1, hat.2, hat.3, hat.4⟩ herror (Or.inr rfl)
    · exact h
  next => exact h

/-- The result for a reply that was received. -/
theorem replyResult_ok (type expectType replyType : UInt8) {reply : SftpBuffer}
    (hreply : reply.Received) :
    ∃ err outbuf, replyResult type expectType replyType reply = .ok (err, outbuf) ∧
      ∀ bytes, outbuf = some bytes → bytes.length + 1 < 2 ^ 32 := by
  unfold replyResult
  split_ifs with hother hstatus
  · exact ⟨_, _, rfl, nofun⟩
  · obtain ⟨res, reply', hrun, -⟩ := decodes_uint32 reply hreply
    rw [hrun, ok_bind]
    cases res with
    | error e => exact ⟨_, _, rfl, nofun⟩
    | ok serr => exact ⟨_, _, rfl, nofun⟩
  · have hsize := hreply.2.1
    obtain ⟨res, reply', hrun, hres⟩ :=
      decodes_mem (show reply.size - reply.len < 2 ^ 32 by omega) reply hreply
    rw [hrun, ok_bind]
    refine ⟨_, _, rfl, ?_⟩
    intro bytes hbytes
    cases res with
    | error e => exact nomatch hbytes
    | ok a =>
      obtain ⟨-, w, ⟨hlength, -⟩, -⟩ := hres
      obtain rfl := Option.some.inj hbytes
      omega

theorem wait_failed_sound {r : Request} (h : s.Sound) (hc : s.callers p = some c)
    (hlive : (s.view p).Live (.ofNat p) r) (hat : (s.view p).At false none false false)
    (herror : r.error = - EIO) : (s.goto p c (.leaving r.error none)).Sound :=
  h.moves (h.lt_next hc) (moves_goto c _) ⟨_, Function.update_self ..,
    .leaving r r.error none ⟨hlive.1, hlive.2⟩ ⟨hat.1, hat.2, hat.3, hat.4⟩ rfl
      (Or.inl ⟨herror, rfl⟩)⟩

theorem wait_sound (h : s.Sound) (hc : s.callers p = some c) :
    ∃ s', s.wait p c = .ok s' ∧ s'.Sound := by
  unfold wait
  split
  next hpoint =>
    have hp := h.lt_next hc
    obtain ⟨r, hlive, hcases⟩ := (h.stage_of hc).holding hpoint
    rw [sftpRequestWait, get_eq hlive.request, ok_bind]
    rcases hcases with ⟨-, hready, herror, -⟩ | ⟨-, hready, herror, -⟩ |
      ⟨hat, hready, herror, hanswered, hbuf⟩ | ⟨hat, herror⟩
    · rw [if_neg (by rw [herror]; simp), if_pos hready]
      exact ⟨s, rfl, h⟩
    · rw [if_neg (by rw [herror]; simp), if_pos hready]
      exact ⟨s, rfl, h⟩
    · rw [if_neg (by rw [herror]; simp), if_neg (by omega)]
      obtain ⟨err, outbuf, hresult, -⟩ := replyResult_ok c.type c.expectType r.replyType hbuf
      rw [hresult, ok_bind]
      refine ⟨_, rfl, h.moves hp ((moves_put _).trans (moves_goto c _))
        ⟨_, Function.update_self .., ?_⟩⟩
      rw [show ((s.put p (some { r with ready := r.ready - 1 })).goto p c (.leaving err outbuf)).view p =
        { s.view p with request := some { r with ready := r.ready - 1 } } from view_put _]
      exact .leaving _ err outbuf ⟨rfl, hlive.2⟩ ⟨hat.1, hat.2, hat.3, hat.4⟩ rfl
        (Or.inr ⟨_, _, hanswered, hresult⟩)
    · rw [if_pos (by rw [herror]; decide)]
      exact ⟨_, rfl, wait_failed_sound h hc hlive hat herror⟩
  next hpoint =>
    obtain ⟨r, hlive, hat, herror⟩ := (h.stage_of hc).of_refused hpoint
    rw [sftpRequestWait, get_eq hlive.request, ok_bind, if_pos (by rw [herror]; decide)]
    exact ⟨_, rfl, wait_failed_sound h hc hlive hat herror⟩
  next => exact ⟨s, rfl, h⟩

theorem moves_free (hended : (s.view p).ended = false) : Moves s (s.free p) p :=
  (moves_put none).trans (moves_ended (of_decide_eq_false hended))

theorem view_free : (s.free p).view p = { s.view p with request := none, ended := true } := by
  have hended : decide (p ∈ (s.free p).ended) = true := decide_eq_true (List.mem_append_right _ (by simp))
  have hheap : (s.free p).heap p = none := Function.update_self ..
  rw [view, hended, hheap]
  rfl

theorem leave_sound (h : s.Sound) (hc : s.callers p = some c) :
    ∃ s', s.leave p c = .ok s' ∧ s'.Sound := by
  unfold leave
  split
  next err outbuf hpoint =>
    by_cases hlocked : s.locked = true
    · rw [if_pos hlocked]
      exact ⟨s, rfl, h⟩
    · rw [if_neg hlocked]
      obtain ⟨r, hlive, hat, hresult⟩ := (h.stage_of hc).of_leaving hpoint
      rw [get_eq hlive.request, ok_bind]
      refine ⟨_, rfl, h.moves (h.lt_next hc) ((moves_free hat.ended).trans (moves_goto c _))
        ⟨_, Function.update_self .., ?_⟩⟩
      rw [show ((s.free p).goto p c (.returned err outbuf)).view p =
        { s.view p with request := none, ended := true } from view_free]
      exact .freed rfl ⟨hat.1, hat.2, rfl, hat.4⟩ (Or.inr hresult)
  next => exact ⟨s, rfl, h⟩

theorem callerStep_sound (h : s.Sound) (hc : s.callers p = some c) (step : CallerStep) :
    ∃ s', s.callerStep p c step = .ok s' ∧ s'.Sound := by
  cases step with
  | write => exact ⟨_, rfl, write_sound h hc⟩
  | sent => exact ⟨_, rfl, sent_sound h hc⟩
  | unsent => exact unsent_sound h hc
  | drop => exact drop_sound h hc
  | forget => exact ⟨_, rfl, forget_sound h hc⟩
  | wait => exact wait_sound h hc
  | leave => exact leave_sound h hc

end Requests

end Callers

section Sending

namespace Requests

variable {s s' : Requests} {p q : ℕ}

/-- A new request. -/
structure Extends (s s' : Requests) : Prop where
  next : s'.next = s.next + 1
  idctr : s'.idctr = s.idctr + 1
  fresh : ∀ q, q ≠ s.next → s'.heap q = s.heap q ∧ s'.callers q = s.callers q
  reqtab : s'.reqtab = s.reqtab ∨ s'.reqtab = (.ofNat s.next, s.next) :: s.reqtab
  ended : s'.ended = s.ended
  off : s'.receiver = .off → s.receiver = .off ∧ s'.reqtab = s.reqtab
  busy : s'.receiver.request = s.receiver.request
  known : s'.outstanding ⊆ s.outstanding

theorem Sound.new_notMem (h : s.Sound) : (UInt32.ofNat s.next, s.next) ∉ s.reqtab := by
  intro hmem
  have := (h.table _ hmem).1
  omega

theorem Sound.extends (h : s.Sound) (hnext : s.next < 2 ^ 32) (hext : Extends s s')
    (hstage : ∀ q < s.next, s'.StageOf q) (hnew : s'.StageOf s.next) : s'.Sound where
  next_le := by rw [hext.next]; exact hnext
  idctr_eq := by
    rw [hext.idctr, hext.next, h.idctr_eq]
    exact (UInt32.ofNat_add _ _).symm
  fresh := by
    intro q hq
    rw [hext.next] at hq
    obtain ⟨hheap, hcallers, hended⟩ := h.fresh q (by omega)
    obtain ⟨hheap', hcallers'⟩ := hext.fresh q (by omega)
    exact ⟨hheap'.trans hheap, hcallers'.trans hcallers, by rwa [hext.ended]⟩
  table := by
    intro e he
    rw [hext.next]
    have hold (hmem : e ∈ s.reqtab) : e.2 < s.next + 1 ∧ e.1 = .ofNat e.2 := by
      obtain ⟨hlt, hnumber⟩ := h.table e hmem
      exact ⟨by omega, hnumber⟩
    rcases hext.reqtab with heq | heq
    · rw [heq] at he
      exact hold he
    · rw [heq] at he
      rcases List.mem_cons.mp he with rfl | hmem
      · exact ⟨Nat.lt_succ_self _, rfl⟩
      · exact hold hmem
  table_nodup := by
    rcases hext.reqtab with heq | heq
    · rw [heq]
      exact h.table_nodup
    · rw [heq]
      exact List.nodup_cons.mpr ⟨h.new_notMem, h.table_nodup⟩
  ended_nodup := by rw [hext.ended]; exact h.ended_nodup
  off := by
    intro hoff
    obtain ⟨hoff', heq⟩ := hext.off hoff
    rw [heq]
    exact h.off hoff'
  busy := by
    intro q hq
    rw [hext.busy] at hq
    have := h.busy q hq
    rw [hext.next]
    omega
  known := by
    intro id hid
    obtain ⟨q, hq, rfl⟩ := h.known id (hext.known hid)
    exact ⟨q, by rw [hext.next]; omega, rfl⟩
  stage := by
    intro q hq
    rw [hext.next] at hq
    rcases Nat.lt_succ_iff_lt_or_eq.mp hq with hlt | rfl
    · exact hstage q hlt
    · exact hnew

theorem ofNat_ne_next (hnext : s.next < 2 ^ 32) (hq : q < s.next) :
    UInt32.ofNat q ≠ UInt32.ofNat s.next := by
  intro heq
  have := ofNat_inj (n := s.next + 1) hnext (by omega) (by omega) heq
  omega

theorem Sound.remove_new (h : s.Sound) (hnext : s.next < 2 ^ 32) :
    s.reqtab.filter (·.1 ≠ UInt32.ofNat s.next) = s.reqtab := by
  rw [List.filter_eq_self]
  intro e he
  obtain ⟨hlt, hnumber⟩ := h.table e he
  rw [hnumber]
  exact decide_eq_true (ofNat_ne_next hnext hlt)

theorem view_create (expectType : UInt8) (hq : q < s.next) :
    (s.create expectType).view q = s.view q :=
  view_congr (Function.update_of_ne (by omega) ..) .rfl .rfl .rfl rfl .rfl

/-- A new request that is in the table. -/
theorem inserted_stage (h : s.Sound) (type expectType : UInt8)
    (hheap : s'.heap s.next = some { id := s.idctr, wantReply := expectType ≠ 0 })
    (hcallers : s'.callers s.next = some ⟨type, expectType, .sending s.idctr⟩)
    (hreqtab : (UInt32.ofNat s.next, s.next) ∈ s'.reqtab)
    (howed : UInt32.ofNat s.next ∉ s'.outstanding) (hended : s'.ended = s.ended)
    (hreceiver : s'.receiver.request ≠ some s.next) : s'.StageOf s.next := by
  refine ⟨_, hcallers, .pending _ ⟨hheap, h.idctr_eq⟩ ⟨decide_eq_true hreqtab, ?_, ?_, ?_⟩ rfl rfl
    ⟨h.idctr_eq, rfl⟩ (decide_eq_false howed)⟩
  · change s'.receiver.replyFor s.next = none
    cases hr : s'.receiver with
    | completing req ty buf =>
      rw [hr] at hreceiver
      exact if_neg fun heq => hreceiver (congrArg some heq)
    | off => rfl
    | reading => rfl
    | closing => rfl
    | stuck req => rfl
  · apply decide_eq_false
    rw [hended]
    exact (h.fresh _ le_rfl).2.2
  · apply decide_eq_false
    intro hstuck
    rw [hstuck] at hreceiver
    exact hreceiver rfl

/-- `sftp_request_send` with a receiver that is there or has just been started. -/
theorem inserted_sound (h : s.Sound) (hnext : s.next < 2 ^ 32) (type expectType : UInt8)
    {receiver : Receiver} {ids : List UInt32} (hoff : receiver ≠ .off)
    (hrequest : receiver.request = s.receiver.request) (hids : ids ⊆ s.outstanding)
    (hreply : ∀ q, receiver.replyFor q = s.receiver.replyFor q)
    (hstuck : ∀ q, receiver = .stuck q ↔ s.receiver = .stuck q)
    (howed : ∀ q, (s.view q).pending = true → (UInt32.ofNat q ∈ ids ↔ UInt32.ofNat q ∈ s.outstanding)) :
    ({ (s.create expectType).insert s.idctr s.next with receiver, outstanding := ids }.goto s.next
      ⟨type, expectType, .sending s.idctr⟩ (.sending s.idctr)).Sound := by
  have hreqtab : ((s.create expectType).insert s.idctr s.next).reqtab =
      (.ofNat s.next, s.next) :: s.reqtab := by
    change (s.idctr, s.next) :: s.reqtab.filter (·.1 ≠ s.idctr) = _
    rw [h.idctr_eq, h.remove_new hnext]
  set s' : Requests := { (s.create expectType).insert s.idctr s.next with
    receiver, outstanding := ids }.goto s.next ⟨type, expectType, .sending s.idctr⟩
      (.sending s.idctr)
  have hheap (q : ℕ) (hq : q ≠ s.next) : s'.heap q = s.heap q := Function.update_of_ne hq ..
  have hcallers (q : ℕ) (hq : q ≠ s.next) : s'.callers q = s.callers q :=
    Function.update_of_ne hq ..
  have hreqtab' : s'.reqtab = (.ofNat s.next, s.next) :: s.reqtab := hreqtab
  refine h.extends hnext ⟨rfl, rfl, fun q hq => ⟨hheap q hq, hcallers q hq⟩, Or.inr hreqtab, rfl,
    fun heq => absurd heq hoff, hrequest, hids⟩ ?_ ?_
  · intro q hq
    obtain ⟨c, hc, hstage⟩ := h.stage q hq
    refine ⟨c, (hcallers q (by omega)).trans hc, ?_⟩
    have htable : (UInt32.ofNat q, q) ∈ s'.reqtab ↔ (UInt32.ofNat q, q) ∈ s.reqtab := by
      rw [hreqtab', List.mem_cons]
      refine or_iff_right ?_
      intro heq
      exact absurd (Prod.mk.inj heq).2 (by omega)
    cases hpending : (s.view q).pending with
    | true =>
      have hview : s'.view q = s.view q :=
        view_congr (hheap q (by omega)) htable (howed q hpending) .rfl (hreply q) (hstuck q)
      rw [hview]
      exact hstage
    | false =>
      have hview : s'.view q = { s with outstanding := ids }.view q :=
        view_congr (hheap q (by omega)) htable .rfl .rfl (hreply q) (hstuck q)
      rw [hview]
      exact hstage.owed hpending _
  · have hmem : (UInt32.ofNat s.next, s.next) ∈ s'.reqtab := by
      rw [hreqtab']
      exact List.mem_cons_self
    have hnew : UInt32.ofNat s.next ∉ s'.outstanding := by
      intro hmem
      obtain ⟨q, hq, heq⟩ := h.known _ (hids hmem)
      exact ofNat_ne_next hnext hq heq.symm
    have hbusy : s'.receiver.request ≠ some s.next := by
      intro hbusy
      exact absurd (h.busy _ (hrequest.symm.trans hbusy)) (lt_irrefl _)
    have hself : s'.heap s.next = some { id := s.idctr, wantReply := expectType ≠ 0 } :=
      Function.update_self ..
    have hcaller : s'.callers s.next = some ⟨type, expectType, .sending s.idctr⟩ :=
      Function.update_self ..
    exact inserted_stage h type expectType hself hcaller hmem hnew rfl hbusy

/-- `sftp_request_send` where there is no receiver and none can be started. -/
theorem create_sendFailed_sound (h : s.Sound) (hnext : s.next < 2 ^ 32) (c : Caller)
    (hoff : s.receiver = .off) :
    ∃ s', (s.create c.expectType).sendFailed s.next c = .ok s' ∧ s'.Sound := by
  have hself : (s.create c.expectType).heap s.next =
    some { id := s.idctr, wantReply := c.expectType ≠ 0 } := Function.update_self ..
  have hat : ((s.create c.expectType).view s.next).At false none false false := by
    refine ⟨decide_eq_false h.new_notMem, ?_, decide_eq_false (h.fresh _ le_rfl).2.2, ?_⟩
    · change s.receiver.replyFor s.next = none
      rw [hoff]
      rfl
    · change decide (s.receiver = .stuck s.next) = false
      rw [hoff]
      rfl
  have hlive : ((s.create c.expectType).view s.next).Live (.ofNat s.next) _ := ⟨hself, h.idctr_eq⟩
  refine ⟨_, sendFailed_eq hlive.request, h.extends hnext ⟨rfl, rfl, ?_, Or.inl rfl, rfl,
    fun _ => ⟨hoff, rfl⟩, rfl, List.Subset.refl _⟩ ?_ (sendFailed_stage hlive hat)⟩
  · intro q hq
    refine ⟨?_, Function.update_of_ne hq ..⟩
    exact (Function.update_of_ne hq ..).trans (Function.update_of_ne hq ..)
  · intro q hq
    obtain ⟨c', hc', hstage'⟩ := h.stage q hq
    refine ⟨c', (Function.update_of_ne (by omega) ..).trans hc', ?_⟩
    rw [((moves_put _).trans (moves_goto c _)).view q (Nat.lt_succ_of_lt hq) (by omega),
      view_create _ hq]
    exact hstage'

theorem send_sound (h : s.Sound) (hnext : s.next < 2 ^ 32) (type expectType : UInt8)
    (connects : Bool) : ∃ s', s.send type expectType connects = .ok s' ∧ s'.Sound := by
  unfold send
  by_cases hlocked : s.locked = true
  · rw [if_pos hlocked]
    exact ⟨s, rfl, h⟩
  rw [if_neg hlocked]
  dsimp only
  by_cases hoff : s.receiver = .off
  · rw [if_pos hoff]
    cases connects with
    | true =>
      refine ⟨_, rfl, inserted_sound h hnext type expectType nofun ?_ (List.nil_subset _) ?_ ?_ ?_⟩
      · rw [hoff]
        rfl
      · intro q
        rw [hoff]
        rfl
      · intro q
        rw [hoff]
        exact iff_of_false nofun nofun
      · intro q hpending
        have := of_decide_eq_true hpending
        rw [h.off hoff] at this
        cases this
    | false => exact create_sendFailed_sound h hnext ⟨type, expectType, .sending s.idctr⟩ hoff
  · rw [if_neg hoff]
    exact ⟨_, rfl, inserted_sound h hnext type expectType hoff rfl (List.Subset.refl _)
      (fun _ => rfl) (fun _ => .rfl) fun _ _ => .rfl⟩

end Requests

end Sending

end Defuse.Sshfs
