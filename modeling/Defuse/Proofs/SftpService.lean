import Defuse.Proofs.SftpReceiver

/-! The requests of `sshfs_wrap.c` over whole runs: every request is served once, with its own
reply, and what becomes of those that are on their way when the connection is lost. -/

namespace Defuse.Sshfs

open CSem

section Runs

/-- The server answers only messages that it has got, each at most once, or with a reply that has
no number; and there are not more requests than numbers. -/
def RequestEvent.Honest (s : Requests) : RequestEvent → Prop
  | .send _ _ _ => s.next < 2 ^ 32
  | .receive _ bytes =>
    bytes.length < 2 ^ 17 ∧ (bytes.length < 4 ∨ ∃ id ∈ s.outstanding, word32 id <+: bytes)
  | .caller _ _ | .complete | .hangup _ => True

namespace Requests

variable {s : Requests}

theorem step_sound (h : s.Sound) {e : RequestEvent} (he : e.Honest s) :
    ∃ s', s.step e = .ok s' ∧ s'.Sound := by
  cases e with
  | send type expectType connects => exact send_sound h he type expectType connects
  | caller req next =>
    unfold step
    dsimp only
    cases hc : s.callers req with
    | none => exact ⟨s, rfl, h⟩
    | some c => exact callerStep_sound h hc next
  | receive type bytes => exact receive_sound h type he.1 he.2
  | complete => exact complete_sound h
  | hangup order => exact hangup_sound h order

/-- What a request that has not been freed waits for: a step of its caller that can be done, the
receiver, or the server. Once the receiver is stuck, and once `sftp_readdir_async` has gone on
without it, there is nothing to wait for. -/
inductive Awaits (s : Requests) (p : ℕ) : Prop
  | caller (next : CallerStep) (s' : Requests) (hstep : s.step (.caller p next) = .ok s')
      (hmoves : s'.callers p ≠ s.callers p)
  | receiver (type : UInt8) (buf : SftpBuffer) (hreceiver : s.receiver = .completing p type buf)
  | server (howed : UInt32.ofNat p ∈ s.outstanding) (hpending : (UInt32.ofNat p, p) ∈ s.reqtab)
      (hon : s.receiver ≠ .off)
  | stuck (q : ℕ) (hstuck : s.receiver = .stuck q)
  | forgotten (c : Caller) (hc : s.callers p = some c) (hpoint : c.point = .forgotten)

theorem completing_of_replyFor {p : ℕ} {type : UInt8} {buf : SftpBuffer}
    (h : (s.view p).reply = some (type, buf)) : s.receiver = .completing p type buf := by
  change s.receiver.replyFor p = _ at h
  cases hreceiver : s.receiver with
  | completing req type' buf' =>
    rw [hreceiver, Receiver.replyFor] at h
    split_ifs at h with heq
    obtain ⟨rfl, rfl⟩ := Prod.mk.inj (Option.some.inj h)
    rw [heq]
  | off => rw [hreceiver] at h; cases h
  | reading => rw [hreceiver] at h; cases h
  | closing => rw [hreceiver] at h; cases h
  | stuck req => rw [hreceiver] at h; cases h

theorem fits_true {c : Caller} {id : UInt32} (h : c.Fits id true) :
    (∃ id, c.point = .sending id) ∨ c.point = .written ∨ c.point = .holding := by
  unfold Caller.Fits at h
  cases hpoint : c.point with
  | sending id => exact Or.inl ⟨id, rfl⟩
  | written => exact Or.inr (Or.inl rfl)
  | holding => exact Or.inr (Or.inr rfl)
  | refused => rw [hpoint] at h; exact h.elim
  | leaving err outbuf => rw [hpoint] at h; exact h.elim
  | returned err outbuf => rw [hpoint] at h; exact absurd h.1 nofun
  | dropped => rw [hpoint] at h; exact absurd h nofun
  | forgotten => rw [hpoint] at h; exact h.elim

section Progress

variable {p : ℕ} {c : Caller}

theorem Awaits.of_goto (hc : s.callers p = some c) {next : CallerStep} {s₁ : Requests}
    {point : CallerPoint} (hstep : s.callerStep p c next = .ok (s₁.goto p c point))
    (hne : point ≠ c.point) : s.Awaits p := by
  refine .caller next (s₁.goto p c point) ?_ ?_
  · unfold step
    dsimp only
    rw [hc]
    exact hstep
  · change Function.update s₁.callers p (some { c with point }) p ≠ s.callers p
    rw [Function.update_self, hc]
    intro heq
    exact hne (congrArg Caller.point (Option.some.inj heq))

theorem Sound.awaits_sending (h : s.Sound) (hc : s.callers p = some c) {id : UInt32}
    (hpoint : c.point = .sending id) (hlocked : ¬ s.locked = true) : s.Awaits p := by
  obtain ⟨rfl, r, hlive, -⟩ := (h.stage_of hc).sending hpoint (not_stuck hlocked)
  obtain ⟨s₁, point, hunsent, hne⟩ :
      ∃ s₁ point, s.callerStep p c .unsent = .ok (Requests.goto s₁ p c point) ∧
        point ≠ .sending (.ofNat p) := by
    rw [callerStep, unsent, hpoint]
    dsimp only
    rw [if_neg hlocked]
    split_ifs
    · exact ⟨_, _, rfl, nofun⟩
    · have hlive' : ((s.remove (.ofNat p)).view p).request = some r := hlive.request
      refine ⟨_, _, sendFailed_eq hlive', ?_⟩
      unfold failedPoint
      split_ifs
      · nofun
      · nofun
  exact .of_goto hc hunsent (by rwa [hpoint])

theorem awaits_written (hc : s.callers p = some c) (hpoint : c.point = .written) : s.Awaits p := by
  have hsent : s.callerStep p c .sent = .ok (s.goto p c
      (if c.expectType = 0 then .returned 0 none else .holding)) := by
    rw [callerStep, sent, hpoint]
  refine .of_goto hc hsent ?_
  rw [hpoint]
  split_ifs
  · nofun
  · nofun

theorem awaits_wait {r : Request} (hc : s.callers p = some c) (hr : s.heap p = some r)
    (hpoint : c.point = .holding ∨ c.point = .refused)
    (hgo : r.error ≠ 0 ∨ (r.ready = 1 ∧ r.reply.Received)) : s.Awaits p := by
  have hwait : s.callerStep p c .wait = s.sftpRequestWait p c := by
    rcases hpoint with hpoint | hpoint
    · rw [callerStep, wait, hpoint]
    · rw [callerStep, wait, hpoint]
  have hne (err : ℤ) (outbuf : Option (List UInt8)) : .leaving err outbuf ≠ c.point := by
    rcases hpoint with hpoint | hpoint
    · rw [hpoint]
      nofun
    · rw [hpoint]
      nofun
  rw [sftpRequestWait, get_eq hr, ok_bind] at hwait
  by_cases herror : r.error = 0
  · obtain ⟨hready, hreply⟩ := hgo.resolve_left fun hne => hne herror
    obtain ⟨err, outbuf, hresult, -⟩ := replyResult_ok c.type c.expectType r.replyType hreply
    rw [if_neg (not_not.mpr herror), if_neg (by omega), hresult] at hwait
    exact .of_goto hc hwait (hne err outbuf)
  · rw [if_pos herror] at hwait
    exact .of_goto hc hwait (hne r.error none)

theorem awaits_leaving {r : Request} (hc : s.callers p = some c) (hr : s.heap p = some r) {err : ℤ}
    {outbuf : Option (List UInt8)} (hpoint : c.point = .leaving err outbuf)
    (hlocked : ¬ s.locked = true) : s.Awaits p := by
  have hleave : s.callerStep p c .leave = .ok ((s.free p).goto p c (.returned err outbuf)) := by
    rw [callerStep, leave, hpoint]
    dsimp only
    rw [if_neg hlocked, get_eq hr, ok_bind]
    rfl
  exact .of_goto hc hleave (by rw [hpoint]; nofun)

theorem Sound.awaits_told {r : Request} (h : s.Sound) (hc : s.callers p = some c)
    (hr : s.heap p = some r) (hlocked : ¬ s.locked = true) (hfits : c.Fits (.ofNat p) true)
    (hgo : r.error ≠ 0 ∨ (r.ready = 1 ∧ r.reply.Received)) : s.Awaits p := by
  rcases fits_true hfits with ⟨id, hpoint⟩ | hpoint | hpoint
  · exact h.awaits_sending hc hpoint hlocked
  · exact awaits_written hc hpoint
  · exact awaits_wait hc hr (Or.inl hpoint) hgo

theorem Sound.awaits (h : s.Sound) {r : Request} (hr : s.heap p = some r) :
    r.id = .ofNat p ∧ s.Awaits p := by
  have hp : p < s.next := by
    by_contra hle
    rw [(h.fresh p (by omega)).1] at hr
    cases hr
  obtain ⟨c, hc, hstage⟩ := h.stage p hp
  have hsame {r' : Request} (hlive : (s.view p).Live (.ofNat p) r') : r' = r :=
    Option.some.inj (hlive.request.symm.trans hr)
  refine ⟨(hstage.live hr).id_eq, ?_⟩
  -- a receiver that is stuck keeps the lock; without one, what is due can be done
  by_cases hlocked : s.locked = true
  · obtain ⟨q, hstuck⟩ := locked_iff.mp hlocked
    exact .stuck q hstuck
  cases hstage with
  | pending r' hlive hat hready herror hfits howed =>
    cases hsending : c.point.isSending with
    | true =>
      obtain ⟨id, hpoint⟩ := CallerPoint.exists_of_isSending hsending
      exact h.awaits_sending hc hpoint hlocked
    | false =>
      rw [hsending] at howed
      have hmem := of_decide_eq_true hat.pending
      refine .server (of_decide_eq_true howed) hmem ?_
      intro hoff
      rw [h.off hoff] at hmem
      cases hmem
  | stuck r' hlive hat => exact absurd (locked_iff.mpr ⟨p, of_decide_eq_true hat.stuck⟩) hlocked
  | completing r' type buf hlive hat => exact .receiver type buf (completing_of_replyFor hat.reply)
  | replied r' hlive hat hready herror hfits hsent hanswered hbuf =>
    obtain rfl := hsame hlive
    exact h.awaits_told hc hr hlocked hfits (Or.inr ⟨hready, hbuf⟩)
  | failed r' hlive hat herror hfits =>
    obtain rfl := hsame hlive
    exact h.awaits_told hc hr hlocked hfits (Or.inl (by rw [herror]; decide))
  | refused r' hlive hat herror hpoint =>
    obtain rfl := hsame hlive
    rcases hpoint with hpoint | hpoint
    · exact awaits_wait hc hr (Or.inr hpoint) (Or.inl (by rw [herror]; decide))
    · exact .forgotten c hc hpoint
  | leaving r' err outbuf hlive hat hpoint => exact awaits_leaving hc hr hpoint hlocked
  | freed hnone => exact absurd (hnone.symm.trans hr) nofun

end Progress

theorem Sound.ended_iff (h : s.Sound) (p : ℕ) :
    p ∈ s.ended ↔ (p < s.next ∧ s.heap p = none) ∨ s.receiver = .stuck p := by
  by_cases hp : p < s.next
  · obtain ⟨c, hc, hstage⟩ := h.stage p hp
    have hlive {r : Request} {b : Bool} {reply : Option (UInt8 × SftpBuffer)}
        (hr : (s.view p).Live (.ofNat p) r) (hat : (s.view p).At b reply false false) :
        p ∈ s.ended ↔ (p < s.next ∧ s.heap p = none) ∨ s.receiver = .stuck p := by
      refine iff_of_false (of_decide_eq_false hat.ended) ?_
      rintro (⟨-, hnone⟩ | hstuck)
      · exact absurd (hr.request.symm.trans hnone) nofun
      · exact of_decide_eq_false hat.stuck hstuck
    cases hstage with
    | pending r hr hat => exact hlive hr hat
    | stuck r hr hat =>
      exact iff_of_true (of_decide_eq_true hat.ended) (Or.inr (of_decide_eq_true hat.stuck))
    | completing r type buf hr hat => exact hlive hr hat
    | replied r hr hat => exact hlive hr hat
    | failed r hr hat => exact hlive hr hat
    | refused r hr hat => exact hlive hr hat
    | leaving r err outbuf hr hat => exact hlive hr hat
    | freed hnone hat => exact iff_of_true (of_decide_eq_true hat.ended) (Or.inl ⟨hp, hnone⟩)
  · refine iff_of_false (h.fresh p (by omega)).2.2 ?_
    rintro (⟨hlt, -⟩ | hstuck)
    · exact hp hlt
    · exact hp (h.busy p (by rw [hstuck]; rfl))

theorem Sound.result (h : s.Sound) {p : ℕ} {c : Caller} (hc : s.callers p = some c) {err : ℤ}
    {outbuf : Option (List UInt8)} (hpoint : c.point = .returned err outbuf)
    (hexpect : c.expectType ≠ 0) : c.Result (s.Answered p) err outbuf := by
  have hfits {want : Bool} (hfits : c.Fits (.ofNat p) want) : c.Result (s.Answered p) err outbuf := by
    unfold Caller.Fits at hfits
    rw [hpoint] at hfits
    exact absurd hfits.2.1 hexpect
  cases h.stage_of hc with
  | pending r hlive hat hready herror hf => exact hfits hf
  | stuck r hlive hat hf => exact hfits hf
  | completing r type buf hlive hat hready herror hf => exact hfits hf
  | replied r hlive hat hready herror hf => exact hfits hf
  | failed r hlive hat herror hf => exact hfits hf
  | refused r hlive hat herror hrefused => exact absurd (CallerPoint.of_refused hrefused hpoint) (by simp)
  | leaving r err' outbuf' hlive hat hleaving => exact absurd (hpoint.symm.trans hleaving) nofun
  | freed hnone hat hover =>
    unfold Caller.Over at hover
    rw [hpoint] at hover
    exact hover.resolve_left fun hzero => hexpect hzero.1

end Requests

instance (s : Requests) (e : RequestEvent) : Decidable (e.Honest s) :=
  match e with
  | .send _ _ _ => inferInstanceAs (Decidable (s.next < 2 ^ 32))
  | .receive _ bytes => inferInstanceAs (Decidable (bytes.length < 2 ^ 17 ∧
      (bytes.length < 4 ∨ ∃ id ∈ s.outstanding, word32 id <+: bytes)))
  | .caller _ _ | .complete | .hangup _ => isTrue trivial

def HonestRun (events : List RequestEvent) : Prop :=
  ∀ pre e, pre ++ [e] <+: events → ∀ s, run Requests.step .idle pre = .ok s → e.Honest s

theorem run_sound_requests {events : List RequestEvent} (hhonest : HonestRun events) :
    ∃ s, run Requests.step .idle events = .ok s ∧ s.Sound := by
  apply run_guarded Requests.Sound (fun s (e : RequestEvent) => e.Honest s) _ Requests.idle_sound
    events hhonest
  intro s e h he
  exact Requests.step_sound h he

/-- Whatever the order of the steps of all threads, with a server that answers what it was asked
no request is used after it has been freed. A thread that waits for a reply returns the result of
a reply to its own request, or `-EIO`; `end_func` is called exactly once for each request, when it
is freed or the receiver gets stuck at it; and what a request that has not been freed waits for
can be done, unless the receiver is stuck or `sftp_readdir_async` has lost the request. -/
theorem requests_served {events : List RequestEvent} (hhonest : HonestRun events) :
    ∃ s, run Requests.step .idle events = .ok s ∧
      (∀ p c err outbuf, s.callers p = some c → c.point = .returned err outbuf →
        c.expectType ≠ 0 → (err = - EIO ∧ outbuf = none) ∨
          ∃ replyType reply, (UInt32.ofNat p, replyType, reply) ∈ s.replies ∧
            replyResult c.type c.expectType replyType reply = .ok (err, outbuf)) ∧
      s.ended.Nodup ∧
      (∀ p, p ∈ s.ended ↔ (p < s.next ∧ s.heap p = none) ∨ s.receiver = .stuck p) ∧
      ∀ p r, s.heap p = some r → r.id = .ofNat p ∧ s.Awaits p := by
  obtain ⟨s, hrun, h⟩ := run_sound_requests hhonest
  refine ⟨s, hrun, ?_, h.ended_nodup, h.ended_iff, ?_⟩
  · intro p c err outbuf hc hpoint hexpect
    exact h.result hc hpoint hexpect
  · intro p r hr
    exact h.awaits hr

/-- A request with a reply, and one whose reply is not wanted and that is answered before
`sftp_send_iov` has returned. -/
def twoRequests : List RequestEvent :=
  [.send 17 105 true, .send 4 0 true, .caller 1 .write, .receive 101 [0, 0, 0, 1, 0, 0, 0, 0],
    .caller 0 .write, .complete, .caller 0 .sent, .caller 1 .sent,
    .receive 105 [0, 0, 0, 0, 7, 8], .caller 0 .wait, .complete, .caller 0 .wait, .caller 0 .leave]

theorem requests_served_two :
    ∃ s c, run Requests.step .idle twoRequests = .ok s ∧ s.callers 0 = some c ∧
      c.point = .returned 0 (some [7, 8]) ∧ s.ended = [1, 0] ∧
      ∃ replyType reply, (0, replyType, reply) ∈ s.replies ∧
        replyResult 17 105 replyType reply = .ok (0, some [7, 8]) := by
  have hhonest : HonestRun twoRequests := by
    apply guard_of_tested
    decide
  obtain ⟨s, hrun, hresult, -⟩ := requests_served hhonest
  have hs : ∃ s c, run Requests.step .idle twoRequests = .ok s ∧ s.callers 0 = some c ∧
      c = ⟨17, 105, .returned 0 (some [7, 8])⟩ ∧ s.ended = [1, 0] := ⟨_, _, rfl, rfl, rfl, rfl⟩
  obtain ⟨s', c, hrun', hc, rfl, hended⟩ := hs
  obtain rfl := Except.ok.inj (hrun.symm.trans hrun')
  refine ⟨s, _, hrun, hc, rfl, hended, ?_⟩
  exact (hresult 0 _ _ _ hc rfl (by decide)).resolve_left fun h => absurd h.2 nofun

section Loss

/-- A thread that waits for the reply, or is about to do so or to free the request. -/
def Caller.Waits (c : Caller) : Prop :=
  c.point = .holding ∨ (c.point = .refused ∧ c.type ≠ SSH_FXP_READDIR) ∨
    ∃ err outbuf, c.point = .leaving err outbuf

namespace Requests

variable {s s' : Requests}

def Waits (s : Requests) (p : ℕ) : Prop :=
  ∃ c, s.callers p = some c ∧ c.Waits

/-- What a step changes once nobody can take the lock any more. -/
structure Stays (s s' : Requests) : Prop where
  receiver : s'.receiver = s.receiver
  ended : s'.ended = s.ended
  waits : ∀ p, s.Waits p → s'.Waits p

theorem Stays.refl : Stays s s := ⟨rfl, rfl, fun _ h => h⟩

theorem goto_stays {p : ℕ} {c : Caller} {point : CallerPoint}
    (hpoint : s.Waits p → Caller.Waits { c with point }) : Stays s (s.goto p c point) := by
  refine ⟨rfl, rfl, ?_⟩
  intro q hq
  by_cases hqp : q = p
  · rw [hqp] at hq ⊢
    exact ⟨_, Function.update_self .., hpoint hq⟩
  · obtain ⟨c', hc', hpoint'⟩ := hq
    exact ⟨c', (Function.update_of_ne hqp ..).trans hc', hpoint'⟩

theorem sent_stays {p : ℕ} {c : Caller} (hc : s.callers p = some c) : Stays s (s.sent p c) := by
  unfold sent
  split
  next hpoint =>
    apply goto_stays
    rintro ⟨c', hc', hwaits⟩
    obtain rfl := Option.some.inj (hc.symm.trans hc')
    simp [Caller.Waits, hpoint] at hwaits
  next => exact .refl

theorem forget_stays {p : ℕ} {c : Caller} (hc : s.callers p = some c) : Stays s (s.forget p c) := by
  unfold forget
  split
  next hpoint =>
    split_ifs with hreaddir
    · apply goto_stays
      rintro ⟨c', hc', hwaits⟩
      obtain rfl := Option.some.inj (hc.symm.trans hc')
      simp [Caller.Waits, hpoint, hreaddir] at hwaits
    · exact .refl
  next => exact .refl

theorem leaving_waits (c : Caller) (err : ℤ) (outbuf : Option (List UInt8)) :
    Caller.Waits { c with point := .leaving err outbuf } := Or.inr (Or.inr ⟨err, outbuf, rfl⟩)

theorem sftpRequestWait_stays {p : ℕ} {c : Caller} (hs' : s.sftpRequestWait p c = .ok s') :
    Stays s s' := by
  rw [sftpRequestWait, bind_ok_iff] at hs'
  obtain ⟨r, -, hs'⟩ := hs'
  split_ifs at hs' with herror hready
  · cases hs'
    exact goto_stays fun _ => leaving_waits c _ _
  · cases hs'
    exact .refl
  · rw [bind_ok_iff] at hs'
    obtain ⟨⟨err, outbuf⟩, -, hs'⟩ := hs'
    cases hs'
    have hgoto : Stays (s.put p (some { r with ready := r.ready - 1 }))
      ((s.put p (some { r with ready := r.ready - 1 })).goto p c (.leaving err outbuf)) :=
      goto_stays fun _ => leaving_waits c _ _
    exact ⟨hgoto.receiver, hgoto.ended, hgoto.waits⟩

theorem wait_stays {p : ℕ} {c : Caller} (hs' : s.wait p c = .ok s') : Stays s s' := by
  unfold wait at hs'
  split at hs'
  · exact sftpRequestWait_stays hs'
  · exact sftpRequestWait_stays hs'
  · cases hs'
    exact .refl

theorem callerStep_locked {p : ℕ} (hlocked : s.locked = true) (c : Caller) :
    s.write p c = s ∧ s.unsent p c = .ok s ∧ s.drop p c = .ok s ∧ s.leave p c = .ok s := by
  unfold write unsent drop leave
  cases c.point with
  | sending id => simp [hlocked]
  | written => simp
  | holding => simp [hlocked]
  | refused => simp
  | leaving err outbuf => simp [hlocked]
  | returned err outbuf => simp
  | dropped => simp
  | forgotten => simp

theorem callerStep_stays {p : ℕ} (hlocked : s.locked = true) {c : Caller}
    (hc : s.callers p = some c) {next : CallerStep} (hs' : s.callerStep p c next = .ok s') :
    Stays s s' := by
  obtain ⟨hwrite, hunsent, hdrop, hleave⟩ := callerStep_locked (p := p) hlocked c
  cases next with
  | write =>
    rw [callerStep, hwrite] at hs'
    cases hs'
    exact .refl
  | sent =>
    cases hs'
    exact sent_stays hc
  | unsent =>
    rw [callerStep, hunsent] at hs'
    cases hs'
    exact .refl
  | drop =>
    rw [callerStep, hdrop] at hs'
    cases hs'
    exact .refl
  | forget =>
    cases hs'
    exact forget_stays hc
  | wait => exact wait_stays hs'
  | leave =>
    rw [callerStep, hleave] at hs'
    cases hs'
    exact .refl

/-- Once the receiver is stuck, no step of any thread ends a wait. -/
theorem stuck_step (h : s.Sound) {p : ℕ} (hstuck : s.receiver = .stuck p) (e : RequestEvent) :
    ∃ s', s.step e = .ok s' ∧ s'.Sound ∧ Stays s s' := by
  have hlocked : s.locked = true := locked_iff.mpr ⟨p, hstuck⟩
  cases e with
  | send type expectType connects =>
    refine ⟨s, ?_, h, .refl⟩
    rw [step, send, if_pos hlocked]
  | caller req next =>
    unfold step
    dsimp only
    cases hc : s.callers req with
    | none => exact ⟨s, rfl, h, .refl⟩
    | some c =>
      obtain ⟨s', hs', hsound⟩ := callerStep_sound h hc next
      exact ⟨s', hs', hsound, callerStep_stays hlocked hc hs'⟩
  | receive type bytes =>
    refine ⟨s, ?_, h, .refl⟩
    rw [step, receive, hstuck]
  | complete =>
    refine ⟨s, ?_, h, .refl⟩
    rw [step, complete, hstuck]
  | hangup order =>
    refine ⟨s, ?_, h, .refl⟩
    rw [step, hangup, hstuck, if_neg (by simp)]

theorem stuck_run (h : s.Sound) {p : ℕ} (hstuck : s.receiver = .stuck p)
    (events : List RequestEvent) :
    ∃ t, run Requests.step s events = .ok t ∧ t.receiver = .stuck p ∧ t.ended = s.ended ∧
      ∀ q, s.Waits q → t.Waits q := by
  have hrun : ∃ t, run Requests.step s events = .ok t ∧ t.Sound ∧ Stays s t := by
    apply run_invariant (fun t => t.Sound ∧ Stays s t) (fun _ => True) _ ⟨h, .refl⟩ events
      fun _ _ => trivial
    intro t e ht _
    obtain ⟨hsound, hstays⟩ := ht
    obtain ⟨t', ht', hsound', hstays'⟩ := stuck_step hsound (hstays.receiver.trans hstuck) e
    refine ⟨t', ht', hsound', hstays'.receiver.trans hstays.receiver,
      hstays'.ended.trans hstays.ended, ?_⟩
    intro q hq
    exact hstays'.waits q (hstays.waits q hq)
  obtain ⟨t, ht, -, hstays⟩ := hrun
  exact ⟨t, ht, hstays.receiver.trans hstuck, hstays.ended, hstays.waits⟩

end Requests

/-- The connection is lost. When a request whose reply is not wanted is in the table, the receiver
waits for a lock that it holds itself: from then on, whatever the threads do, none that waits for
a reply returns, and no request is freed. When there is none, every thread that waits for a reply
is woken. -/
theorem connection_lost {events : List RequestEvent} (hhonest : HonestRun events) {s : Requests}
    (hrun : run Requests.step .idle events = .ok s)
    (hfree : s.receiver = .reading ∨ s.receiver = .closing) {order : List (UInt32 × ℕ)}
    (horder : order.Perm s.reqtab) :
    ∃ s', s.hangup order = .ok s' ∧
      ((∃ e ∈ s.reqtab, ∃ r, s.heap e.2 = some r ∧ r.wantReply = false) →
        ∀ more, ∃ t, run Requests.step s' more = .ok t ∧ (∃ p, t.receiver = .stuck p) ∧
          t.ended = s'.ended ∧ ∀ p, s'.Waits p → t.Waits p) ∧
      ((∀ e ∈ s.reqtab, ∀ r, s.heap e.2 = some r → r.wantReply = true) →
        s'.receiver = .off ∧ s'.reqtab = [] ∧
          ∀ p c, s'.callers p = some c → (c.point = .holding ∨ c.point = .refused) →
            ∃ r, s'.heap p = some r ∧ (r.error ≠ 0 ∨ 0 < r.ready)) := by
  obtain ⟨s₁, hrun₁, h⟩ := run_sound_requests hhonest
  obtain rfl := Except.ok.inj (hrun.symm.trans hrun₁)
  obtain ⟨s', hloop, hsound, hcases⟩ := Requests.cleanLoop_sound h hfree horder
  refine ⟨s', by rw [Requests.hangup, if_pos ⟨hfree, horder⟩, hloop], ?_, ?_⟩
  · intro hunwanted more
    obtain ⟨e, he, hunwanted⟩ := hunwanted
    rcases hcases with ⟨⟨p, hstuck⟩, -⟩ | ⟨-, hnone⟩
    · obtain ⟨t, ht, hstuck', hended, hwaits⟩ := Requests.stuck_run hsound hstuck more
      exact ⟨t, ht, ⟨p, hstuck'⟩, hended, hwaits⟩
    · exact absurd hunwanted (hnone e (horder.mem_iff.mpr he))
  · intro hwanted
    rcases hcases with ⟨-, e, he, r, hr, hnot⟩ | ⟨hoff, -⟩
    · exact absurd ((hwanted e (horder.mem_iff.mp he) r hr).symm.trans hnot) nofun
    · refine ⟨hoff, hsound.off hoff, ?_⟩
      intro p c hc hpoint
      rcases hpoint with hpoint | hpoint
      · obtain ⟨r, hlive, hstages⟩ := (hsound.stage_of hc).holding hpoint
        refine ⟨r, hlive.request, ?_⟩
        rcases hstages with ⟨hat, -⟩ | ⟨-, -, -, hreply⟩ | ⟨-, hready, -⟩ | ⟨-, herror⟩
        · have hmem := of_decide_eq_true hat.pending
          rw [hsound.off hoff] at hmem
          cases hmem
        · change (s'.receiver.replyFor p).isSome = true at hreply
          rw [hoff] at hreply
          cases hreply
        · exact Or.inr (by omega)
        · exact Or.inl (by rw [herror]; decide)
      · obtain ⟨r, hlive, -, herror⟩ := (hsound.stage_of hc).of_refused hpoint
        exact ⟨r, hlive.request, Or.inl (by rw [herror]; decide)⟩

def mixedRequests : List RequestEvent :=
  [.send 17 105 true, .send 4 0 true, .caller 0 .write, .caller 0 .sent]

theorem connection_lost_mixed :
    ∃ s s', run Requests.step .idle mixedRequests = .ok s ∧ s.hangup s.reqtab = .ok s' ∧
      s'.Waits 0 ∧ ∀ more, ∃ t, run Requests.step s' more = .ok t ∧ t.Waits 0 := by
  have hhonest : HonestRun mixedRequests := by
    apply guard_of_tested
    decide
  have hs : ∃ s s', run Requests.step .idle mixedRequests = .ok s ∧ s.receiver = .reading ∧
      (∃ e ∈ s.reqtab, ∃ r, s.heap e.2 = some r ∧ r.wantReply = false) ∧
      s.hangup s.reqtab = .ok s' ∧ s'.Waits 0 :=
    ⟨_, _, rfl, rfl, ⟨(1, 1), List.mem_cons_self, _, rfl, rfl⟩, rfl, _, rfl, Or.inl rfl⟩
  obtain ⟨s, s', hrun, hreading, hunwanted, hhangup, hwaits⟩ := hs
  obtain ⟨s₁, hhangup₁, hstuck, -⟩ :=
    connection_lost hhonest hrun (Or.inl hreading) (List.Perm.refl _)
  obtain rfl := Except.ok.inj (hhangup.symm.trans hhangup₁)
  refine ⟨s, s', hrun, hhangup, hwaits, ?_⟩
  intro more
  obtain ⟨t, ht, -, -, hall⟩ := hstuck hunwanted more
  exact ⟨t, ht, hall 0 hwaits⟩

end Loss

end Runs

end Defuse.Sshfs
