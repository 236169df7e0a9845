import Defuse.Lib.Runs
import Defuse.Proofs.SftpFields
import Defuse.Spec.SftpRequests
import Mathlib.Data.List.Nodup

/-! The requests of `sshfs_wrap.c`. Every request is at one of a few stages, and an event moves at
most one request from a stage to another; what holds of all requests is read off the stages. -/

namespace Defuse.Sshfs

open CSem

section Stages

def CallerPoint.isSending : CallerPoint → Bool
  | .sending _ => true
  | _ => false

theorem CallerPoint.exists_of_isSending {point : CallerPoint} (h : point.isSending = true) :
    ∃ id, point = .sending id := by
  cases point with
  | sending id => exact ⟨id, rfl⟩
  | written => cases h
  | holding => cases h
  | refused => cases h
  | leaving err outbuf => cases h
  | returned err outbuf => cases h
  | dropped => cases h
  | forgotten => cases h

/-- The result of a request: one of the replies to it decides, or there is an error. -/
def Caller.Result (answered : UInt8 → SftpBuffer → Prop) (c : Caller) (err : ℤ)
    (outbuf : Option (List UInt8)) : Prop :=
  (err = - EIO ∧ outbuf = none) ∨ ∃ replyType reply, answered replyType reply ∧
    replyResult c.type c.expectType replyType reply = .ok (err, outbuf)

/-- The caller of a request that has not been freed, by whether the reply is wanted. -/
def Caller.Fits (c : Caller) (id : UInt32) (want : Bool) : Prop :=
  match c.point with
  | .sending id' => id' = id ∧ want = decide (c.expectType ≠ 0)
  | .written => want = decide (c.expectType ≠ 0)
  | .holding => want = true
  | .dropped => want = false
  | .returned err outbuf => want = false ∧ c.expectType = 0 ∧ err = 0 ∧ outbuf = none
  | .refused | .leaving _ _ | .forgotten => False

/-- The caller of a request that has been freed. -/
def Caller.Over (answered : UInt8 → SftpBuffer → Prop) (c : Caller) : Prop :=
  match c.point with
  | .written => c.expectType = 0
  | .dropped => True
  | .returned err outbuf =>
    (c.expectType = 0 ∧ err = 0 ∧ outbuf = none) ∨ c.Result answered err outbuf
  | .sending _ | .holding | .refused | .leaving _ _ | .forgotten => False

/-- What of the state concerns one request. -/
structure RequestView where
  request : Option Request
  pending : Bool
  reply : Option (UInt8 × SftpBuffer)
  owed : Bool
  ended : Bool
  stuck : Bool

structure RequestView.Live (v : RequestView) (id : UInt32) (r : Request) : Prop where
  request : v.request = some r
  id_eq : r.id = id

/-- Whether a request is in the table, what the receiver is completing it with, whether `end_func`
has been called and whether the receiver is stuck at it. -/
structure RequestView.At (v : RequestView) (pending : Bool) (reply : Option (UInt8 × SftpBuffer))
    (ended stuck : Bool) : Prop where
  pending : v.pending = pending
  reply : v.reply = reply
  ended : v.ended = ended
  stuck : v.stuck = stuck

/-- The stages of a request that the caller `c` has made. -/
inductive Stage (answered : UInt8 → SftpBuffer → Prop) (id : UInt32) (c : Caller) (v : RequestView) :
    Prop
  /-- in the table; the server owes the reply once it has the message -/
  | pending (r : Request) (hlive : v.Live id r) (hat : v.At true none false false)
      (hready : r.ready = 0) (herror : r.error = 0) (hfits : c.Fits id r.wantReply)
      (howed : v.owed = !c.point.isSending)
  /-- the receiver is stuck at it -/
  | stuck (r : Request) (hlive : v.Live id r) (hat : v.At true none true true)
      (hfits : c.Fits id false)
  /-- with the receiver -/
  | completing (r : Request) (type : UInt8) (buf : SftpBuffer) (hlive : v.Live id r)
      (hat : v.At false (some (type, buf)) false false) (hready : r.ready = 0)
      (herror : r.error = 0) (hfits : c.Fits id r.wantReply) (hsent : c.point.isSending = false)
      (hanswered : answered type buf) (hbuf : buf.Received)
  /-- the caller has been told that the reply is there -/
  | replied (r : Request) (hlive : v.Live id r) (hat : v.At false none false false)
      (hready : r.ready = 1) (herror : r.error = 0) (hfits : c.Fits id true)
      (hsent : c.point.isSending = false) (hanswered : answered r.replyType r.reply)
      (hbuf : r.reply.Received)
  /-- the connection is lost -/
  | failed (r : Request) (hlive : v.Live id r) (hat : v.At false none false false)
      (herror : r.error = - EIO) (hfits : c.Fits id true)
  /-- the message could not be sent -/
  | refused (r : Request) (hlive : v.Live id r) (hat : v.At false none false false)
      (herror : r.error = - EIO) (hpoint : c.point = .refused ∨ c.point = .forgotten)
  /-- about to be freed by its caller -/
  | leaving (r : Request) (err : ℤ) (outbuf : Option (List UInt8)) (hlive : v.Live id r)
      (hat : v.At false none false false) (hpoint : c.point = .leaving err outbuf)
      (hresult : c.Result answered err outbuf)
  | freed (hnone : v.request = none) (hat : v.At false none true false) (hover : c.Over answered)

variable {answered answered' : UInt8 → SftpBuffer → Prop} {id : UInt32} {c c' : Caller}
  {v : RequestView}

theorem Caller.Result.mono {err : ℤ} {outbuf : Option (List UInt8)}
    (h : c.Result answered err outbuf) (hmono : ∀ type buf, answered type buf → answered' type buf) :
    c.Result answered' err outbuf := by
  rcases h with h | ⟨replyType, reply, hanswered, hresult⟩
  · exact Or.inl h
  · exact Or.inr ⟨replyType, reply, hmono _ _ hanswered, hresult⟩

theorem Caller.Over.mono (h : c.Over answered)
    (hmono : ∀ type buf, answered type buf → answered' type buf) : c.Over answered' := by
  unfold Caller.Over at h ⊢
  cases hpoint : c.point with
  | returned err outbuf =>
    rw [hpoint] at h
    exact h.imp_right fun hresult => hresult.mono hmono
  | dropped => trivial
  | written => rwa [hpoint] at h
  | sending id => rwa [hpoint] at h
  | holding => rwa [hpoint] at h
  | refused => rwa [hpoint] at h
  | leaving err outbuf => rwa [hpoint] at h
  | forgotten => rwa [hpoint] at h

theorem Stage.mono (h : Stage answered id c v)
    (hmono : ∀ type buf, answered type buf → answered' type buf) : Stage answered' id c v := by
  cases h with
  | pending r hlive hat hready herror hfits howed =>
    exact .pending r hlive hat hready herror hfits howed
  | stuck r hlive hat hfits => exact .stuck r hlive hat hfits
  | completing r type buf hlive hat hready herror hfits hsent hanswered hbuf =>
    exact .completing r type buf hlive hat hready herror hfits hsent (hmono _ _ hanswered) hbuf
  | replied r hlive hat hready herror hfits hsent hanswered hbuf =>
    exact .replied r hlive hat hready herror hfits hsent (hmono _ _ hanswered) hbuf
  | failed r hlive hat herror hfits => exact .failed r hlive hat herror hfits
  | refused r hlive hat herror hpoint => exact .refused r hlive hat herror hpoint
  | leaving r err outbuf hlive hat hpoint hresult =>
    exact .leaving r err outbuf hlive hat hpoint (hresult.mono hmono)
  | freed hnone hat hover => exact .freed hnone hat (hover.mono hmono)

theorem Stage.live (h : Stage answered id c v) {r : Request} (hr : v.request = some r) :
    v.Live id r := by
  have hsame {r' : Request} (hlive : v.Live id r') : v.Live id r :=
    Option.some.inj (hlive.request.symm.trans hr) ▸ hlive
  cases h with
  | pending r' hlive => exact hsame hlive
  | stuck r' hlive => exact hsame hlive
  | completing r' type buf hlive => exact hsame hlive
  | replied r' hlive => exact hsame hlive
  | failed r' hlive => exact hsame hlive
  | refused r' hlive => exact hsame hlive
  | leaving r' err outbuf hlive => exact hsame hlive
  | freed hnone => exact absurd (hnone.symm.trans hr) nofun

theorem Stage.owed (h : Stage answered id c v) (hpending : v.pending = false) (owed : Bool) :
    Stage answered id c { v with owed } := by
  have hlive {r : Request} (h : v.Live id r) : { v with owed }.Live id r := ⟨h.request, h.id_eq⟩
  have hat {b e k : Bool} {reply : Option (UInt8 × SftpBuffer)} (h : v.At b reply e k) :
      { v with owed }.At b reply e k := ⟨h.pending, h.reply, h.ended, h.stuck⟩
  cases h with
  | pending r _ h => exact absurd (h.pending.symm.trans hpending) nofun
  | stuck r _ h => exact absurd (h.pending.symm.trans hpending) nofun
  | completing r type buf h₁ h₂ hready herror hfits hsent hanswered hbuf =>
    exact .completing r type buf (hlive h₁) (hat h₂) hready herror hfits hsent hanswered hbuf
  | replied r h₁ h₂ hready herror hfits hsent hanswered hbuf =>
    exact .replied r (hlive h₁) (hat h₂) hready herror hfits hsent hanswered hbuf
  | failed r h₁ h₂ herror hfits => exact .failed r (hlive h₁) (hat h₂) herror hfits
  | refused r h₁ h₂ herror hpoint => exact .refused r (hlive h₁) (hat h₂) herror hpoint
  | leaving r err outbuf h₁ h₂ hpoint hresult =>
    exact .leaving r err outbuf (hlive h₁) (hat h₂) hpoint hresult
  | freed hnone h₂ hover => exact .freed hnone (hat h₂) hover

theorem Stage.caller (h : Stage answered id c v) (hfits : ∀ want, c.Fits id want → c'.Fits id want)
    (hsending : c'.point.isSending = c.point.isSending) (hover : c.Over answered → c'.Over answered)
    (hrefused : c.point ≠ .refused ∧ c.point ≠ .forgotten)
    (hleaving : ∀ err outbuf, c.point ≠ .leaving err outbuf) : Stage answered id c' v := by
  cases h with
  | pending r hlive hat hready herror hf howed =>
    exact .pending r hlive hat hready herror (hfits _ hf) (by rw [hsending]; exact howed)
  | stuck r hlive hat hf => exact .stuck r hlive hat (hfits _ hf)
  | completing r type buf hlive hat hready herror hf hsent hanswered hbuf =>
    exact .completing r type buf hlive hat hready herror (hfits _ hf) (hsending.trans hsent)
      hanswered hbuf
  | replied r hlive hat hready herror hf hsent hanswered hbuf =>
    exact .replied r hlive hat hready herror (hfits _ hf) (hsending.trans hsent) hanswered hbuf
  | failed r hlive hat herror hf => exact .failed r hlive hat herror (hfits _ hf)
  | refused r hlive hat herror hpoint =>
    rcases hpoint with hpoint | hpoint
    · exact absurd hpoint hrefused.1
    · exact absurd hpoint hrefused.2
  | leaving r err outbuf hlive hat hpoint => exact absurd hpoint (hleaving err outbuf)
  | freed hnone hat ho => exact .freed hnone hat (hover ho)

theorem Caller.Fits.sending {want : Bool} {id' : UInt32} (h : c.Fits id want)
    (hpoint : c.point = .sending id') : id' = id ∧ want = decide (c.expectType ≠ 0) := by
  unfold Caller.Fits at h
  rwa [hpoint] at h

theorem Caller.Fits.holding {want : Bool} (h : c.Fits id want) (hpoint : c.point = .holding) :
    want = true := by
  unfold Caller.Fits at h
  rwa [hpoint] at h

theorem Caller.Fits.ne_leaving {want : Bool} (h : c.Fits id want) {err : ℤ}
    {outbuf : Option (List UInt8)} : c.point ≠ .leaving err outbuf := by
  intro hpoint
  unfold Caller.Fits at h
  rwa [hpoint] at h

theorem Caller.Fits.ne_refused {want : Bool} (h : c.Fits id want) : c.point ≠ .refused := by
  intro hpoint
  unfold Caller.Fits at h
  rwa [hpoint] at h

theorem Caller.Over.ne_sending (h : c.Over answered) {id : UInt32} : c.point ≠ .sending id := by
  intro hpoint
  unfold Caller.Over at h
  rwa [hpoint] at h

theorem Caller.Over.ne_holding (h : c.Over answered) : c.point ≠ .holding := by
  intro hpoint
  unfold Caller.Over at h
  rwa [hpoint] at h

theorem Caller.Over.ne_refused (h : c.Over answered) : c.point ≠ .refused := by
  intro hpoint
  unfold Caller.Over at h
  rwa [hpoint] at h

theorem Caller.Over.ne_leaving (h : c.Over answered) {err : ℤ} {outbuf : Option (List UInt8)} :
    c.point ≠ .leaving err outbuf := by
  intro hpoint
  unfold Caller.Over at h
  rwa [hpoint] at h

theorem CallerPoint.of_refused {point point' : CallerPoint}
    (h : point = .refused ∨ point = .forgotten) (hpoint : point = point') :
    point' = .refused ∨ point' = .forgotten := by
  rwa [hpoint] at h

theorem Stage.sending (h : Stage answered id c v) {id' : UInt32} (hpoint : c.point = .sending id')
    (hstuck : v.stuck = false) :
    id' = id ∧ ∃ r, v.Live id r ∧
      ((v.At true none false false ∧ r.ready = 0 ∧ r.error = 0 ∧
          r.wantReply = decide (c.expectType ≠ 0) ∧ v.owed = false) ∨
        (v.At false none false false ∧ r.error = - EIO ∧ c.expectType ≠ 0)) := by
  have hsending : c.point.isSending = true := by rw [hpoint]; rfl
  cases h with
  | pending r hlive hat hready herror hfits howed =>
    obtain ⟨hid, hwant⟩ := hfits.sending hpoint
    rw [hsending] at howed
    exact ⟨hid, r, hlive, Or.inl ⟨hat, hready, herror, hwant, howed⟩⟩
  | stuck r hlive hat => exact absurd (hat.stuck.symm.trans hstuck) nofun
  | completing r type buf hlive hat hready herror hfits hsent =>
    exact absurd (hsending.symm.trans hsent) nofun
  | replied r hlive hat hready herror hfits hsent => exact absurd (hsending.symm.trans hsent) nofun
  | failed r hlive hat herror hfits =>
    obtain ⟨hid, hwant⟩ := hfits.sending hpoint
    exact ⟨hid, r, hlive, Or.inr ⟨hat, herror, of_decide_eq_true hwant.symm⟩⟩
  | refused r hlive hat herror hrefused => exact absurd (CallerPoint.of_refused hrefused hpoint) (by simp)
  | leaving r err outbuf hlive hat hleaving => exact absurd (hpoint.symm.trans hleaving) nofun
  | freed hnone hat hover => exact absurd hpoint hover.ne_sending

theorem Stage.holding (h : Stage answered id c v) (hpoint : c.point = .holding) :
    ∃ r, v.Live id r ∧
      ((v.At true none false false ∧ r.ready = 0 ∧ r.error = 0 ∧ v.owed = true) ∨
        (v.pending = false ∧ r.ready = 0 ∧ r.error = 0 ∧ v.reply.isSome) ∨
        (v.At false none false false ∧ r.ready = 1 ∧ r.error = 0 ∧
          answered r.replyType r.reply ∧ r.reply.Received) ∨
        (v.At false none false false ∧ r.error = - EIO)) := by
  cases h with
  | pending r hlive hat hready herror hfits howed =>
    rw [hpoint] at howed
    exact ⟨r, hlive, Or.inl ⟨hat, hready, herror, howed⟩⟩
  | stuck r hlive hat hfits => exact absurd (hfits.holding hpoint) nofun
  | completing r type buf hlive hat hready herror =>
    exact ⟨r, hlive, Or.inr (Or.inl ⟨hat.pending, hready, herror, by rw [hat.reply]; rfl⟩)⟩
  | replied r hlive hat hready herror hfits hsent hanswered hbuf =>
    exact ⟨r, hlive, Or.inr (Or.inr (Or.inl ⟨hat, hready, herror, hanswered, hbuf⟩))⟩
  | failed r hlive hat herror => exact ⟨r, hlive, Or.inr (Or.inr (Or.inr ⟨hat, herror⟩))⟩
  | refused r hlive hat herror hrefused => exact absurd (CallerPoint.of_refused hrefused hpoint) (by simp)
  | leaving r err outbuf hlive hat hleaving => exact absurd (hpoint.symm.trans hleaving) nofun
  | freed hnone hat hover => exact absurd hpoint hover.ne_holding

theorem Stage.of_refused (h : Stage answered id c v) (hpoint : c.point = .refused) :
    ∃ r, v.Live id r ∧ v.At false none false false ∧ r.error = - EIO := by
  cases h with
  | pending r hlive hat hready herror hfits => exact absurd hpoint hfits.ne_refused
  | stuck r hlive hat hfits => exact absurd hpoint hfits.ne_refused
  | completing r type buf hlive hat hready herror hfits => exact absurd hpoint hfits.ne_refused
  | replied r hlive hat hready herror hfits => exact absurd hpoint hfits.ne_refused
  | failed r hlive hat herror hfits => exact absurd hpoint hfits.ne_refused
  | refused r hlive hat herror => exact ⟨r, hlive, hat, herror⟩
  | leaving r err outbuf hlive hat hleaving => exact absurd (hpoint.symm.trans hleaving) nofun
  | freed hnone hat hover => exact absurd hpoint hover.ne_refused

theorem Stage.of_leaving (h : Stage answered id c v) {err : ℤ} {outbuf : Option (List UInt8)}
    (hpoint : c.point = .leaving err outbuf) :
    ∃ r, v.Live id r ∧ v.At false none false false ∧ c.Result answered err outbuf := by
  cases h with
  | pending r hlive hat hready herror hfits => exact absurd hpoint hfits.ne_leaving
  | stuck r hlive hat hfits => exact absurd hpoint hfits.ne_leaving
  | completing r type buf hlive hat hready herror hfits => exact absurd hpoint hfits.ne_leaving
  | replied r hlive hat hready herror hfits => exact absurd hpoint hfits.ne_leaving
  | failed r hlive hat herror hfits => exact absurd hpoint hfits.ne_leaving
  | refused r hlive hat herror hrefused => exact absurd (CallerPoint.of_refused hrefused hpoint) (by simp)
  | leaving r err' outbuf' hlive hat hleaving hresult =>
    obtain ⟨rfl, rfl⟩ := CallerPoint.leaving.inj (hpoint.symm.trans hleaving)
    exact ⟨r, hlive, hat, hresult⟩
  | freed hnone hat hover => exact absurd hpoint hover.ne_leaving

theorem Stage.of_pending (h : Stage answered id c v) (hpending : v.pending = true)
    (hstuck : v.stuck = false) :
    ∃ r, v.Live id r ∧ v.At true none false false ∧ r.ready = 0 ∧ r.error = 0 ∧
      c.Fits id r.wantReply ∧ v.owed = !c.point.isSending := by
  cases h with
  | pending r hlive hat hready herror hfits howed =>
    exact ⟨r, hlive, hat, hready, herror, hfits, howed⟩
  | stuck r hlive hat => exact absurd (hat.stuck.symm.trans hstuck) nofun
  | completing r type buf hlive hat => exact absurd (hpending.symm.trans hat.pending) nofun
  | replied r hlive hat => exact absurd (hpending.symm.trans hat.pending) nofun
  | failed r hlive hat => exact absurd (hpending.symm.trans hat.pending) nofun
  | refused r hlive hat => exact absurd (hpending.symm.trans hat.pending) nofun
  | leaving r err outbuf hlive hat => exact absurd (hpending.symm.trans hat.pending) nofun
  | freed hnone hat => exact absurd (hpending.symm.trans hat.pending) nofun

theorem Stage.of_completing (h : Stage answered id c v) {type : UInt8} {buf : SftpBuffer}
    (hreply : v.reply = some (type, buf)) :
    ∃ r, v.Live id r ∧ v.At false (some (type, buf)) false false ∧ r.ready = 0 ∧ r.error = 0 ∧
      c.Fits id r.wantReply ∧ c.point.isSending = false ∧ answered type buf ∧ buf.Received := by
  cases h with
  | pending r hlive hat => exact absurd (hreply.symm.trans hat.reply) nofun
  | stuck r hlive hat => exact absurd (hreply.symm.trans hat.reply) nofun
  | completing r type' buf' hlive hat hready herror hfits hsent hanswered hbuf =>
    obtain ⟨rfl, rfl⟩ := Prod.mk.inj (Option.some.inj (hreply.symm.trans hat.reply))
    exact ⟨r, hlive, hat, hready, herror, hfits, hsent, hanswered, hbuf⟩
  | replied r hlive hat => exact absurd (hreply.symm.trans hat.reply) nofun
  | failed r hlive hat => exact absurd (hreply.symm.trans hat.reply) nofun
  | refused r hlive hat => exact absurd (hreply.symm.trans hat.reply) nofun
  | leaving r err outbuf hlive hat => exact absurd (hreply.symm.trans hat.reply) nofun
  | freed hnone hat => exact absurd (hreply.symm.trans hat.reply) nofun

/-- A request whose reply nobody wants can be freed once its message is sent. -/
theorem Caller.Fits.over (h : c.Fits id false) (hsent : c.point.isSending = false) :
    c.Over answered := by
  unfold Caller.Fits at h
  unfold Caller.Over
  cases hpoint : c.point with
  | sending id =>
    rw [hpoint] at hsent
    cases hsent
  | written =>
    rw [hpoint] at h
    simpa using h
  | holding =>
    rw [hpoint] at h
    cases h
  | refused =>
    rw [hpoint] at h
    exact h
  | leaving err outbuf =>
    rw [hpoint] at h
    exact h
  | returned err outbuf =>
    rw [hpoint] at h
    exact Or.inl h.2
  | dropped => trivial
  | forgotten =>
    rw [hpoint] at h
    exact h

end Stages

section Sound

def Receiver.replyFor (p : ℕ) : Receiver → Option (UInt8 × SftpBuffer)
  | .completing req type buf => if req = p then some (type, buf) else none
  | _ => none

def Receiver.request : Receiver → Option ℕ
  | .completing req _ _ | .stuck req => some req
  | _ => none

namespace Requests

def view (s : Requests) (p : ℕ) : RequestView where
  request := s.heap p
  pending := decide ((UInt32.ofNat p, p) ∈ s.reqtab)
  reply := s.receiver.replyFor p
  owed := decide (UInt32.ofNat p ∈ s.outstanding)
  ended := decide (p ∈ s.ended)
  stuck := decide (s.receiver = .stuck p)

def Answered (s : Requests) (p : ℕ) (type : UInt8) (buf : SftpBuffer) : Prop :=
  (UInt32.ofNat p, type, buf) ∈ s.replies

def StageOf (s : Requests) (p : ℕ) : Prop :=
  ∃ c, s.callers p = some c ∧ Stage (s.Answered p) (.ofNat p) c (s.view p)

/-- Every request is at one of the stages, and they have different numbers. -/
structure Sound (s : Requests) : Prop where
  next_le : s.next ≤ 2 ^ 32
  idctr_eq : s.idctr = .ofNat s.next
  fresh : ∀ p, s.next ≤ p → s.heap p = none ∧ s.callers p = none ∧ p ∉ s.ended
  table : ∀ e ∈ s.reqtab, e.2 < s.next ∧ e.1 = .ofNat e.2
  table_nodup : s.reqtab.Nodup
  ended_nodup : s.ended.Nodup
  off : s.receiver = .off → s.reqtab = []
  busy : ∀ p, s.receiver.request = some p → p < s.next
  known : ∀ id ∈ s.outstanding, ∃ p < s.next, id = .ofNat p
  stage : ∀ p < s.next, s.StageOf p

theorem idle_sound : idle.Sound where
  next_le := Nat.zero_le _
  idctr_eq := rfl
  fresh := by simp [idle]
  table := by simp [idle]
  table_nodup := List.nodup_nil
  ended_nodup := List.nodup_nil
  off := fun _ => rfl
  busy := by simp [idle, Receiver.request]
  known := by simp [idle]
  stage := by simp [idle]

variable {s s' : Requests} {p q : ℕ}

theorem ofNat_inj {n : ℕ} (hn : n ≤ 2 ^ 32) (hp : p < n) (hq : q < n)
    (heq : UInt32.ofNat p = UInt32.ofNat q) : p = q := by
  have hnat := congrArg UInt32.toNat heq
  rwa [UInt32.toNat_ofNat', UInt32.toNat_ofNat', Nat.mod_eq_of_lt (by omega),
    Nat.mod_eq_of_lt (by omega)] at hnat

theorem Sound.number_inj (h : s.Sound) (hp : p < s.next) (hq : q < s.next)
    (heq : UInt32.ofNat p = UInt32.ofNat q) : p = q :=
  ofNat_inj h.next_le hp hq heq

theorem Sound.eq_of_mem (h : s.Sound) (hp : p < s.next) (hmem : (UInt32.ofNat p, q) ∈ s.reqtab) :
    q = p := by
  obtain ⟨hq, hnumber⟩ := h.table _ hmem
  exact h.number_inj hq hp hnumber.symm

theorem Sound.lookup_pending (h : s.Sound) (hp : p < s.next) (hpending : (s.view p).pending = true) :
    s.reqtab.lookup (.ofNat p) = some p := by
  cases hlookup : s.reqtab.lookup (UInt32.ofNat p) with
  | none =>
    rw [List.lookup_eq_none_iff] at hlookup
    exact absurd (hlookup _ (of_decide_eq_true hpending)) (by simp)
  | some q =>
    obtain ⟨l₁, l₂, heq, -⟩ := List.lookup_eq_some_iff.mp hlookup
    rw [h.eq_of_mem hp (q := q) (by rw [heq]; simp)]

theorem Sound.lookup_none (h : s.Sound) (hp : p < s.next) (hpending : (s.view p).pending = false) :
    s.reqtab.lookup (.ofNat p) = none := by
  cases hlookup : s.reqtab.lookup (UInt32.ofNat p) with
  | none => rfl
  | some q =>
    obtain ⟨l₁, l₂, heq, -⟩ := List.lookup_eq_some_iff.mp hlookup
    have hmem : (UInt32.ofNat p, q) ∈ s.reqtab := by
      rw [heq]
      simp
    rw [h.eq_of_mem hp hmem] at hmem
    exact absurd hmem (of_decide_eq_false hpending)

/-- The state after an event that concerns the request `p` only. -/
structure Moves (s s' : Requests) (p : ℕ) : Prop where
  next : s'.next = s.next
  idctr : s'.idctr = s.idctr
  fresh : ∀ q, q ≠ p → s'.heap q = s.heap q ∧ s'.callers q = s.callers q
  view : ∀ q < s.next, q ≠ p → s'.view q = s.view q
  replies : s.replies ⊆ s'.replies
  reqtab : s'.reqtab.Sublist s.reqtab
  ended : s'.ended = s.ended ∨ (s'.ended = s.ended ++ [p] ∧ p ∉ s.ended)
  off : s'.receiver = .off → s.receiver = .off
  busy : ∀ q, s'.receiver.request = some q → q = p ∨ s.receiver.request = some q
  known : ∀ id ∈ s'.outstanding, id = .ofNat p ∨ id ∈ s.outstanding

theorem Sound.moves (h : s.Sound) (hp : p < s.next) (hmoves : Moves s s' p)
    (hstage : s'.StageOf p) : s'.Sound where
  next_le := by rw [hmoves.next]; exact h.next_le
  idctr_eq := by rw [hmoves.idctr, hmoves.next]; exact h.idctr_eq
  fresh := by
    intro q hq
    rw [hmoves.next] at hq
    obtain ⟨hheap, hcallers, hended⟩ := h.fresh q hq
    obtain ⟨hheap', hcallers'⟩ := hmoves.fresh q (by omega)
    refine ⟨hheap'.trans hheap, hcallers'.trans hcallers, ?_⟩
    rcases hmoves.ended with heq | ⟨heq, -⟩
    · rwa [heq]
    · rw [heq, List.mem_append, List.mem_singleton]
      rintro (hmem | rfl)
      · exact hended hmem
      · omega
  table := by
    intro e he
    rw [hmoves.next]
    exact h.table e (hmoves.reqtab.subset he)
  table_nodup := hmoves.reqtab.nodup h.table_nodup
  ended_nodup := by
    rcases hmoves.ended with heq | ⟨heq, hnot⟩
    · rw [heq]
      exact h.ended_nodup
    · rw [heq, ← List.concat_eq_append]
      exact h.ended_nodup.concat hnot
  off := by
    intro hoff
    have := hmoves.reqtab
    rw [h.off (hmoves.off hoff)] at this
    exact List.sublist_nil.mp this
  busy := by
    intro q hq
    rw [hmoves.next]
    rcases hmoves.busy q hq with rfl | hbusy
    · exact hp
    · exact h.busy q hbusy
  known := by
    intro id hid
    rw [hmoves.next]
    rcases hmoves.known id hid with rfl | hold
    · exact ⟨p, hp, rfl⟩
    · exact h.known id hold
  stage := by
    intro q hq
    rw [hmoves.next] at hq
    by_cases hqp : q = p
    · rw [hqp]
      exact hstage
    · obtain ⟨c, hc, hstage⟩ := h.stage q hq
      refine ⟨c, (hmoves.fresh q hqp).2.trans hc, ?_⟩
      rw [hmoves.view q hq hqp]
      apply hstage.mono
      intro type buf hanswered
      exact hmoves.replies hanswered

end Requests

end Sound

section Moves

namespace Requests

variable {s s' s'' : Requests} {p q : ℕ}

theorem Moves.trans (h : Moves s s' p) (h' : Moves s' s'' p) : Moves s s'' p where
  next := h'.next.trans h.next
  idctr := h'.idctr.trans h.idctr
  fresh := by
    intro q hq
    exact ⟨(h'.fresh q hq).1.trans (h.fresh q hq).1, (h'.fresh q hq).2.trans (h.fresh q hq).2⟩
  view := by
    intro q hq hqp
    rw [h'.view q (by rw [h.next]; exact hq) hqp, h.view q hq hqp]
  replies := List.Subset.trans h.replies h'.replies
  reqtab := h'.reqtab.trans h.reqtab
  ended := by
    rcases h'.ended with heq' | ⟨heq', hnot'⟩
    · rw [heq']
      exact h.ended
    · rcases h.ended with heq | ⟨heq, -⟩
      · rw [heq] at heq' hnot'
        exact Or.inr ⟨heq', hnot'⟩
      · rw [heq] at hnot'
        simp at hnot'
  off := fun hoff => h.off (h'.off hoff)
  busy := by
    intro q hq
    rcases h'.busy q hq with rfl | hbusy
    · exact Or.inl rfl
    · exact h.busy q hbusy
  known := by
    intro id hid
    rcases h'.known id hid with rfl | hold
    · exact Or.inl rfl
    · exact h.known id hold

theorem view_congr (hheap : s'.heap q = s.heap q)
    (hreqtab : (UInt32.ofNat q, q) ∈ s'.reqtab ↔ (UInt32.ofNat q, q) ∈ s.reqtab)
    (howed : UInt32.ofNat q ∈ s'.outstanding ↔ UInt32.ofNat q ∈ s.outstanding)
    (hended : q ∈ s'.ended ↔ q ∈ s.ended) (hreply : s'.receiver.replyFor q = s.receiver.replyFor q)
    (hstuck : s'.receiver = .stuck q ↔ s.receiver = .stuck q) : s'.view q = s.view q := by
  simp only [view, hheap, hreqtab, howed, hended, hreply, hstuck]

theorem view_put (r : Option Request) : (s.put p r).view p = { s.view p with request := r } := by
  have hheap : (s.put p r).heap p = r := Function.update_self ..
  rw [view, hheap]
  rfl

theorem view_remove : (s.remove (.ofNat p)).view p = { s.view p with pending := false } := by
  have hnot : decide ((UInt32.ofNat p, p) ∈ (s.remove (.ofNat p)).reqtab) = false := by
    simp [remove]
  rw [view, hnot]
  rfl

theorem moves_put (r : Option Request) : Moves s (s.put p r) p where
  next := rfl
  idctr := rfl
  fresh := by
    intro q hq
    exact ⟨Function.update_of_ne hq .., rfl⟩
  view := by
    intro q _ hq
    exact view_congr (Function.update_of_ne hq ..) .rfl .rfl .rfl rfl .rfl
  replies := List.Subset.refl _
  reqtab := List.Sublist.refl _
  ended := Or.inl rfl
  off := fun h => h
  busy := fun _ h => Or.inr h
  known := fun _ h => Or.inr h

theorem moves_goto (c : Caller) (point : CallerPoint) : Moves s (s.goto p c point) p where
  next := rfl
  idctr := rfl
  fresh := by
    intro q hq
    exact ⟨rfl, Function.update_of_ne hq ..⟩
  view := fun _ _ _ => rfl
  replies := List.Subset.refl _
  reqtab := List.Sublist.refl _
  ended := Or.inl rfl
  off := fun h => h
  busy := fun _ h => Or.inr h
  known := fun _ h => Or.inr h

theorem moves_remove (hle : s.next ≤ 2 ^ 32) (hp : p < s.next) :
    Moves s (s.remove (.ofNat p)) p where
  next := rfl
  idctr := rfl
  fresh := fun _ _ => ⟨rfl, rfl⟩
  view := by
    intro q hq hqp
    have hne : UInt32.ofNat q ≠ UInt32.ofNat p := fun heq => hqp (ofNat_inj hle hq hp heq)
    exact view_congr rfl (by simp [remove, hne]) .rfl .rfl rfl .rfl
  replies := List.Subset.refl _
  reqtab := List.filter_sublist
  ended := Or.inl rfl
  off := fun h => h
  busy := fun _ h => Or.inr h
  known := fun _ h => Or.inr h

theorem moves_outstanding (hle : s.next ≤ 2 ^ 32) (hp : p < s.next) {ids : List UInt32}
    (hids : ∀ id, id ≠ .ofNat p → (id ∈ ids ↔ id ∈ s.outstanding)) :
    Moves s { s with outstanding := ids } p where
  next := rfl
  idctr := rfl
  fresh := fun _ _ => ⟨rfl, rfl⟩
  view := by
    intro q hq hqp
    have hne : UInt32.ofNat q ≠ UInt32.ofNat p := fun heq => hqp (ofNat_inj hle hq hp heq)
    exact view_congr rfl .rfl (hids _ hne) .rfl rfl .rfl
  replies := List.Subset.refl _
  reqtab := List.Sublist.refl _
  ended := Or.inl rfl
  off := fun h => h
  busy := fun _ h => Or.inr h
  known := by
    intro id hid
    by_cases heq : id = .ofNat p
    · exact Or.inl heq
    · exact Or.inr ((hids id heq).mp hid)

theorem moves_ended (hnot : p ∉ s.ended) : Moves s { s with ended := s.ended ++ [p] } p where
  next := rfl
  idctr := rfl
  fresh := fun _ _ => ⟨rfl, rfl⟩
  view := by
    intro q _ hqp
    exact view_congr rfl .rfl .rfl (by simp [hqp]) rfl .rfl
  replies := List.Subset.refl _
  reqtab := List.Sublist.refl _
  ended := Or.inr ⟨rfl, hnot⟩
  off := fun h => h
  busy := fun _ h => Or.inr h
  known := fun _ h => Or.inr h

theorem moves_replies (reply : UInt32 × UInt8 × SftpBuffer) :
    Moves s { s with replies := s.replies ++ [reply] } p where
  next := rfl
  idctr := rfl
  fresh := fun _ _ => ⟨rfl, rfl⟩
  view := fun _ _ _ => rfl
  replies := List.subset_append_left _ _
  reqtab := List.Sublist.refl _
  ended := Or.inl rfl
  off := fun h => h
  busy := fun _ h => Or.inr h
  known := fun _ h => Or.inr h

def OnlyWith (p : ℕ) (receiver : Receiver) : Prop :=
  receiver ≠ .off ∧ ∀ q, receiver.request = some q → q = p

theorem OnlyWith.view {receiver : Receiver} (h : OnlyWith p receiver) (hq : q ≠ p) :
    receiver.replyFor q = none ∧ receiver ≠ .stuck q := by
  cases receiver with
  | completing req type buf =>
    have := h.2 req rfl
    exact ⟨if_neg (by omega), nofun⟩
  | stuck req =>
    have := h.2 req rfl
    refine ⟨rfl, ?_⟩
    intro heq
    cases heq
    omega
  | off => exact ⟨rfl, nofun⟩
  | reading => exact ⟨rfl, nofun⟩
  | closing => exact ⟨rfl, nofun⟩

theorem moves_receiver {receiver : Receiver} (h : OnlyWith p s.receiver)
    (h' : OnlyWith p receiver) : Moves s { s with receiver } p where
  next := rfl
  idctr := rfl
  fresh := fun _ _ => ⟨rfl, rfl⟩
  view := by
    intro q _ hqp
    exact view_congr rfl .rfl .rfl .rfl ((h'.view hqp).1.trans (h.view hqp).1.symm)
      (iff_of_false (h'.view hqp).2 (h.view hqp).2)
  replies := List.Subset.refl _
  reqtab := List.Sublist.refl _
  ended := Or.inl rfl
  off := fun hoff => absurd hoff h'.1
  busy := fun q hq => Or.inl (h'.2 q hq)
  known := fun _ h => Or.inr h

end Requests

end Moves

end Defuse.Sshfs
