import Defuse.Lib.Runs
import Defuse.Proofs.SftpReplies
import Defuse.Spec.SftpSend
import Mathlib.Data.List.Infix

/-! Messages on their way to the server: the buffers they are put together in hold exactly the
fields that were added, and the threads that share a connection write one message after the
other, in whatever pieces the kernel takes them. -/

namespace Defuse.Sshfs

open CSem

section Adding

/-- A buffer into which `bytes` have been put. -/
structure SftpBuffer.Built (buf : SftpBuffer) (bytes : List UInt8) : Prop where
  len_eq : buf.len = bytes.length
  size_eq : buf.size = buf.p.length
  holds : buf.p.Holds 0 bytes

variable {buf : SftpBuffer} {bytes : List UInt8}

theorem bufInit_built (size : ℕ) : (bufInit size).Built [] :=
  ⟨rfl, by simp [bufInit], [], _, rfl, rfl⟩

theorem SftpBuffer.Built.checkAdd (h : buf.Built bytes) {n : ℕ} (hn : bytes.length + n + 63 < 2 ^ 64) :
    (bufCheckAdd buf n).Built bytes ∧ bytes.length + n ≤ (bufCheckAdd buf n).p.length := by
  have hlen := h.len_eq
  have hsize := h.size_eq
  unfold bufCheckAdd
  split_ifs with hfit
  · have hnew : bytes.length + n ≤ (buf.len + n + 63) % 2 ^ 64 / 32 * 32 := by omega
    refine ⟨⟨hlen, (Cells.resize_length _ _).symm, h.holds.resize (by omega)⟩, ?_⟩
    exact hnew.trans_eq (Cells.resize_length _ _).symm
  · refine ⟨h, ?_⟩
    rw [Nat.mod_eq_of_lt (by omega)] at hfit
    omega

theorem SftpBuffer.Built.addMem (h : buf.Built bytes) {data : List UInt8}
    (hfit : bytes.length + data.length + 63 < 2 ^ 64) :
    ∃ buf', bufAddMem buf data = .ok buf' ∧ buf'.Built (bytes ++ data) := by
  obtain ⟨hbuilt, hroom⟩ := h.checkAdd hfit
  obtain ⟨mem', hstore, hholds, hlength⟩ := hbuilt.holds.store hroom
  refine ⟨_, by rw [bufAddMem, hbuilt.len_eq, hstore]; rfl, ?_, ?_, hholds⟩
  · rw [List.length_append]
    exact Nat.mod_eq_of_lt (by omega)
  · exact hbuilt.size_eq.trans hlength.symm

theorem SftpBuffer.Built.addUint32 (h : buf.Built bytes) (val : UInt32)
    (hfit : bytes.length + 67 < 2 ^ 64) :
    ∃ buf', bufAddUint32 buf val = .ok buf' ∧ buf'.Built (bytes ++ word32 val) :=
  h.addMem (by rw [beBytes_length]; omega)

theorem SftpBuffer.Built.addUint8 (h : buf.Built bytes) (val : UInt8)
    (hfit : bytes.length + 64 < 2 ^ 64) :
    ∃ buf', bufAddUint8 buf val = .ok buf' ∧ buf'.Built (bytes ++ [val]) :=
  h.addMem (by rw [List.length_singleton]; omega)

theorem SftpBuffer.Built.load (h : buf.Built bytes) : buf.p.load 0 buf.len = .ok bytes := by
  rw [h.len_eq]
  exact Cells.Holds.load (b := []) (by rw [List.append_nil]; exact h.holds)

end Adding

section Frames

def SftpMessage.frame (m : SftpMessage) : List UInt8 :=
  word32 (UInt32.ofNat (iovLength m.iov + 5)) ++ m.type :: (word32 m.id ++ m.iov.flatten)

theorem sendHead_eq (m : SftpMessage) :
    sendHead m = .ok (word32 (UInt32.ofNat (iovLength m.iov + 5)) ++ m.type :: word32 m.id) := by
  obtain ⟨buf₁, hadd₁, hbuf₁⟩ :=
    (bufInit_built 9).addUint32 (UInt32.ofNat (iovLength m.iov + 5)) (by decide)
  obtain ⟨buf₂, hadd₂, hbuf₂⟩ := hbuf₁.addUint8 m.type (by simp)
  obtain ⟨buf₃, hadd₃, hbuf₃⟩ := hbuf₂.addUint32 m.id (by simp)
  rw [sendHead, hadd₁, ok_bind, hadd₂, ok_bind, hadd₃, ok_bind, hbuf₃.load]
  simp

@[simp] theorem iovLength_eq (iov : Iov) : iovLength iov = iov.flatten.length := by
  rw [iovLength, List.length_flatten]

theorem head_frame (m : SftpMessage) :
    ((word32 (UInt32.ofNat (iovLength m.iov + 5)) ++ m.type :: word32 m.id) :: m.iov).flatten =
      m.frame := by
  rw [SftpMessage.frame]
  simp

theorem skipWritten_flatten (res : ℕ) (iov : Iov) (h : res ≤ iov.flatten.length) :
    (skipWritten res iov).flatten = iov.flatten.drop res := by
  induction iov generalizing res with
  | nil => simp [skipWritten]
  | cons bytes iov ih =>
    rw [List.flatten_cons, List.length_append] at h
    rw [skipWritten]
    split_ifs with hpart
    · rw [List.flatten_cons, List.flatten_cons, List.drop_append_of_le_length hpart.le]
    · rw [ih _ (by omega), List.flatten_cons, List.drop_append,
        List.drop_eq_nil_of_le (Nat.le_of_not_lt hpart), List.nil_append]

end Frames

section Turns

def Sending.holds : Sending → Bool
  | .writing _ | .unlocking _ => true
  | .locking _ | .returned _ => false

/-- The point of the thread whose turn it is. -/
def Sending.Fits (p : Sending) (turn : Turn) : Prop :=
  match p with
  | .writing iov => turn.res = none ∧ turn.written ++ iov.flatten = turn.message.frame
  | .unlocking res => turn.res = some res
  | .locking _ | .returned _ => False

theorem Sending.Fits.holds {p : Sending} {turn : Turn} (h : p.Fits turn) : p.holds = true := by
  cases p with
  | writing iov => rfl
  | unlocking res => rfl
  | locking iovout => exact h.elim
  | returned res => exact h.elim

/-- What has been written of a message. -/
structure Turn.Kept (turn : Turn) : Prop where
  initial : turn.written <+: turn.message.frame
  whole : turn.res = some 0 → turn.written = turn.message.frame

/-- The threads write in turns: only the thread that holds the lock writes, and its turn is the
last one. -/
structure SendState.InTurns (s : SendState) : Prop where
  wire : s.wire = s.turns.flatMap Turn.written
  kept : ∀ turn ∈ s.turns, turn.Kept
  locking : ∀ t m iovout, s.threads t = some (m, .locking iovout) → iovout.flatten = m.frame
  returned : ∀ t m res, s.threads t = some (m, .returned res) →
    ∃ turn ∈ s.turns, turn.thread = t ∧ turn.message = m ∧ turn.res = some res
  holding : ∀ t m p, s.threads t = some (m, p) → p.holds → s.lockWrite = some t
  held : ∀ t, s.lockWrite = some t → ∃ before turn p, s.turns = before ++ [turn] ∧
    (∀ turn ∈ before, turn.res.isSome) ∧ turn.thread = t ∧ s.threads t = some (turn.message, p) ∧
    p.Fits turn
  free : s.lockWrite = none → ∀ turn ∈ s.turns, turn.res.isSome

theorem idle_inTurns : SendState.idle.InTurns where
  wire := rfl
  kept := by simp [SendState.idle]
  locking := by simp [SendState.idle]
  returned := by simp [SendState.idle]
  holding := by simp [SendState.idle]
  held := by simp [SendState.idle]
  free := by simp [SendState.idle]

variable {s : SendState} {t : Thread} {m : SftpMessage} {p : Sending}

theorem SendState.InTurns.turn (h : s.InTurns) (ht : s.threads t = some (m, p)) (hp : p.holds) :
    ∃ before turn, s.turns = before ++ [turn] ∧ (∀ turn ∈ before, turn.res.isSome) ∧
      turn.thread = t ∧ turn.message = m ∧ p.Fits turn := by
  obtain ⟨before, turn, q, hturns, hbefore, hthread, hq, hfits⟩ := h.held t (h.holding t m p ht hp)
  rw [ht] at hq
  obtain ⟨rfl, rfl⟩ := Prod.mk.inj (Option.some.inj hq)
  exact ⟨before, turn, hturns, hbefore, hthread, rfl, hfits⟩

theorem goto_self : (s.goto t m p).threads t = some (m, p) := Function.update_self ..

theorem goto_of_ne {u : Thread} (h : u ≠ t) : (s.goto t m p).threads u = s.threads u :=
  Function.update_of_ne h ..

theorem goto_cases {u : Thread} {m' : SftpMessage} {q : Sending}
    (h : (s.goto t m p).threads u = some (m', q)) :
    (u = t ∧ m' = m ∧ q = p) ∨ (u ≠ t ∧ s.threads u = some (m', q)) := by
  by_cases hut : u = t
  · subst hut
    rw [goto_self] at h
    obtain ⟨rfl, rfl⟩ := Prod.mk.inj (Option.some.inj h)
    exact Or.inl ⟨rfl, rfl, rfl⟩
  · rw [goto_of_ne hut] at h
    exact Or.inr ⟨hut, h⟩

/-- A thread that is not at the connection enters `sftp_send_iov`. -/
theorem SendState.InTurns.enters (h : s.InTurns)
    (hout : ∀ m p, s.threads t = some (m, p) → p.holds = false) {iovout : Iov}
    (hframe : iovout.flatten = m.frame) : (s.goto t m (.locking iovout)).InTurns where
  wire := h.wire
  kept := h.kept
  locking := by
    intro u m' iovout' hu
    rcases goto_cases hu with ⟨-, rfl, heq⟩ | ⟨-, hu⟩
    · cases heq
      exact hframe
    · exact h.locking u m' iovout' hu
  returned := by
    intro u m' res hu
    rcases goto_cases hu with ⟨-, -, heq⟩ | ⟨-, hu⟩
    · cases heq
    · exact h.returned u m' res hu
  holding := by
    intro u m' q hu hq
    rcases goto_cases hu with ⟨-, -, rfl⟩ | ⟨-, hu⟩
    · cases hq
    · exact h.holding u m' q hu hq
  held := by
    intro u hlock
    obtain ⟨before, turn, q, hturns, hbefore, hthread, hu, hfits⟩ := h.held u hlock
    have hut : u ≠ t := by
      rintro rfl
      have hq := hout _ _ hu
      rw [hfits.holds] at hq
      cases hq
    exact ⟨before, turn, q, hturns, hbefore, hthread, (goto_of_ne hut).trans hu, hfits⟩
  free := h.free

theorem call_inTurns (h : s.InTurns) (t : Thread) (m : SftpMessage) :
    ∃ s', s.call t m = .ok s' ∧ s'.InTurns := by
  unfold SendState.call
  by_cases hcount : m.iov.length ≤ SFTP_MAX_IOV - 1
  · rw [if_pos hcount, sendHead_eq]
    cases ht : s.threads t with
    | none =>
      refine ⟨_, rfl, h.enters ?_ (head_frame m)⟩
      intro m' p hp
      rw [ht] at hp
      cases hp
    | some x =>
      obtain ⟨m', p⟩ := x
      cases p with
      | returned res =>
        refine ⟨_, rfl, h.enters ?_ (head_frame m)⟩
        intro m'' p hp
        rw [ht] at hp
        cases hp
        rfl
      | locking iovout => exact ⟨s, rfl, h⟩
      | writing iov => exact ⟨s, rfl, h⟩
      | unlocking res => exact ⟨s, rfl, h⟩
  · rw [if_neg hcount]
    exact ⟨s, rfl, h⟩

theorem frame_ne_nil (m : SftpMessage) : m.frame ≠ [] := by
  rw [SftpMessage.frame]
  simp

/-- A thread takes the lock, and its turn begins. -/
theorem lock_inTurns (h : s.InTurns) {iovout : Iov} (ht : s.threads t = some (m, .locking iovout))
    (hlock : s.lockWrite = none) : (s.lock t m iovout).InTurns := by
  have hframe := h.locking t m iovout ht
  have hwrite : doWrite iovout = .writing iovout := by
    cases iovout with
    | nil => exact absurd hframe.symm (frame_ne_nil m)
    | cons bytes iov => rfl
  unfold SendState.lock
  rw [hwrite]
  constructor
  · change s.wire = _
    rw [h.wire]
    simp
  · intro turn hturn
    rcases List.mem_append.mp hturn with hturn | hturn
    · exact h.kept turn hturn
    · obtain rfl := List.mem_singleton.mp hturn
      exact ⟨List.nil_prefix, nofun⟩
  · intro u m' iovout' hu
    rcases goto_cases hu with ⟨-, -, heq⟩ | ⟨-, hu⟩
    · cases heq
    · exact h.locking u m' iovout' hu
  · intro u m' res hu
    rcases goto_cases hu with ⟨-, -, heq⟩ | ⟨-, hu⟩
    · cases heq
    · obtain ⟨turn, hturn, hrest⟩ := h.returned u m' res hu
      exact ⟨turn, List.mem_append_left _ hturn, hrest⟩
  · intro u m' q hu hq
    rcases goto_cases hu with ⟨rfl, -, -⟩ | ⟨-, hu⟩
    · rfl
    · rw [h.holding u m' q hu hq] at hlock
      cases hlock
  · intro u hu
    cases hu
    exact ⟨s.turns, _, .writing iovout, rfl, h.free hlock, rfl, goto_self, rfl, hframe⟩
  · nofun

theorem wrote_eq {before : List Turn} {turn : Turn} (hturns : s.turns = before ++ [turn])
    (bytes : List UInt8) (res : Option ℤ) :
    s.wrote bytes res = { s with
      wire := s.wire ++ bytes
      turns := before ++ [{ turn with written := turn.written ++ bytes, res }] } := by
  rw [SendState.wrote, hturns]
  simp

/-- What a round of `do_write` leaves of the message. -/
theorem round_fits {turn : Turn} {iov : Iov} (hkept : turn.Kept)
    (hleft : turn.written ++ iov.flatten = turn.message.frame) {res : ℤ}
    (hmax : res ≤ iovLength iov) (turn' : Turn) (hmessage : turn'.message = turn.message)
    (hwritten : turn'.written = turn.written ++ iov.flatten.take res.toNat)
    (hres : turn'.res = (doWriteRound iov res).result) :
    (doWriteRound iov res).Fits turn' ∧ turn'.Kept := by
  unfold doWriteRound at hres ⊢
  by_cases hfailed : res = -1 ∨ res = 0
  · rw [if_pos hfailed] at hres ⊢
    have hnothing : res.toNat = 0 := by omega
    rw [hnothing, List.take_zero, List.append_nil] at hwritten
    refine ⟨hres, by rw [hwritten, hmessage]; exact hkept.initial, ?_⟩
    intro hzero
    rw [hres] at hzero
    cases hzero
  · rw [if_neg hfailed] at hres ⊢
    rw [iovLength_eq] at hmax
    have hrest := skipWritten_flatten res.toNat iov (by omega)
    have hsplit : turn'.written ++ (skipWritten res.toNat iov).flatten = turn'.message.frame := by
      rw [hwritten, hrest, List.append_assoc, List.take_append_drop, hmessage, hleft]
    cases hiov : skipWritten res.toNat iov with
    | nil =>
      rw [hiov] at hres hsplit
      rw [List.flatten_nil, List.append_nil] at hsplit
      exact ⟨hres, by rw [hsplit], fun _ => hsplit⟩
    | cons bytes iov' =>
      rw [hiov] at hres hsplit
      refine ⟨⟨hres, hsplit⟩, ⟨_, hsplit⟩, ?_⟩
      intro hzero
      rw [hres] at hzero
      cases hzero

/-- A `writev` of the thread whose turn it is. -/
theorem write_inTurns (h : s.InTurns) {iov : Iov} (ht : s.threads t = some (m, .writing iov))
    {res : ℤ} (hmax : res ≤ iovLength iov) : (s.write t m iov res).InTurns := by
  obtain ⟨before, turn, hturns, hbefore, hthread, rfl, hnone, hleft⟩ := h.turn ht rfl
  have hlock := h.holding t _ _ ht rfl
  have hkept : turn.Kept := h.kept turn (by rw [hturns]; simp)
  obtain ⟨hfits, hkept'⟩ := round_fits hkept hleft hmax
    { turn with
      written := turn.written ++ iov.flatten.take res.toNat
      res := (doWriteRound iov res).result } rfl rfl rfl
  unfold SendState.write
  rw [wrote_eq hturns]
  constructor
  · change s.wire ++ _ = List.flatMap _ (before ++ [_])
    rw [h.wire, hturns]
    simp
  · intro turn' hturn'
    rcases List.mem_append.mp hturn' with hturn' | hturn'
    · exact h.kept turn' (by rw [hturns]; exact List.mem_append_left _ hturn')
    · obtain rfl := List.mem_singleton.mp hturn'
      exact hkept'
  · intro u m' iovout' hu
    rcases goto_cases hu with ⟨-, -, heq⟩ | ⟨-, hu⟩
    · have := hfits.holds
      rw [← heq] at this
      cases this
    · exact h.locking u m' iovout' hu
  · intro u m' res' hu
    rcases goto_cases hu with ⟨-, -, heq⟩ | ⟨-, hu⟩
    · have := hfits.holds
      rw [← heq] at this
      cases this
    · obtain ⟨turn', hturn', hthread', hmessage', hres'⟩ := h.returned u m' res' hu
      rw [hturns] at hturn'
      rcases List.mem_append.mp hturn' with hturn' | hturn'
      · exact ⟨turn', List.mem_append_left _ hturn', hthread', hmessage', hres'⟩
      · obtain rfl := List.mem_singleton.mp hturn'
        rw [hnone] at hres'
        cases hres'
  · intro u m' q hu hq
    rcases goto_cases hu with ⟨rfl, -, -⟩ | ⟨-, hu⟩
    · exact hlock
    · exact h.holding u m' q hu hq
  · intro u hu
    obtain rfl : t = u := Option.some.inj (hlock.symm.trans hu)
    exact ⟨before, _, _, rfl, hbefore, hthread, goto_self, hfits⟩
  · intro hfree
    exact absurd (hlock.symm.trans hfree) nofun

/-- The end of a turn. -/
theorem unlock_inTurns (h : s.InTurns) {res : ℤ} (ht : s.threads t = some (m, .unlocking res)) :
    (s.unlock t m res).InTurns := by
  obtain ⟨before, turn, hturns, hbefore, hthread, rfl, hres⟩ := h.turn ht rfl
  have hlock := h.holding t _ _ ht rfl
  have hturn : turn ∈ s.turns := by
    rw [hturns]
    simp
  unfold SendState.unlock
  constructor
  · exact h.wire
  · exact h.kept
  · intro u m' iovout' hu
    rcases goto_cases hu with ⟨-, -, heq⟩ | ⟨-, hu⟩
    · cases heq
    · exact h.locking u m' iovout' hu
  · intro u m' res' hu
    rcases goto_cases hu with ⟨rfl, rfl, heq⟩ | ⟨-, hu⟩
    · cases heq
      exact ⟨turn, hturn, hthread, rfl, hres⟩
    · exact h.returned u m' res' hu
  · intro u m' q hu hq
    rcases goto_cases hu with ⟨-, -, rfl⟩ | ⟨hut, hu⟩
    · cases hq
    · have := h.holding u m' q hu hq
      rw [hlock] at this
      exact absurd (Option.some.inj this).symm hut
  · nofun
  · intro _ turn' hturn'
    change turn' ∈ s.turns at hturn'
    rw [hturns] at hturn'
    rcases List.mem_append.mp hturn' with hturn' | hturn'
    · exact hbefore turn' hturn'
    · obtain rfl := List.mem_singleton.mp hturn'
      rw [hres]
      rfl

theorem proceed_inTurns (h : s.InTurns) (t : Thread) (res : ℤ) : (s.proceed t res).InTurns := by
  unfold SendState.proceed
  cases ht : s.threads t with
  | none => exact h
  | some x =>
    obtain ⟨m, p⟩ := x
    cases p with
    | locking iovout =>
      dsimp only
      cases hlock : s.lockWrite with
      | some u => exact h
      | none => exact lock_inTurns h ht hlock
    | writing iov =>
      dsimp only
      split_ifs with hres
      · exact write_inTurns h ht hres.2
      · exact h
    | unlocking res => exact unlock_inTurns h ht
    | returned res => exact h

theorem step_inTurns (h : s.InTurns) (e : SendEvent) : ∃ s', s.step e = .ok s' ∧ s'.InTurns := by
  cases e with
  | call t m => exact call_inTurns h t m
  | proceed t res => exact ⟨_, rfl, proceed_inTurns h t res⟩

theorem run_inTurns (events : List SendEvent) :
    ∃ s, run SendState.step .idle events = .ok s ∧ s.InTurns := by
  apply run_invariant SendState.InTurns (fun _ => True) _ idle_inTurns events (fun _ _ => trivial)
  intro s e h _
  exact step_inTurns h e

/-- However the threads of the application take turns, and whatever the kernel takes of each
`writev`, what has been written to the connection are the beginnings of the messages in the order
of the turns. Every turn but the last is over, a turn that ended with 0 has written the whole
message, and a thread returns the result of its own turn. -/
theorem sftpSendIov_turns (events : List SendEvent) :
    ∃ s, run SendState.step .idle events = .ok s ∧ s.wire = s.turns.flatMap Turn.written ∧
      (∀ turn ∈ s.turns, turn.written <+: turn.message.frame ∧
        (turn.res = some 0 → turn.written = turn.message.frame)) ∧
      (∀ turn ∈ s.turns.dropLast, turn.res.isSome) ∧
      ∀ t m res, s.threads t = some (m, .returned res) →
        ∃ turn ∈ s.turns, turn.thread = t ∧ turn.message = m ∧ turn.res = some res := by
  obtain ⟨s, hrun, h⟩ := run_inTurns events
  refine ⟨s, hrun, h.wire, ?_, ?_, h.returned⟩
  · intro turn hturn
    exact ⟨(h.kept turn hturn).initial, (h.kept turn hturn).whole⟩
  · intro turn hturn
    cases hlock : s.lockWrite with
    | none => exact h.free hlock turn (List.mem_of_mem_dropLast hturn)
    | some t =>
      obtain ⟨before, last, _, hturns, hbefore, -⟩ := h.held t hlock
      rw [hturns, List.dropLast_concat] at hturn
      exact hbefore turn hturn

end Turns

section ReadBack

def SftpMessage.received (m : SftpMessage) : UInt8 × SftpBuffer :=
  (m.type, .filled (word32 m.id ++ m.iov.flatten))

theorem frame_isReply {m : SftpMessage} (h : iovLength m.iov + 5 ≤ 2 ^ 17) :
    IsReply m.received m.frame := by
  rw [iovLength_eq] at h
  have hlen : (UInt32.ofNat (iovLength m.iov + 5)).toNat = m.iov.flatten.length + 5 := by
    rw [iovLength_eq, UInt32.toNat_ofNat', Nat.mod_eq_of_lt (by omega)]
  refine ⟨UInt32.ofNat (iovLength m.iov + 5), _, ?_, ?_, ?_, rfl, rfl⟩
  · rw [UInt32.le_iff_toNat_le, hlen]
    exact Nat.le_add_left 1 _
  · rw [UInt32.le_iff_toNat_le, hlen]
    exact h
  · rw [hlen, List.length_append, word32_length]
    omega

theorem frames_areReplies {ms : List SftpMessage} (h : ∀ m ∈ ms, iovLength m.iov + 5 ≤ 2 ^ 17) :
    words TakenReply ms.length (ms.map SftpMessage.received) (ms.flatMap SftpMessage.frame) := by
  refine ⟨List.length_map _, ms.map SftpMessage.frame, ?_, rfl⟩
  rw [List.forall₂_map_left_iff, List.forall₂_map_right_iff, List.forall₂_same]
  intro m hm
  exact Or.inl (frame_isReply (h m hm))

/-- When all turns have ended with 0 and the messages are not longer than a reply may be,
`sftp_read` at the other end reads exactly these messages, in the order of the turns and in
whatever pieces they arrive. -/
theorem sent_read_back {events : List SendEvent} {s : SendState}
    (hrun : run SendState.step .idle events = .ok s)
    (hsent : ∀ turn ∈ s.turns, turn.res = some 0 ∧ iovLength turn.message.iov + 5 ≤ 2 ^ 17)
    {conn : SftpConn} (hconn : conn.Delivers) (hwire : conn.unread = s.wire) :
    ∃ conn', times sftpRead s.turns.length conn =
        .ok (.ok (s.turns.map fun turn => turn.message.received), conn') ∧ conn'.unread = [] := by
  obtain ⟨s', hrun', h⟩ := run_inTurns events
  obtain rfl := Except.ok.inj (hrun.symm.trans hrun')
  have hframes : s.wire = (s.turns.map Turn.message).flatMap SftpMessage.frame := by
    rw [h.wire, List.flatMap_map]
    apply List.flatMap_congr
    intro turn hturn
    exact (h.kept turn hturn).whole (hsent turn hturn).1
  have hreplies : words TakenReply s.turns.length (s.turns.map fun turn => turn.message.received)
      s.wire := by
    have := @frames_areReplies (s.turns.map Turn.message)
    rw [← hframes, List.length_map, List.map_map] at this
    apply this
    intro m hm
    obtain ⟨turn, hturn, rfl⟩ := List.mem_map.mp hm
    exact (hsent turn hturn).2
  obtain ⟨_, conn', hread, _, rfl, rfl, hconn', hrest⟩ :=
    (decodes_sftpRead.times selfDelimiting_reply s.turns.length).reads
      (selfDelimiting_reply.words _) (show (delivery conn.features).Inv conn from ⟨hconn, rfl⟩)
      hreplies (hwire.trans (List.append_nil _).symm)
  exact ⟨conn', hread, hrest⟩

/-- Two threads send at once: the second waits while the first writes its message in two pieces. -/
def twoSenders : List SendEvent :=
  [.call 1 ⟨4, 7, [[1, 2]]⟩, .call 2 ⟨5, 8, []⟩, .proceed 1 0, .proceed 1 3, .proceed 2 0,
    .proceed 1 8, .proceed 1 0, .proceed 2 0, .proceed 2 9, .proceed 2 0]

theorem sent_read_back_two :
    ∃ (s : SendState) (conn conn' : SftpConn), run SendState.step .idle twoSenders = .ok s ∧
      times sftpRead 2 conn =
        .ok (.ok [(4, .filled [0, 0, 0, 7, 1, 2]), (5, .filled [0, 0, 0, 8])], conn') ∧
      conn'.unread = [] := by
  have hrun : ∃ s, run SendState.step .idle twoSenders = .ok s ∧
      s.turns = [⟨1, ⟨4, 7, [[1, 2]]⟩, [0, 0, 0, 7, 4, 0, 0, 0, 7, 1, 2], some 0⟩,
        ⟨2, ⟨5, 8, []⟩, [0, 0, 0, 5, 5, 0, 0, 0, 8], some 0⟩] ∧
      s.wire = [0, 0, 0, 7, 4, 0, 0, 0, 7, 1, 2, 0, 0, 0, 5, 5, 0, 0, 0, 8] := ⟨_, rfl, rfl, rfl⟩
  obtain ⟨s, hrun, hturns, hwire⟩ := hrun
  obtain ⟨conn', hread, hrest⟩ := sent_read_back hrun (by rw [hturns]; decide)
    (show SftpConn.Delivers
      ⟨[[0, 0, 0, 7, 4, 0, 0], [0, 7, 1, 2, 0, 0], [0, 5, 5, 0, 0, 0, 8]], {}⟩ by decide)
    (by rw [hwire]; rfl)
  rw [hturns] at hread
  exact ⟨s, _, conn', hrun, hread, hrest⟩

end ReadBack

end Defuse.Sshfs
