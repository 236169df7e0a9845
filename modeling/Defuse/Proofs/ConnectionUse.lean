import Defuse.Lib.Runs
import Defuse.Spec.NamenodeConnection

/-! The socket of the name node after it was closed. Neither the mutex nor `isconnected` keeps a
call from using the descriptor that is still stored, and a connect that failed closes it without
the mutex. -/

namespace Defuse

open CSem Connection

/-! Points -/

def Point.locked : Point → Bool
  | .outside | .locking _ | .cleaning _ | .cleaned _ | .ended => false
  | _ => true

/-- The points with a send or a receive to come on the socket that is stored. -/
def Point.needsSocket : Point → Bool
  | .connecting | .greeting _ | .spawning | .sending _ _ => true
  | .receivingLength _ | .receivingReply _ => true
  | _ => false

/-- The points of `hadoop_rpc_call_namenode` under the mutex. -/
def Point.inCall : Point → Bool
  | .sending job _ | .receivingLength job | .receivingReply job => job = .callNamenode
  | .closing job _ | .cancelling job _ | .leaving job _ => job = .callNamenode
  | _ => false

theorem Point.locked_of_needsSocket {p : Point} (h : p.needsSocket) : p.locked := by
  cases p <;> first | rfl | cases h

theorem Point.locked_of_inCall {p : Point} (h : p.inCall) : p.locked := by
  cases p <;> first | rfl | cases h

/-- What the state has to be for a thread at a point. -/
structure Point.Fits (p : Point) (t : Thread) (c : Connection) : Prop where
  holder : p.locked → c.holder = some t
  closed : p.needsSocket → c.closed = false
  between : p.inCall → c.between = false

/-! The property and the invariant -/

/-- No send or receive on a descriptor after it was closed, and errors from the calls made
then. -/
structure NotUsedAfterClose (c : Connection) : Prop where
  uses : ∀ u ∈ c.uses, u.closed = false
  ends : ∀ e ∈ c.ends, e.between → e.res < 0

structure Ordered (c : Connection) : Prop extends NotUsedAfterClose c where
  fits : ∀ t, (c.point t).Fits t c

variable {c c' : Connection} {t u : Thread} {p : Point} {a : OpAnswer}

theorem Point.fits_of_unlocked (h : p.locked = false) : p.Fits t c := by
  have hno : ¬ p.locked := by simp [h]
  constructor
  · intro hl
    exact absurd hl hno
  · intro hs
    exact absurd (locked_of_needsSocket hs) hno
  · intro hc
    exact absurd (locked_of_inCall hc) hno

theorem Point.Fits.cancelWorker (h : p.Fits t c) : p.Fits t c.cancelWorker := by
  unfold Connection.cancelWorker
  cases c.worker with
  | none => exact h
  | some w => exact ⟨h.holder, h.closed, h.between⟩

theorem zeroed_ordered : Ordered zeroed := by
  constructor
  · constructor
    · intro u hu
      cases hu
    · intro e he
      cases he
  · intro t
    exact Point.fits_of_unlocked rfl

namespace Ordered

theorem alone (h : Ordered c) (ht : (c.point t).locked) (hu : u ≠ t) :
    (c.point u).locked = false := by
  by_contra hl
  have hu' := (h.fits u).holder (by simpa using hl)
  rw [(h.fits t).holder ht] at hu'
  exact hu (Option.some.inj hu').symm

theorem of_alone (halone : ∀ u, u ≠ t → (c.point u).locked = false)
    (hpoint : c'.point = Function.update c.point t p) (hp : p.Fits t c')
    (hc' : NotUsedAfterClose c') : Ordered c' := by
  refine ⟨hc', fun u => ?_⟩
  rw [hpoint]
  by_cases hu : u = t
  · subst hu
    rw [Function.update_self]
    exact hp
  · rw [Function.update_of_ne hu]
    exact Point.fits_of_unlocked (halone u hu)

theorem goto (h : Ordered c) (hp : p.Fits t c) : Ordered (c.goto t p) := by
  refine ⟨⟨h.uses, h.ends⟩, fun u => ?_⟩
  have hpoint : (c.goto t p).point u = Function.update c.point t p u := rfl
  rw [hpoint]
  by_cases hu : u = t
  · subst hu
    rw [Function.update_self]
    exact ⟨hp.holder, hp.closed, hp.between⟩
  · rw [Function.update_of_ne hu]
    exact ⟨(h.fits u).holder, (h.fits u).closed, (h.fits u).between⟩

theorem used (h : Ordered c) (hopen : c.closed = false) : Ordered c.used := by
  refine ⟨⟨fun u hu => ?_, h.ends⟩, fun u => ⟨(h.fits u).holder, (h.fits u).closed, (h.fits u).between⟩⟩
  rcases List.mem_append.mp hu with hu | hu
  · exact h.uses u hu
  · rw [List.mem_singleton.mp hu]
    exact hopen

theorem next {q : Point} (h : Ordered c) (hp : c.point t = p) (hsocket : p.needsSocket)
    (hcall : q.inCall → p.inCall) : Ordered (c.goto t q) := by
  have hfits := h.fits t
  rw [hp] at hfits
  apply h.goto
  constructor
  · intro _
    exact hfits.holder (Point.locked_of_needsSocket hsocket)
  · intro _
    exact hfits.closed hsocket
  · intro hq
    exact hfits.between (hcall hq)

theorem used_next {q : Point} (h : Ordered c) (hp : c.point t = p) (hsocket : p.needsSocket)
    (hcall : q.inCall → p.inCall) : Ordered (c.used.goto t q) := by
  have hopen := (h.fits t).closed (by rw [hp]; exact hsocket)
  exact (h.used hopen).next (show c.used.point t = p from hp) hsocket hcall

theorem of_eq (h : Ordered c) (hholder : c'.holder = c.holder) (hclosed : c'.closed = c.closed)
    (hbetween : c'.between = c.between) (hpoint : c'.point = c.point) (huses : c'.uses = c.uses)
    (hends : c'.ends = c.ends) : Ordered c' := by
  refine ⟨⟨?_, ?_⟩, fun u => ?_⟩
  · rw [huses]
    exact h.uses
  · rw [hends]
    exact h.ends
  · rw [hpoint]
    constructor
    · rw [hholder]
      exact (h.fits u).holder
    · rw [hclosed]
      exact (h.fits u).closed
    · rw [hbetween]
      exact (h.fits u).between

theorem cancelWorker (h : Ordered c) : Ordered c.cancelWorker := by
  unfold Connection.cancelWorker
  cases c.worker with
  | none => exact h
  | some w => exact h.of_eq rfl rfl rfl rfl rfl rfl

theorem spawn (h : Ordered c) (a : OpAnswer) : Ordered (c.spawn a) := by
  unfold Connection.spawn
  split_ifs
  · exact h.of_eq rfl rfl rfl rfl rfl rfl
  · exact h

end Ordered

/-! Steps -/

/-- The steps that do not lead to a use of a closed descriptor: no call takes the mutex while it
is closed, and a connect that failed does not close it before another thread's send or
receive. -/
def Connection.Event.harmless (c : Connection) : Event → Bool
  | .start _ _ => true
  | .proceed t _ =>
    match c.point t, c.holder with
    | .locking .callNamenode, none => !c.closed
    | .cleaning _, some u => !(c.point u).needsSocket
    | _, _ => true

theorem lock_ordered (h : Ordered c) (hfree : c.holder = none) {job : Job}
    (hopen : job = .callNamenode → c.closed = false) : Ordered (c.lock t job) := by
  have halone : ∀ u, u ≠ t → (c.point u).locked = false := by
    intro u _
    by_contra hl
    have hu := (h.fits u).holder (by simpa using hl)
    rw [hfree] at hu
    cases hu
  cases job with
  | callNamenode =>
    refine Ordered.of_alone halone rfl ⟨fun _ => rfl, fun _ => hopen rfl, fun _ => hopen rfl⟩ ?_
    exact ⟨h.uses, h.ends⟩
  | connectNamenode =>
    refine Ordered.of_alone halone rfl ⟨fun _ => rfl, fun hs => ?_, fun hc => ?_⟩ ⟨h.uses, h.ends⟩
    · cases hs
    · cases hc

theorem leave_ordered (h : Ordered c) {job : Job} {res : ℤ} (hp : c.point t = .leaving job res) :
    Ordered (c.leave t job res) := by
  have hfits := h.fits t
  rw [hp] at hfits
  have halone : ∀ u, u ≠ t → (c.point u).locked = false :=
    fun u hu => h.alone (by rw [hp]; rfl) hu
  cases job with
  | callNamenode =>
    refine Ordered.of_alone halone rfl (Point.fits_of_unlocked rfl) ⟨h.uses, fun e he => ?_⟩
    rcases List.mem_append.mp he with he | he
    · exact h.ends e he
    · rw [List.mem_singleton.mp he, hfits.between rfl]
      intro hfalse
      cases hfalse
  | connectNamenode =>
    unfold leave
    dsimp only
    split_ifs
    · refine h.goto ⟨fun _ => hfits.holder rfl, fun hs => ?_, fun hc => ?_⟩
      · cases hs
      · cases hc
    · exact Ordered.of_alone halone rfl (Point.fits_of_unlocked rfl) ⟨h.uses, h.ends⟩

theorem cleaning_ordered (h : Ordered c)
    (hidle : ∀ u, c.holder = some u → ¬ (c.point u).needsSocket) (error : ℤ) :
    Ordered (c.disconnect.goto t (.cleaned error)) := by
  have hdisconnect : Ordered c.disconnect := by
    refine ⟨⟨h.uses, h.ends⟩, fun u => ⟨(h.fits u).holder, fun hs => ?_, (h.fits u).between⟩⟩
    exact absurd hs (hidle u ((h.fits u).holder (Point.locked_of_needsSocket hs)))
  exact hdisconnect.goto (Point.fits_of_unlocked rfl)

theorem advance_ordered (h : Ordered c) (hok : Event.harmless c (.proceed t a)) :
    Ordered (c.advance t a) := by
  have hfits := h.fits t
  unfold Event.harmless at hok
  dsimp only at hok
  unfold advance
  cases hp : c.point t with
  | outside => exact h
  | ended => exact h
  | locking job =>
    cases hholder : c.holder with
    | some u => exact h
    | none =>
      refine lock_ordered h hholder fun hjob => ?_
      rw [hp, hholder, hjob] at hok
      simpa using hok
  | creating =>
    rw [hp] at hfits
    refine Ordered.of_alone (fun u hu => h.alone (by rw [hp]; rfl) hu) rfl
      ⟨fun _ => hfits.holder rfl, fun _ => rfl, fun hc => ?_⟩ ⟨h.uses, h.ends⟩
    cases hc
  | connecting =>
    dsimp only
    split_ifs <;> exact h.next hp rfl fun hc => by cases hc
  | greeting left =>
    dsimp only
    split_ifs
    · exact h.used_next hp rfl fun hc => by cases hc
    · cases left <;> exact h.used_next hp rfl fun hc => by cases hc
  | spawning =>
    dsimp only
    split_ifs
    · exact h.next hp rfl fun hc => by cases hc
    · have hspawn : (c.spawn a).point t = .spawning := by
        rw [← hp]
        unfold Connection.spawn
        split_ifs <;> rfl
      exact (h.spawn a).next hspawn rfl fun hc => by cases hc
  | sending job left => cases left <;> exact h.used_next hp rfl id
  | receivingLength job =>
    dsimp only
    split_ifs <;> exact h.used_next hp rfl id
  | receivingReply job =>
    dsimp only
    split_ifs
    · exact h.used_next hp rfl id
    · cases a.reply.status <;> exact h.used_next hp rfl id
  | closing job res =>
    rw [hp] at hfits
    refine Ordered.of_alone (fun u hu => h.alone (by rw [hp]; rfl) hu) rfl
      ⟨fun _ => hfits.holder rfl, fun hs => ?_, hfits.between⟩ ⟨h.uses, h.ends⟩
    cases hs
  | cancelling job res =>
    rw [hp] at hfits
    apply h.cancelWorker.goto
    apply Point.Fits.cancelWorker
    exact ⟨fun _ => hfits.holder rfl, fun hs => (by cases hs), hfits.between⟩
  | leaving job res => exact leave_ordered h hp
  | failing error =>
    exact Ordered.of_alone (fun u hu => h.alone (by rw [hp]; rfl) hu) rfl
      (Point.fits_of_unlocked rfl) ⟨h.uses, h.ends⟩
  | cleaning error =>
    refine cleaning_ordered h (fun u hu => ?_) error
    rw [hp, hu] at hok
    simpa using hok
  | cleaned error => exact h.cancelWorker.goto (Point.fits_of_unlocked rfl)

theorem step_ordered (h : Ordered c) {e : Event} (hok : e.harmless c) : Ordered (c.step e) := by
  cases e with
  | start t job =>
    unfold step
    dsimp only
    split_ifs
    · exact h.goto (Point.fits_of_unlocked rfl)
    · exact h
  | proceed t a =>
    unfold step
    dsimp only
    split_ifs
    · exact h.goto (Point.fits_of_unlocked rfl)
    · exact advance_ordered h hok

/-- In every run of such steps the socket is not used between its close and the next connect. -/
theorem not_used_after_close (events : List Event)
    (hok : ∀ pre e, pre ++ [e] <+: events → e.harmless (pre.foldl step zeroed)) :
    ∀ pre, pre <+: events → NotUsedAfterClose (pre.foldl step zeroed) := by
  intro pre hpre
  have hordered : Ordered (pre.foldl step zeroed) := by
    apply foldl_guarded Ordered (fun c e => e.harmless c)
    · intro c e hc he
      exact step_ordered hc he
    · exact zeroed_ordered
    · intro p e hp
      exact hok p e (hp.trans hpre)
  exact hordered.toNotUsedAfterClose

def proceeds (t : Thread) (n : ℕ) : List Event :=
  List.replicate n (.proceed t ⟨0, ⟨.success, none⟩, 7⟩)

def connects : List Event :=
  .start 0 .connectNamenode :: proceeds 0 1 ++ [.proceed 0 ⟨3, ⟨.success, none⟩, 7⟩] ++ proceeds 0 13

def fatalCall : List Event :=
  .start 0 .callNamenode :: proceeds 0 6 ++ [.proceed 0 ⟨0, ⟨.fatal, none⟩, 7⟩] ++ proceeds 0 3

def workerCall : List Event := .start 7 .callNamenode :: proceeds 7 8

/-- Connect, a renewal of the lease and a fatal reply. -/
theorem not_used_after_fatal :
    ((connects ++ workerCall ++ fatalCall).foldl step zeroed).ends =
        [⟨false, 0⟩, ⟨false, - EINVAL⟩] ∧
      NotUsedAfterClose ((connects ++ workerCall ++ fatalCall).foldl step zeroed) := by
  refine ⟨by decide, not_used_after_close (connects ++ workerCall ++ fatalCall) ?_ _
    (List.prefix_refl _)⟩
  apply foldl_guard_of_tested (fun c e => Event.harmless c e = true)
  decide

/-- A call after the fatal reply sends and receives on descriptor 3, which was closed, and if
that is open for something else by then, returns 0. -/
theorem used_after_fatal :
    ((connects ++ fatalCall ++ .start 0 .callNamenode :: proceeds 0 8).foldl step zeroed).ends =
        [⟨false, - EINVAL⟩, ⟨true, 0⟩] ∧
      ¬ NotUsedAfterClose
        ((connects ++ fatalCall ++ .start 0 .callNamenode :: proceeds 0 2).foldl step zeroed) := by
  refine ⟨by decide, fun h => ?_⟩
  have hlast : (⟨3, true⟩ : SocketUse) ∈
      ((connects ++ fatalCall ++ .start 0 .callNamenode :: proceeds 0 2).foldl step zeroed).uses := by
    decide
  exact absurd (h.uses _ hlast) (by decide)

end Defuse
