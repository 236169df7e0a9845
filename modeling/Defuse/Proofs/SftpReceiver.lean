import Defuse.Proofs.SftpCallers

/-! The thread that receives the replies: `process_one_request` and the end of
`process_requests`. -/

namespace Defuse.Sshfs

open CSem

section Receiving

namespace Requests

variable {s s' : Requests} {p q : ℕ}

theorem complete_sound (h : s.Sound) : ∃ s', s.complete = .ok s' ∧ s'.Sound := by
  unfold complete
  cases hreceiver : s.receiver with
  | completing p type buf =>
    have hp : p < s.next := h.busy p (by rw [hreceiver]; rfl)
    have hreply : (s.view p).reply = some (type, buf) := by
      change s.receiver.replyFor p = _
      rw [hreceiver]
      exact if_pos rfl
    obtain ⟨c, hc, hstage⟩ := h.stage p hp
    obtain ⟨r, hlive, hat, hready, herror, hfits, hsent, hanswered, hbuf⟩ := hstage.of_completing hreply
    have honly : OnlyWith p s.receiver := by
      rw [hreceiver]
      refine ⟨nofun, ?_⟩
      intro q hq
      exact (Option.some.inj hq).symm
    have hmoves : Moves s { s with receiver := .reading } p := moves_receiver honly ⟨nofun, nofun⟩
    dsimp only
    rw [get_eq hlive.request, ok_bind]
    by_cases hwant : r.wantReply = true
    · rw [hwant] at hfits
      rw [if_pos hwant]
      refine ⟨_, rfl, h.moves hp (hmoves.trans (moves_put _)) ⟨c, hc, ?_⟩⟩
      rw [view_put]
      exact .replied _ ⟨rfl, hlive.2⟩ ⟨hat.1, rfl, hat.3, rfl⟩ (by rw [hready]) herror hfits hsent
        hanswered hbuf
    · rw [if_neg hwant]
      rw [Bool.not_eq_true] at hwant
      rw [hwant] at hfits
      have hended : (Requests.view { s with receiver := .reading } p).ended = false := hat.ended
      refine ⟨_, rfl, h.moves hp (hmoves.trans (moves_free hended)) ⟨c, hc, ?_⟩⟩
      rw [view_free]
      exact .freed rfl ⟨hat.1, rfl, rfl, rfl⟩ (hfits.over hsent)
  | off => exact ⟨s, rfl, h⟩
  | reading => exact ⟨s, rfl, h⟩
  | closing => exact ⟨s, rfl, h⟩
  | stuck req => exact ⟨s, rfl, h⟩

def Free (s : Requests) : Prop := s.receiver = .reading ∨ s.receiver = .closing

theorem Free.onlyWith (h : s.Free) : OnlyWith p s.receiver := by
  rcases h with h | h
  · rw [h]
    exact ⟨nofun, nofun⟩
  · rw [h]
    exact ⟨nofun, nofun⟩

theorem Free.view (h : s.Free) : s.receiver.replyFor p = none ∧ s.receiver ≠ .stuck p := by
  rcases h with h | h
  · rw [h]
    exact ⟨rfl, nofun⟩
  · rw [h]
    exact ⟨rfl, nofun⟩

/-- The end of `process_requests`, when the table has been gone through. -/
theorem closed_sound (h : s.Sound) (hfree : s.Free) (hreqtab : s.reqtab = []) :
    ({ s with receiver := .off, outstanding := [] } : Requests).Sound where
  next_le := h.next_le
  idctr_eq := h.idctr_eq
  fresh := h.fresh
  table := h.table
  table_nodup := h.table_nodup
  ended_nodup := h.ended_nodup
  off := fun _ => hreqtab
  busy := nofun
  known := by simp
  stage := by
    intro q hq
    obtain ⟨c, hc, hstage⟩ := h.stage q hq
    refine ⟨c, hc, ?_⟩
    have hpending : (s.view q).pending = false := by
      apply decide_eq_false
      rw [hreqtab]
      exact List.not_mem_nil
    set s' : Requests := { s with receiver := .off, outstanding := [] }
    have hview : s'.view q = Requests.view { s with outstanding := [] } q :=
      view_congr rfl .rfl .rfl .rfl hfree.view.1.symm (iff_of_false nofun hfree.view.2)
    rw [hview]
    exact hstage.owed hpending _

theorem Sound.other_entry (h : s.Sound) (hp : p < s.next) {entries : List (UInt32 × ℕ)}
    (horder : ((UInt32.ofNat p, p) :: entries).Perm s.reqtab) {e : UInt32 × ℕ} (he : e ∈ entries) :
    e.1 ≠ .ofNat p ∧ e.2 ≠ p := by
  have hin : e ∈ s.reqtab := horder.subset (List.mem_cons_of_mem _ he)
  obtain ⟨hlt, hnumber⟩ := h.table e hin
  have hne : e.2 ≠ p := by
    intro heq
    have hsame : e = (.ofNat p, p) := Prod.ext (hnumber.trans (congrArg UInt32.ofNat heq)) heq
    rw [hsame] at he
    exact (List.nodup_cons.mp (horder.nodup_iff.mpr h.table_nodup)).1 he
  refine ⟨?_, hne⟩
  rw [hnumber]
  exact fun heq => hne (h.number_inj hlt hp heq)

def Unwanted (s : Requests) (e : UInt32 × ℕ) : Prop :=
  ∃ r, s.heap e.2 = some r ∧ r.wantReply = false

/-- Going through the table. The receiver gets stuck exactly at a request whose reply is not
wanted. -/
theorem cleanLoop_sound {order : List (UInt32 × ℕ)} (h : s.Sound) (hfree : s.Free)
    (horder : order.Perm s.reqtab) :
    ∃ s', cleanLoop order s = .ok s' ∧ s'.Sound ∧
      (((∃ p, s'.receiver = .stuck p) ∧ ∃ e ∈ order, s.Unwanted e) ∨
        (s'.receiver = .off ∧ ∀ e ∈ order, ¬ s.Unwanted e)) := by
  induction order generalizing s with
  | nil => exact ⟨_, rfl, closed_sound h hfree horder.nil_eq.symm, Or.inr ⟨rfl, by simp⟩⟩
  | cons e entries ih =>
    obtain ⟨id, p⟩ := e
    have hmem : (id, p) ∈ s.reqtab := horder.subset List.mem_cons_self
    obtain ⟨hp, rfl⟩ : p < s.next ∧ id = .ofNat p := h.table _ hmem
    obtain ⟨c, hc, hstage⟩ := h.stage p hp
    obtain ⟨r, hlive, hat, hready, herror, hfits, howed⟩ :=
      hstage.of_pending (decide_eq_true hmem) (decide_eq_false hfree.view.2)
    have hheap : s.heap p = some r := hlive.request
    rw [cleanLoop, get_eq hlive.request, ok_bind]
    by_cases hwant : r.wantReply = true
    · rw [hwant] at hfits
      rw [if_pos hwant]
      set s₁ := s.put p (some { r with error := - EIO, ready := r.ready + 1 })
      have hmoves : Moves s (s₁.remove (.ofNat p)) p :=
        (moves_put _).trans (moves_remove h.next_le hp)
      have hsound : (s₁.remove (.ofNat p)).Sound := by
        refine h.moves hp hmoves ⟨c, hc, ?_⟩
        rw [view_remove, view_put]
        exact .failed _ ⟨rfl, hlive.2⟩ ⟨rfl, hat.2, hat.3, hat.4⟩ rfl hfits
      have hrest : entries.Perm (s₁.remove (.ofNat p)).reqtab := by
        have hkept : ((UInt32.ofNat p, p) :: entries).filter (·.1 ≠ UInt32.ofNat p) = entries := by
          rw [List.filter_cons_of_neg (by simp), List.filter_eq_self]
          intro e he
          exact decide_eq_true (h.other_entry hp horder he).1
        rw [← hkept]
        exact horder.filter _
      have hsame {e : UInt32 × ℕ} (he : e ∈ entries) :
          (s₁.remove (.ofNat p)).Unwanted e ↔ s.Unwanted e := by
        have : (s₁.remove (.ofNat p)).heap e.2 = s.heap e.2 :=
          Function.update_of_ne (h.other_entry hp horder he).2 ..
        rw [Unwanted, this, Unwanted]
      obtain ⟨s', hloop, hsound', hcases⟩ := ih hsound hfree hrest
      refine ⟨s', hloop, hsound', ?_⟩
      rcases hcases with ⟨hstuck, e, he, hunwanted⟩ | ⟨hoff, hnone⟩
      · exact Or.inl ⟨hstuck, e, List.mem_cons_of_mem _ he, (hsame he).mp hunwanted⟩
      · refine Or.inr ⟨hoff, ?_⟩
        intro e he
        rcases List.mem_cons.mp he with rfl | he
        · rintro ⟨r', hr', hnot⟩
          obtain rfl := Option.some.inj (hheap.symm.trans hr')
          exact absurd (hwant.symm.trans hnot) nofun
        · exact fun hunwanted => hnone e he ((hsame he).mpr hunwanted)
    · rw [if_neg hwant]
      rw [Bool.not_eq_true] at hwant
      rw [hwant] at hfits
      have hstuck : OnlyWith p (.stuck p) := by
        refine ⟨nofun, ?_⟩
        intro q hq
        exact (Option.some.inj hq).symm
      set s₁ := s.put p (some { r with error := - EIO })
      have hended : p ∉ s₁.ended := of_decide_eq_false hat.ended
      have hfree₁ : s₁.Free := hfree
      have hmoves : Moves s { s₁ with receiver := .stuck p, ended := s₁.ended ++ [p] } p :=
        (moves_put _).trans ((moves_ended hended).trans (moves_receiver hfree₁.onlyWith hstuck))
      refine ⟨_, rfl, h.moves hp hmoves ⟨c, hc, ?_⟩,
        Or.inl ⟨⟨p, rfl⟩, _, List.mem_cons_self, r, hheap, hwant⟩⟩
      exact .stuck { r with error := - EIO } ⟨Function.update_self .., hlive.2⟩
        ⟨hat.1, rfl, decide_eq_true (List.mem_append_right _ (by simp)), decide_eq_true rfl⟩ hfits

theorem hangup_sound (h : s.Sound) (order : List (UInt32 × ℕ)) :
    ∃ s', s.hangup order = .ok s' ∧ s'.Sound := by
  unfold hangup
  split_ifs with hready
  · obtain ⟨s', hloop, hsound, -⟩ := cleanLoop_sound h hready.1 hready.2
    exact ⟨s', hloop, hsound⟩
  · exact ⟨s, rfl, h⟩

theorem closing_sound (h : s.Sound) (hreading : s.receiver = .reading) :
    ({ s with receiver := .closing } : Requests).Sound where
  next_le := h.next_le
  idctr_eq := h.idctr_eq
  fresh := h.fresh
  table := h.table
  table_nodup := h.table_nodup
  ended_nodup := h.ended_nodup
  off := nofun
  busy := nofun
  known := h.known
  stage := by
    intro q hq
    obtain ⟨c, hc, hstage⟩ := h.stage q hq
    refine ⟨c, hc, ?_⟩
    have hfree : s.Free := Or.inl hreading
    set s' : Requests := { s with receiver := .closing }
    have hview : s'.view q = s.view q :=
      view_congr rfl .rfl .rfl .rfl hfree.view.1.symm (iff_of_false nofun hfree.view.2)
    rw [hview]
    exact hstage

theorem moves_answer (h : s.Sound) (hp : p < s.next) (type : UInt8) (buf : SftpBuffer) :
    Moves s (s.answer (.ofNat p) type buf) p := by
  have hids : ∀ id, id ≠ UInt32.ofNat p →
      (id ∈ s.outstanding.erase (.ofNat p) ↔ id ∈ s.outstanding) :=
    fun id hne => List.mem_erase_of_ne hne
  exact (moves_outstanding h.next_le hp hids).trans (moves_replies _)

/-- A reply to a message that the server has got. -/
theorem take_sound (h : s.Sound) (hreading : s.receiver = .reading) (hp : p < s.next)
    (howed : UInt32.ofNat p ∈ s.outstanding) (type : UInt8) {buf : SftpBuffer} (hbuf : buf.Received) :
    ∃ s', (s.answer (.ofNat p) type buf).take (.ofNat p) type buf = .ok s' ∧ s'.Sound := by
  have hmoves := moves_answer h hp type buf
  have hfree : s.Free := Or.inl hreading
  obtain ⟨c, hc, hstage⟩ := h.stage p hp
  unfold take
  set s₁ := s.answer (.ofNat p) type buf
  have hstage₁ : Stage (s₁.Answered p) (.ofNat p) c (s.view p) :=
    hstage.mono fun _ _ hold => List.mem_append_left _ hold
  cases hpending : (s.view p).pending with
  | false =>
    have hlookup : s₁.reqtab.lookup (.ofNat p) = none := h.lookup_none hp hpending
    rw [hlookup]
    exact ⟨_, rfl, h.moves hp hmoves ⟨c, hc, hstage₁.owed hpending _⟩⟩
  | true =>
    have hlookup : s₁.reqtab.lookup (.ofNat p) = some p := h.lookup_pending hp hpending
    obtain ⟨r, hlive, hat, hready, herror, hfits, hsent⟩ :=
      hstage.of_pending hpending (decide_eq_false hfree.view.2)
    have hget : s₁.get p = .ok r := get_eq hlive.request
    rw [hlookup]
    dsimp only
    rw [hget, ok_bind]
    have hcompleting : OnlyWith p (.completing p type buf) := by
      refine ⟨nofun, ?_⟩
      intro q hq
      exact (Option.some.inj hq).symm
    have hremoved : Moves s₁ (s₁.remove (.ofNat p)) p := moves_remove h.next_le hp
    have honly : OnlyWith p (s₁.remove (.ofNat p)).receiver := hfree.onlyWith
    refine ⟨_, rfl, h.moves hp (hmoves.trans (hremoved.trans (moves_receiver honly hcompleting)))
      ⟨c, hc, ?_⟩⟩
    have hpast : c.point.isSending = false := by
      have := (decide_eq_true howed).symm.trans hsent
      simpa using this
    exact .completing r type buf ⟨hlive.1, hlive.2⟩ ⟨by simp [view, remove], if_pos rfl, hat.3, rfl⟩
      hready herror hfits hpast (List.mem_append_right _ List.mem_cons_self) hbuf

theorem receive_sound (h : s.Sound) (type : UInt8) {bytes : List UInt8}
    (hlength : bytes.length < 2 ^ 17)
    (hanswer : bytes.length < 4 ∨ ∃ id ∈ s.outstanding, word32 id <+: bytes) :
    ∃ s', s.receive type bytes = .ok s' ∧ s'.Sound := by
  unfold receive
  cases hreceiver : s.receiver with
  | reading =>
    have hfilled := filled_received bytes (by omega)
    obtain ⟨res, buf, hrun, hres⟩ := decodes_uint32 _ hfilled
    dsimp only
    rw [hrun, ok_bind]
    cases res with
    | error e => exact ⟨_, rfl, closing_sound h hreceiver⟩
    | ok id =>
      obtain ⟨hbuf, w, rfl, hrest⟩ := hres
      change (SftpBuffer.filled bytes).unread = word32 id ++ buf.unread at hrest
      rw [filled_unread] at hrest
      have howed : id ∈ s.outstanding := by
        rcases hanswer with hshort | ⟨id', hid', t, ht⟩
        · rw [hrest, List.length_append, word32_length] at hshort
          omega
        · rw [hrest] at ht
          obtain ⟨rfl, -⟩ := selfDelimiting_word32 rfl rfl ht
          exact hid'
      obtain ⟨p, hp, rfl⟩ := h.known id howed
      exact take_sound h hreceiver hp howed type hbuf
  | off => exact ⟨s, rfl, h⟩
  | closing => exact ⟨s, rfl, h⟩
  | completing req ty buf => exact ⟨s, rfl, h⟩
  | stuck req => exact ⟨s, rfl, h⟩

end Requests

end Receiving

end Defuse.Sshfs
