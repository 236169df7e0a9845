import Defuse.Proofs.SftpAttrs
import Defuse.Spec.SftpStream

/-! What `sshfs_wrap.c` reads from a connection does not depend on the pieces in which it
arrives. `sftp_read` takes the replies one after the other. -/

namespace Defuse.Sshfs

open CSem

def SftpConn.unread (conn : SftpConn) : List UInt8 := conn.incoming.flatten

def SftpConn.Delivers (conn : SftpConn) : Prop := ∀ piece ∈ conn.incoming, piece ≠ []

instance (conn : SftpConn) : Decidable conn.Delivers :=
  inferInstanceAs (Decidable (∀ piece ∈ conn.incoming, piece ≠ []))

def delivery (features : Features) : Input SftpConn UInt8 :=
  ⟨fun conn => conn.Delivers ∧ conn.features = features, SftpConn.unread⟩

section Reading

variable {features : Features}

theorem readLoop_piece (b : UInt8) (bs : List UInt8) (incoming : List (List UInt8)) (size : ℕ) :
    readLoop ((b :: bs) :: incoming) (size + 1) =
      if size + 1 < (b :: bs).length then
        (.ok ((b :: bs).take (size + 1)), (b :: bs).drop (size + 1) :: incoming)
      else ((readLoop incoming (size + 1 - (b :: bs).length)).1.map ((b :: bs) ++ ·),
        (readLoop incoming (size + 1 - (b :: bs).length)).2) := rfl

theorem readLoop_spec {incoming : List (List UInt8)} (h : ∀ piece ∈ incoming, piece ≠ [])
    (size : ℕ) :
    ∃ res rest, readLoop incoming size = (res, rest) ∧ (∀ piece ∈ rest, piece ≠ []) ∧
      ((∃ bytes, res = .ok bytes ∧ bytes.length = size ∧ incoming.flatten = bytes ++ rest.flatten) ∨
        (res = .error (-1) ∧ incoming.flatten.length < size)) := by
  induction incoming generalizing size with
  | nil =>
    cases size with
    | zero => exact ⟨_, _, rfl, h, Or.inl ⟨[], rfl, rfl, rfl⟩⟩
    | succ size => exact ⟨_, _, rfl, h, Or.inr ⟨rfl, Nat.succ_pos size⟩⟩
  | cons piece incoming ih =>
    have hrest : ∀ p ∈ incoming, p ≠ [] := fun p hp => h p (List.mem_cons_of_mem _ hp)
    obtain ⟨b, bs, rfl⟩ := List.exists_cons_of_ne_nil (h piece (by simp))
    cases size with
    | zero => exact ⟨_, _, rfl, h, Or.inl ⟨[], rfl, rfl, rfl⟩⟩
    | succ size =>
      by_cases hlong : size + 1 < (b :: bs).length
      · refine ⟨_, _, by rw [readLoop_piece, if_pos hlong], ?_, Or.inl ⟨_, rfl, ?_, ?_⟩⟩
        · intro p hp
          rcases List.mem_cons.mp hp with rfl | hp
          · simpa using hlong
          · exact hrest p hp
        · rw [List.length_take]
          omega
        · rw [List.flatten_cons, List.flatten_cons, ← List.append_assoc, List.take_append_drop]
      · obtain ⟨res, rest, hloop, hne, hres⟩ := ih hrest (size + 1 - (b :: bs).length)
        refine ⟨_, rest, by rw [readLoop_piece, if_neg hlong, hloop], hne, ?_⟩
        rcases hres with ⟨bytes, rfl, hlen, hflat⟩ | ⟨rfl, hshort⟩
        · refine Or.inl ⟨_, rfl, ?_, ?_⟩
          · rw [List.length_append]
            omega
          · rw [List.flatten_cons, hflat, List.append_assoc]
        · refine Or.inr ⟨rfl, ?_⟩
          rw [List.flatten_cons, List.length_append]
          omega

theorem decodes_doRead (size : ℕ) :
    Decodes (delivery features) (· = -1) (doRead size) fun bytes w => bytes.length = size ∧ w = bytes := by
  intro conn hconn
  obtain ⟨res, rest, hloop, hne, hres⟩ := readLoop_spec hconn.1 size
  refine ⟨res, { conn with incoming := rest }, by rw [doRead, hloop], ?_⟩
  rcases hres with ⟨bytes, rfl, hlen, hflat⟩ | ⟨rfl, hshort⟩
  · exact ⟨⟨hne, hconn.2⟩, bytes, ⟨hlen, rfl⟩, hflat⟩
  · refine ⟨⟨hne, hconn.2⟩, rfl, ?_⟩
    intro bytes w hw hstart
    obtain ⟨hlen, rfl⟩ := hw
    have := hstart.length_le
    change _ ≤ conn.incoming.flatten.length at this
    omega

theorem ends_within_bind {α β : Type} {code : α → List UInt8 → Prop} {get : Proc SftpBuffer ℤ α}
    {E : ℤ → Prop} (hget : Decodes message E get code) {buf : SftpBuffer} (hbuf : buf.Received)
    {conn : SftpConn} {f : α × SftpBuffer → Proc SftpConn ℤ β} {post : Except ℤ β → SftpConn → Prop}
    (herror : ∀ e, E e → (∀ a w, code a w → ¬ w <+: buf.unread) → post (.error e) conn)
    (hok : ∀ a w buf', buf'.Received → code a w → buf.unread = w ++ buf'.unread →
      (f (a, buf')).Ends conn post) :
    (within get buf >>= f).Ends conn post := by
  obtain ⟨r, buf', hrun, hr⟩ := hget buf hbuf
  rw [Proc.ends_bind]
  refine ⟨_, conn, by rw [within, hrun]; rfl, ?_⟩
  cases r with
  | error e => exact herror e hr.2.1 hr.2.2
  | ok a =>
    obtain ⟨hbuf', w, hw, hunread⟩ := hr
    exact hok a w buf' hbuf' hw hunread

theorem within_eq {α : Type} {code : α → List UInt8 → Prop} {get : Proc SftpBuffer ℤ α}
    {E : ℤ → Prop} (hcode : SelfDelimiting code) (hget : Decodes message E get code)
    {buf : SftpBuffer} (hbuf : buf.Received) {a : α} {w t : List UInt8} (hw : code a w)
    (hunread : buf.unread = w ++ t) :
    ∃ buf', within get buf = pure (a, buf') ∧ buf'.Received ∧ buf'.unread = t := by
  obtain ⟨r, buf', hrun, a', rfl, rfl, hbuf', ht⟩ := hget.reads hcode hbuf hw hunread
  refine ⟨buf', ?_, hbuf', ht⟩
  funext conn
  rw [within, hrun]
  rfl

end Reading

section Replies

variable {features : Features}

/-- A reply of the protocol: its length counts the type and the bytes behind it. -/
def IsReply (reply : UInt8 × SftpBuffer) (w : List UInt8) : Prop :=
  ∃ (len : UInt32) (body : List UInt8), 1 ≤ len ∧ len ≤ MAX_REPLY_LEN ∧
    body.length + 1 = len.toNat ∧ reply.2 = .filled body ∧ w = word32 len ++ reply.1 :: body

/-- A length of zero, which is less than the type alone takes. In `len - 1` it becomes the largest
number of 32 bits. -/
def IsWrapped (reply : UInt8 × SftpBuffer) (w : List UInt8) : Prop :=
  ∃ body : List UInt8, body.length = 2 ^ 32 - 1 ∧ reply.2 = .filled body ∧
    w = word32 0 ++ reply.1 :: body

def TakenReply (reply : UInt8 × SftpBuffer) (w : List UInt8) : Prop :=
  IsReply reply w ∨ IsWrapped reply w

theorem takenReply_iff {reply : UInt8 × SftpBuffer} {w : List UInt8} :
    TakenReply reply w ↔ ∃ (len : UInt32) (body : List UInt8), len ≤ MAX_REPLY_LEN ∧
      body.length = (len - 1).toNat ∧ reply.2 = .filled body ∧ w = word32 len ++ reply.1 :: body := by
  constructor
  · rintro (⟨len, body, hpos, hle, hbody, hreply, hw⟩ | ⟨body, hbody, hreply, hw⟩)
    · refine ⟨len, body, hle, ?_, hreply, hw⟩
      rw [UInt32.toNat_sub_of_le _ _ hpos]
      exact Nat.eq_sub_of_add_eq hbody
    · exact ⟨0, body, by decide, hbody, hreply, hw⟩
  · rintro ⟨len, body, hle, hbody, hreply, hw⟩
    by_cases hpos : 1 ≤ len
    · refine Or.inl ⟨len, body, hpos, hle, ?_, hreply, hw⟩
      rw [UInt32.toNat_sub_of_le _ _ hpos] at hbody
      rw [UInt32.le_iff_toNat_le] at hpos
      rw [hbody]
      exact Nat.sub_add_cancel hpos
    · have hzero : len = 0 := by
        rw [UInt32.le_iff_toNat_le] at hpos
        apply UInt32.toNat_inj.mp
        change len.toNat = 0
        have hone : (1 : UInt32).toNat = 1 := rfl
        omega
      rw [hzero] at hbody hw
      exact Or.inr ⟨body, hbody, hreply, hw⟩

theorem selfDelimiting_reply : SelfDelimiting TakenReply := by
  intro a b v w hv hw r s heq
  obtain ⟨len, body, -, hbody, ha, rfl⟩ := takenReply_iff.mp hv
  obtain ⟨len', body', -, hbody', hb, rfl⟩ := takenReply_iff.mp hw
  rw [List.append_assoc, List.append_assoc] at heq
  obtain ⟨rfl, hbehind⟩ := selfDelimiting_word32 rfl rfl heq
  obtain ⟨htype, hbodies⟩ := List.cons.inj hbehind
  obtain ⟨rfl, hrest⟩ := List.append_inj hbodies (hbody.trans hbody'.symm)
  exact ⟨Prod.ext htype (ha.trans hb.symm), hrest⟩

theorem head_eq {head : List UInt8} (h : head.length = 5) :
    ∃ len type, head = word32 len ++ [type] := by
  have hfour : (head.take 4).length = 4 := by
    rw [List.length_take]
    omega
  have hone : (head.drop 4).length = 1 := by
    rw [List.length_drop]
    omega
  obtain ⟨type, htype⟩ := List.length_eq_one_iff.mp hone
  exact ⟨UInt32.ofNat (beNat (head.take 4)), type, by
    rw [word32_beNat hfour, ← htype, List.take_append_drop]⟩

theorem decodes_sftpRead : Decodes (delivery features) (· = -1) sftpRead TakenReply := by
  intro conn hconn
  apply (decodes_doRead 5 conn hconn).bind
  · intro e conn' herr
    obtain ⟨hconn', he, hnone⟩ := herr
    refine ⟨hconn', he, ?_⟩
    intro reply w hw hstart
    obtain ⟨len, body, -, -, -, rfl⟩ := takenReply_iff.mp hw
    have hfive : (word32 len ++ [reply.1]).length = 5 := by simp
    refine hnone _ _ ⟨hfive, rfl⟩ (List.IsPrefix.trans ⟨body, ?_⟩ hstart)
    simp
  · intro head conn' hok
    obtain ⟨hconn', w, ⟨hfive, rfl⟩, hrest⟩ := hok
    obtain ⟨len, type, rfl⟩ := head_eq hfive
    have hhead := filled_received (word32 len ++ [type]) (by rw [hfive]; decide)
    obtain ⟨buf2, hlen, hbuf2, hunread⟩ :=
      within_eq selfDelimiting_word32 decodes_uint32 hhead rfl (filled_unread _)
    obtain ⟨buf3, htype, -, -⟩ :=
      within_eq selfDelimiting_word8 decodes_uint8 hbuf2 rfl (hunread.trans (List.append_nil [type]).symm)
    rw [hlen, Proc.pure_bind]
    dsimp only
    -- a reply at this place has the length and the type that were read
    have hsame {reply : UInt8 × SftpBuffer} {w : List UInt8} (hw : TakenReply reply w)
        (hstart : w <+: (delivery features).rest conn) : ∃ body, len ≤ MAX_REPLY_LEN ∧
          body.length = (len - 1).toNat ∧ body <+: (delivery features).rest conn' := by
      obtain ⟨len', body, hle, hbody, -, rfl⟩ := takenReply_iff.mp hw
      obtain ⟨t, ht⟩ := hstart
      rw [hrest, List.append_assoc, List.append_assoc] at ht
      obtain ⟨rfl, hbehind⟩ := selfDelimiting_word32 rfl rfl ht
      exact ⟨body, hle, hbody, t, (List.cons.inj hbehind).2⟩
    split_ifs with hlong
    · rw [Proc.ends_fail]
      refine ⟨hconn', rfl, ?_⟩
      intro reply w hw hstart
      obtain ⟨_, hle, -⟩ := hsame hw hstart
      exact absurd hle (by simpa using hlong)
    · rw [htype, Proc.pure_bind]
      dsimp only
      apply (decodes_doRead _ conn' hconn').bind
      · intro e conn'' herr
        obtain ⟨hconn'', he, hnone⟩ := herr
        refine ⟨hconn'', he, ?_⟩
        intro reply w hw hstart
        obtain ⟨body, -, hbody, hstart'⟩ := hsame hw hstart
        exact hnone body body ⟨hbody, rfl⟩ hstart'
      · intro body conn'' hok
        obtain ⟨hconn'', _, ⟨hbody, rfl⟩, hrest'⟩ := hok
        rw [Proc.ends_pure]
        refine ⟨hconn'', _, takenReply_iff.mpr ⟨len, _, by simpa using hlong, hbody, rfl, rfl⟩, ?_⟩
        rw [hrest, hrest']
        simp

/-- In whatever pieces the bytes of the server arrive, `n` calls of `sftp_read` return `n` replies
exactly when that many stand at the beginning, one behind the other, and the next call goes on
behind them. Otherwise one of them returns -1. -/
theorem sftpRead_times_iff (n : ℕ) {conn : SftpConn} (hconn : conn.Delivers) :
    ∃ res conn', times sftpRead n conn = .ok (res, conn') ∧ conn'.Delivers ∧
      (∀ replies, res = .ok replies ↔
        ∃ w, words TakenReply n replies w ∧ conn.unread = w ++ conn'.unread) ∧
      (res = .error (-1) ↔ ∀ replies w, words TakenReply n replies w → ¬ w <+: conn.unread) := by
  obtain ⟨res, conn', hrun, hconn', hok, herr⟩ :=
    (decodes_sftpRead.times selfDelimiting_reply n).exact (selfDelimiting_reply.words n)
      (show (delivery conn.features).Inv conn from ⟨hconn, rfl⟩)
  exact ⟨res, conn', hrun, hconn'.1, hok, herr⟩

theorem sftpRead_times_two :
    ∃ replies w, words TakenReply 2 replies w ∧ w = [0, 0, 0, 3, 101, 0, 1, 0, 0, 0, 1, 7] ∧
      replies.map Prod.fst = [101, 7] := by
  obtain ⟨res, conn', hrun, -, hok, -⟩ := sftpRead_times_iff 2
    (show SftpConn.Delivers ⟨[[0], [0, 0, 3, 101, 0], [1, 0, 0], [0, 1, 7]], {}⟩ by decide)
  obtain ⟨rfl, rfl⟩ := Prod.mk.inj (Except.ok.inj hrun)
  obtain ⟨w, hw, hunread⟩ := (hok _).mp rfl
  exact ⟨_, w, hw, (hunread.trans (List.append_nil w)).symm, rfl⟩

end Replies

section Version

/-- The reply in which a server tells its version. -/
structure VersionReply where
  version : UInt32
  extensions : List (List UInt8 × List UInt8)
  length_le : (extensions.flatMap wordExtension).length + 5 ≤ 2 ^ 17

def VersionReply.word (reply : VersionReply) : List UInt8 :=
  beBytes 4 ((reply.extensions.flatMap wordExtension).length + 5) ++
    SSH_FXP_VERSION :: (word32 reply.version ++ reply.extensions.flatMap wordExtension)

/-- The features after a list of extensions, each with its data. -/
def Features.after (features : Features) (extensions : List (List UInt8 × List UInt8)) : Features :=
  extensions.foldl
    (fun features ext => features.note (ext.1.takeWhile (· ≠ 0)) (ext.2.takeWhile (· ≠ 0))) features

def VersionHeader (s : List UInt8) : Prop :=
  ∃ (len version : UInt32) (t : List UInt8), 5 ≤ len ∧ len ≤ MAX_REPLY_LEN ∧
    s = word32 len ++ SSH_FXP_VERSION :: (word32 version ++ t)

/-- How `sftp_find_init_reply` may end with `s` to come: it has found the first place that looks
like a version reply and read the reply there. -/
def VersionFound (features : Features) (s : List UInt8) : Except ℤ UInt32 → SftpConn → Prop
  | .ok version, conn => ∃ (rubbish : List UInt8) (reply : VersionReply),
      s = rubbish ++ (reply.word ++ conn.unread) ∧ version = reply.version ∧
      conn.features = features.after reply.extensions ∧
      ∀ k < rubbish.length, ¬ VersionHeader (s.drop k)
  | .error e, _ => e = -1 ∧ ∀ (rubbish : List UInt8) (reply : VersionReply) (t : List UInt8),
      s = rubbish ++ (reply.word ++ t) → ∃ k < rubbish.length, VersionHeader (s.drop k)

theorem asText_stringCells {σ : Type} (bytes : List UInt8) :
    (asText (stringCells bytes) : Proc σ ℤ (List UInt8)) = pure (bytes.takeWhile (· ≠ 0)) := by
  rw [asText, text_stringCells]

theorem isData_of_flatMap {left : List UInt8} (hleft : left.length < 2 ^ 32)
    {ext : List UInt8 × List UInt8} {exts : List (List UInt8 × List UInt8)}
    (h : left = (ext :: exts).flatMap wordExtension) :
    IsData ext.1 (wordData ext.1) ∧ IsData ext.2 (wordData ext.2) ∧
      left = wordData ext.1 ++ (wordData ext.2 ++ exts.flatMap wordExtension) := by
  rw [List.flatMap_cons, wordExtension, List.append_assoc] at h
  have hlen := congrArg List.length h
  simp only [wordData, List.length_append, beBytes_length] at hlen
  exact ⟨⟨by omega, rfl⟩, ⟨by omega, rfl⟩, h⟩

/-- How the loop over the extensions may end with `left` to read. -/
def ExtensionsNoted (conn : SftpConn) (left : List UInt8) : Except ℤ Unit → SftpConn → Prop
  | .ok _, conn' => ∃ exts, exts ≠ [] ∧ left = exts.flatMap wordExtension ∧
      conn' = { conn with features := conn.features.after exts }
  | .error e, _ => e = -1 ∧ ∀ exts, exts ≠ [] → left ≠ exts.flatMap wordExtension

theorem extensionLoop_ends {limit : ℕ} {buf2 : SftpBuffer} (hbuf2 : buf2.Received)
    (hlimit : buf2.unread.length ≤ limit) (hpos : 0 < limit) (conn : SftpConn) :
    (extensionLoop limit buf2).Ends conn (ExtensionsNoted conn buf2.unread) := by
  induction limit generalizing buf2 conn with
  | zero => cases hpos
  | succ limit ih =>
    have hshort {buf : SftpBuffer} (hbuf : buf.Received) : buf.unread.length < 2 ^ 32 := by
      have := hbuf.unread_holds.2
      have := hbuf.2.1
      omega
    apply ends_within_bind decodes_string hbuf2
    · intro e he hnone
      refine ⟨he, ?_⟩
      intro exts hexts hleft
      obtain ⟨ext, exts, rfl⟩ := List.exists_cons_of_ne_nil hexts
      obtain ⟨hname, -, hleft⟩ := isData_of_flatMap (hshort hbuf2) hleft
      exact hnone _ _ ⟨ext.1, rfl, hname⟩ ⟨_, hleft.symm⟩
    · intro _ _ buf₁ hbuf₁ hfirst hleft₁
      obtain ⟨name, rfl, hname⟩ := hfirst
      apply ends_within_bind decodes_string hbuf₁
      · intro e he hnone
        refine ⟨he, ?_⟩
        intro exts hexts hleft
        obtain ⟨ext, exts, rfl⟩ := List.exists_cons_of_ne_nil hexts
        obtain ⟨hname', hvalue, hleft⟩ := isData_of_flatMap (hshort hbuf2) hleft
        rw [hleft₁] at hleft
        exact hnone _ _ ⟨ext.2, rfl, hvalue⟩ ⟨_, (selfDelimiting_data hname hname' hleft).2.symm⟩
      · intro _ _ buf₂ hbuf₂ hsecond hleft₂
        obtain ⟨value, rfl, hvalue⟩ := hsecond
        have hround : buf2.unread = wordExtension (name, value) ++ buf₂.unread := by
          rw [hleft₁, hleft₂, hname.2, hvalue.2, ← List.append_assoc]
          rfl
        dsimp only
        rw [asText_stringCells, Proc.pure_bind, asText_stringCells, Proc.pure_bind,
          Proc.ends_update_bind]
        have hlength := hbuf₂.unread_holds.2
        have hsmaller : buf₂.unread.length + 8 ≤ buf2.unread.length := by
          rw [hround]
          simp only [wordExtension, wordData, List.length_append, beBytes_length]
          omega
        split_ifs with hmore
        · apply (ih hbuf₂ (by omega) (by omega) _).mono
          intro res conn' hres
          cases res with
          | ok _ =>
            obtain ⟨exts, -, hleft, rfl⟩ := hres
            exact ⟨(name, value) :: exts, by simp, by rw [hround, hleft, List.flatMap_cons], rfl⟩
          | error e =>
            refine ⟨hres.1, ?_⟩
            intro exts hexts hleft
            obtain ⟨ext, exts, rfl⟩ := List.exists_cons_of_ne_nil hexts
            obtain ⟨hname', hvalue', hleft⟩ := isData_of_flatMap (hshort hbuf2) hleft
            rw [hleft₁] at hleft
            have hbehind := (selfDelimiting_data hname hname' hleft).2
            rw [hleft₂] at hbehind
            have hrest := (selfDelimiting_data hvalue hvalue' hbehind).2
            refine hres.2 exts ?_ hrest
            rintro rfl
            rw [hrest, List.flatMap_nil, List.length_nil] at hlength
            omega
        · have hnil : buf₂.unread = [] := List.eq_nil_of_length_eq_zero (by omega)
          rw [Proc.ends_pure]
          exact ⟨[(name, value)], by simp, by rw [hround, hnil]; simp, rfl⟩

theorem window_eq {window : List UInt8} (h : window.length = 9) :
    ∃ len type version, window = word32 len ++ type :: word32 version := by
  have hhead : (window.take 5).length = 5 := by
    rw [List.length_take]
    omega
  have hfour : (window.drop 5).length = 4 := by
    rw [List.length_drop]
    omega
  obtain ⟨len, type, hlen⟩ := head_eq hhead
  refine ⟨len, type, UInt32.ofNat (beNat (window.drop 5)), ?_⟩
  rw [word32_beNat hfour, ← List.singleton_append, ← List.append_assoc, ← hlen,
    List.take_append_drop]

theorem versionHeader_iff (len version : UInt32) (type : UInt8) (t : List UInt8) :
    VersionHeader (word32 len ++ type :: word32 version ++ t) ↔
      5 ≤ len ∧ len ≤ MAX_REPLY_LEN ∧ type = SSH_FXP_VERSION := by
  constructor
  · intro h
    obtain ⟨len', version', t', hmin, hmax, heq⟩ := h
    rw [List.append_assoc] at heq
    obtain ⟨rfl, hbehind⟩ := selfDelimiting_word32 rfl rfl heq
    exact ⟨hmin, hmax, (List.cons.inj hbehind).1⟩
  · intro h
    obtain ⟨hmin, hmax, rfl⟩ := h
    exact ⟨len, version, t, hmin, hmax, by simp⟩

theorem VersionReply.word_eq (reply : VersionReply) :
    ∃ len : UInt32, 5 ≤ len ∧ len ≤ MAX_REPLY_LEN ∧
      (reply.extensions.flatMap wordExtension).length = (len - 5).toNat ∧
      reply.word = word32 len ++ SSH_FXP_VERSION :: word32 reply.version ++
        reply.extensions.flatMap wordExtension := by
  have hle := reply.length_le
  have hnat : (UInt32.ofNat ((reply.extensions.flatMap wordExtension).length + 5)).toNat =
      (reply.extensions.flatMap wordExtension).length + 5 := by
    rw [UInt32.toNat_ofNat', Nat.mod_eq_of_lt (by omega)]
  have hmin : (5 : UInt32) ≤ UInt32.ofNat ((reply.extensions.flatMap wordExtension).length + 5) := by
    rw [UInt32.le_iff_toNat_le, hnat]
    exact Nat.le_add_left 5 _
  refine ⟨_, hmin, ?_, ?_, ?_⟩
  · rw [UInt32.le_iff_toNat_le, hnat]
    exact hle
  · rw [UInt32.toNat_sub_of_le _ _ hmin, hnat]
    rfl
  · have hword : word32 (UInt32.ofNat ((reply.extensions.flatMap wordExtension).length + 5)) =
        beBytes 4 ((reply.extensions.flatMap wordExtension).length + 5) := by rw [word32, hnat]
    rw [VersionReply.word, hword]
    simp

/-- How `sftp_init_reply_ok` may end with `s` to come, the nine bytes included. -/
def VersionTried (conn : SftpConn) (s : List UInt8) : Except ℤ (Option UInt32) → SftpConn → Prop
  | .ok none, conn' => ¬ VersionHeader s ∧ conn' = conn
  | .ok (some version), conn' => ∃ reply : VersionReply, s = reply.word ++ conn'.unread ∧
      version = reply.version ∧ conn'.features = conn.features.after reply.extensions
  | .error e, _ => e = -1 ∧ VersionHeader s ∧ ∀ (reply : VersionReply) (t : List UInt8),
      s ≠ reply.word ++ t

theorem VersionReply.behind {reply : VersionReply} {len version : UInt32} {u t : List UInt8}
    (h : word32 len ++ SSH_FXP_VERSION :: word32 version ++ u = reply.word ++ t) :
    (reply.extensions.flatMap wordExtension).length = (len - 5).toNat ∧
      u = reply.extensions.flatMap wordExtension ++ t := by
  obtain ⟨len', -, -, hlength, hword⟩ := reply.word_eq
  rw [hword, List.append_assoc, List.append_assoc, List.append_assoc] at h
  obtain ⟨rfl, hbehind⟩ := selfDelimiting_word32 rfl rfl h
  have hversion := (List.cons.inj hbehind).2
  exact ⟨hlength, (selfDelimiting_word32 rfl rfl hversion).2⟩

/-- The extensions of a version reply whose header has been read. -/
theorem versionBody_ends {len version : UInt32} (hmin : 5 ≤ len) (hmax : len ≤ MAX_REPLY_LEN)
    {conn : SftpConn} (hconn : conn.Delivers) :
    (if len > 5 then do
        let buf2 ← doRead (len - 5).toNat
        extensionLoop buf2.length (.filled buf2)
        return some version
      else return some version : Proc SftpConn ℤ (Option UInt32)).Ends conn
      (VersionTried conn (word32 len ++ SSH_FXP_VERSION :: word32 version ++ conn.unread)) := by
  have hheader := (versionHeader_iff len version SSH_FXP_VERSION conn.unread).mpr ⟨hmin, hmax, rfl⟩
  have hbound : len.toNat ≤ 2 ^ 17 := UInt32.le_iff_toNat_le.mp hmax
  have hminNat : 5 ≤ len.toNat := UInt32.le_iff_toNat_le.mp hmin
  have hsub : (len - 5).toNat = len.toNat - 5 := UInt32.toNat_sub_of_le _ _ hmin
  have hreply (exts : List (List UInt8 × List UInt8))
      (hexts : (exts.flatMap wordExtension).length = (len - 5).toNat) :
      ∃ reply : VersionReply, reply.version = version ∧ reply.extensions = exts ∧
        reply.word = word32 len ++ SSH_FXP_VERSION :: word32 version ++ exts.flatMap wordExtension := by
    have hsum : (exts.flatMap wordExtension).length + 5 = len.toNat := by omega
    refine ⟨⟨version, exts, by omega⟩, rfl, rfl, ?_⟩
    rw [VersionReply.word]
    dsimp only
    rw [hsum]
    simp [word32]
  split_ifs with hmore
  · apply (decodes_doRead _ conn ⟨hconn, rfl⟩).bind
    · intro e conn' herr
      obtain ⟨-, he, hnone⟩ := herr
      refine ⟨he, hheader, ?_⟩
      intro reply t heq
      obtain ⟨hlength, hbehind⟩ := VersionReply.behind heq
      exact hnone _ _ ⟨hlength, rfl⟩ ⟨t, hbehind.symm⟩
    · intro _ conn' hok
      obtain ⟨⟨-, hfeatures⟩, buf2, ⟨hlength, rfl⟩, hrest⟩ := hok
      have hpos : 0 < (len - 5).toNat := by
        have := UInt32.lt_iff_toNat_lt.mp hmore
        have hfive : (5 : UInt32).toNat = 5 := rfl
        omega
      have hfilled := filled_received buf2 (by omega)
      have hloop : (extensionLoop buf2.length (.filled buf2)).Ends conn' (ExtensionsNoted conn' buf2) := by
        have h := extensionLoop_ends hfilled (le_of_eq (congrArg _ (filled_unread buf2))) (by omega) conn'
        rwa [filled_unread] at h
      apply hloop.bind
      · intro e conn'' herr
        refine ⟨herr.1, hheader, ?_⟩
        intro reply t heq
        obtain ⟨hlength', hbehind⟩ := VersionReply.behind heq
        have hsame : buf2 = reply.extensions.flatMap wordExtension :=
          (List.append_inj (hrest.symm.trans hbehind) (hlength.trans hlength'.symm)).1
        refine herr.2 reply.extensions ?_ hsame
        intro hnil
        rw [hnil, List.flatMap_nil, List.length_nil] at hlength'
        omega
      · intro _ conn'' hok
        obtain ⟨exts, -, hflat, rfl⟩ := hok
        obtain ⟨reply, hversion, hexts, hword⟩ := hreply exts (by rw [← hflat, hlength])
        rw [Proc.ends_pure]
        refine ⟨reply, ?_, hversion.symm, by rw [hexts, ← hfeatures]⟩
        change conn.unread = buf2 ++ conn'.unread at hrest
        rw [hword, ← hflat, hrest]
        exact (List.append_assoc _ _ _).symm
  · have hlen : len = 5 := UInt32.le_antisymm (UInt32.not_lt.mp hmore) hmin
    obtain ⟨reply, hversion, hexts, hword⟩ := hreply [] (by rw [hlen]; rfl)
    rw [Proc.ends_pure]
    refine ⟨reply, ?_, hversion.symm, by rw [hexts]; rfl⟩
    rw [hword]
    simp

theorem sftpInitReplyOk_ends {window : List UInt8} (hnine : window.length = 9) {conn : SftpConn}
    (hconn : conn.Delivers) :
    (sftpInitReplyOk (.filled window)).Ends conn (VersionTried conn (window ++ conn.unread)) := by
  obtain ⟨len, type, version, rfl⟩ := window_eq hnine
  have hfilled := filled_received _ (show (word32 len ++ type :: word32 version).length + 1 < 2 ^ 32 by
    rw [hnine]; decide)
  obtain ⟨buf₁, hlen, hbuf₁, hunread₁⟩ :=
    within_eq selfDelimiting_word32 decodes_uint32 hfilled rfl (filled_unread _)
  obtain ⟨buf₂, htype, hbuf₂, hunread₂⟩ :=
    within_eq selfDelimiting_word8 decodes_uint8 hbuf₁ rfl (t := word32 version) hunread₁
  obtain ⟨buf₃, hversion, -, -⟩ :=
    within_eq selfDelimiting_word32 decodes_uint32 hbuf₂ rfl (hunread₂.trans (List.append_nil _).symm)
  unfold sftpInitReplyOk
  rw [hlen, Proc.pure_bind]
  dsimp only
  by_cases hheader : 5 ≤ len ∧ len ≤ MAX_REPLY_LEN ∧ type = SSH_FXP_VERSION
  · obtain ⟨hmin, hmax, rfl⟩ := hheader
    have hfound : VersionHeader (word32 len ++ SSH_FXP_VERSION :: word32 version ++ conn.unread) :=
      (versionHeader_iff ..).mpr ⟨hmin, hmax, rfl⟩
    have hrange : ¬ (len < 5 ∨ len > MAX_REPLY_LEN) := not_or.mpr
      ⟨UInt32.not_lt.mpr hmin, UInt32.not_lt.mpr hmax⟩
    rw [if_neg hrange, htype, Proc.pure_bind]
    dsimp only
    rw [if_neg (not_not.mpr rfl), hversion, Proc.pure_bind]
    exact versionBody_ends hmin hmax hconn
  · have hnot : ¬ VersionHeader (word32 len ++ type :: word32 version ++ conn.unread) :=
      fun h => hheader ((versionHeader_iff ..).mp h)
    by_cases hrange : len < 5 ∨ len > MAX_REPLY_LEN
    · rw [if_pos hrange, Proc.ends_pure]
      exact ⟨hnot, rfl⟩
    · rw [if_neg hrange, htype, Proc.pure_bind]
      dsimp only
      obtain ⟨hmin, hmax⟩ := not_or.mp hrange
      rw [if_pos fun h => hheader ⟨UInt32.not_lt.mp hmin, UInt32.not_lt.mp hmax, h⟩, Proc.ends_pure]
      exact ⟨hnot, rfl⟩

theorem VersionReply.header (reply : VersionReply) (t : List UInt8) :
    VersionHeader (reply.word ++ t) := by
  obtain ⟨len, hmin, hmax, -, hword⟩ := reply.word_eq
  rw [hword, List.append_assoc]
  exact (versionHeader_iff ..).mpr ⟨hmin, hmax, rfl⟩

theorem VersionReply.nine_le (reply : VersionReply) : 9 ≤ reply.word.length := by
  obtain ⟨len, -, -, -, hword⟩ := reply.word_eq
  rw [hword]
  simp only [List.length_append, List.length_cons, word32_length]
  omega

theorem VersionFound.skip {features : Features} {c : UInt8} {s : List UInt8}
    (hheader : ¬ VersionHeader (c :: s)) {res : Except ℤ UInt32} {conn : SftpConn}
    (h : VersionFound features s res conn) : VersionFound features (c :: s) res conn := by
  cases res with
  | ok version =>
    obtain ⟨rubbish, reply, hs, hversion, hfeatures, hclean⟩ := h
    refine ⟨c :: rubbish, reply, by rw [hs]; rfl, hversion, hfeatures, ?_⟩
    intro k hk
    cases k with
    | zero => exact hheader
    | succ k => exact hclean k (Nat.lt_of_succ_lt_succ hk)
  | error e =>
    refine ⟨h.1, ?_⟩
    intro rubbish reply t hs
    cases rubbish with
    | nil => exact absurd (hs ▸ reply.header t) hheader
    | cons b rubbish =>
      obtain ⟨k, hk, hat⟩ := h.2 rubbish reply t (List.cons.inj hs).2
      exact ⟨k + 1, Nat.succ_lt_succ hk, hat⟩

theorem VersionFound.short {features : Features} {s : List UInt8} {conn : SftpConn}
    (h : s.length < 9 ∨ s.length = 9 ∧ ¬ VersionHeader s) :
    VersionFound features s (.error (-1)) conn := by
  refine ⟨rfl, ?_⟩
  intro rubbish reply t hs
  have hlen := congrArg List.length hs
  have hnine := reply.nine_le
  simp only [List.length_append] at hlen
  rcases h with h | ⟨h, hheader⟩
  · omega
  · obtain rfl := List.eq_nil_of_length_eq_zero (show rubbish.length = 0 by omega)
    exact absurd (hs ▸ reply.header t) hheader

theorem findLoop_ends {limit : ℕ} {window : List UInt8} (hnine : window.length = 9)
    {conn : SftpConn} (hconn : conn.Delivers) (hlimit : conn.unread.length < limit) :
    (findLoop limit window).Ends conn (VersionFound conn.features (window ++ conn.unread)) := by
  induction limit generalizing window conn with
  | zero => cases hlimit
  | succ limit ih =>
    apply (sftpInitReplyOk_ends hnine hconn).bind
    · intro e conn' herr
      obtain ⟨he, hheader, hnone⟩ := herr
      refine ⟨he, ?_⟩
      intro rubbish reply t hs
      cases rubbish with
      | nil => exact absurd hs (hnone reply t)
      | cons b rubbish => exact ⟨0, Nat.succ_pos _, hheader⟩
    · intro found conn' hok
      cases found with
      | some version =>
        obtain ⟨reply, hs, hversion, hfeatures⟩ := hok
        rw [Proc.ends_pure]
        exact ⟨[], reply, hs, hversion, hfeatures, fun k hk => by cases hk⟩
      | none =>
        obtain ⟨hheader, rfl⟩ := hok
        apply (decodes_doRead 1 conn' ⟨hconn, rfl⟩).bind
        · intro e conn'' herr
          obtain ⟨-, rfl, hnone⟩ := herr
          have hend : conn'.unread = [] := by
            by_contra hne
            obtain ⟨b, bs, hb⟩ := List.exists_cons_of_ne_nil hne
            exact hnone [b] [b] ⟨rfl, rfl⟩ ⟨bs, hb.symm⟩
          rw [hend, List.append_nil] at hheader ⊢
          exact VersionFound.short (Or.inr ⟨hnine, hheader⟩)
        · intro _ conn'' hok
          obtain ⟨⟨hconn'', hfeatures⟩, _, ⟨hone, rfl⟩, hrest⟩ := hok
          obtain ⟨b, rfl⟩ := List.length_eq_one_iff.mp hone
          change conn'.unread = [b] ++ conn''.unread at hrest
          obtain ⟨c, window, rfl⟩ := List.exists_cons_of_length_eq_add_one hnine
          have hlength := congrArg List.length hrest
          rw [List.length_append, List.length_singleton] at hlength
          have hnext : (window ++ [b]).length = 9 := by
            rw [List.length_append, List.length_singleton]
            exact hnine
          apply (ih hnext hconn'' (by omega)).mono
          intro res conn₁ hres
          rw [hfeatures, List.append_assoc, ← hrest] at hres
          exact hres.skip hheader

/-- `sftp_find_init_reply` always comes to an end. It skips whatever comes before the first place
that looks like a version reply, in whatever pieces it arrives. It returns 0 exactly when a
version reply of the protocol stands there, and then has its version and the features it tells. -/
theorem sftpFindInitReply_finds {conn : SftpConn} (hconn : conn.Delivers) :
    ∃ res conn', sftpFindInitReply conn = .ok (res, conn') ∧
      VersionFound conn.features conn.unread res conn' := by
  apply (decodes_doRead 9 conn ⟨hconn, rfl⟩).bind
  · intro e conn' herr
    obtain ⟨-, rfl, hnone⟩ := herr
    apply VersionFound.short
    left
    by_contra hlong
    refine hnone (conn.unread.take 9) _ ⟨?_, rfl⟩ (List.take_prefix 9 conn.unread)
    rw [List.length_take]
    omega
  · intro _ conn' hok
    obtain ⟨⟨hconn', hfeatures⟩, window, ⟨hnine, rfl⟩, hrest⟩ := hok
    change conn.unread = window ++ conn'.unread at hrest
    rw [Proc.ends_read_bind, hrest, ← hfeatures]
    exact findLoop_ends hnine hconn' (Nat.lt_succ_self _)

theorem sftpFindInitReply_finds_three :
    ∃ conn', VersionFound {} [104, 105, 10, 0, 0, 0, 5, 2, 0, 0, 0, 3] (.ok 3) conn' := by
  obtain ⟨res, conn', hrun, hfound⟩ := sftpFindInitReply_finds
    (show SftpConn.Delivers ⟨[[104, 105], [10, 0, 0, 0], [5, 2, 0, 0, 0, 3]], {}⟩ by decide)
  obtain ⟨rfl, rfl⟩ := Prod.mk.inj (Except.ok.inj hrun)
  exact ⟨_, hfound⟩

end Version

end Defuse.Sshfs
