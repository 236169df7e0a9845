import Defuse.Proofs.SftpFields

/-! The attribute blocks and the directory listings of SFTP replies: `buf_get_attrs` and
`buf_get_entries` take exactly what the protocol describes. -/

namespace Defuse.Sshfs

open CSem

/-- An attribute block of the protocol. A field whose flag is not set has the value that
`buf_get_attrs` takes for it. -/
structure WireAttrs extends SftpAttrs where
  extended : List (List UInt8 × List UInt8)
  size_unset : flags &&& SSH_FILEXFER_ATTR_SIZE = 0 → size = 0
  ids_unset : flags &&& SSH_FILEXFER_ATTR_UIDGID = 0 → uid = 0 ∧ gid = 0
  mode_unset : flags &&& SSH_FILEXFER_ATTR_PERMISSIONS = 0 → mode = defaultMode
  times_unset : flags &&& SSH_FILEXFER_ATTR_ACMODTIME = 0 → atime = 0 ∧ mtime = 0
  extended_unset : flags &&& SSH_FILEXFER_ATTR_EXTENDED = 0 → extended = []
  extended_lt : extended.length < 2 ^ 32
  extension_lt : ∀ ext ∈ extended, ext.1.length < 2 ^ 32 ∧ ext.2.length < 2 ^ 32

def wordExtension (ext : List UInt8 × List UInt8) : List UInt8 := wordData ext.1 ++ wordData ext.2

/-- The block as it stands in a message. -/
def WireAttrs.word (attrs : WireAttrs) : List UInt8 :=
  word32 attrs.flags ++
  ((if attrs.flags &&& SSH_FILEXFER_ATTR_SIZE ≠ 0 then word64 attrs.size else []) ++
  ((if attrs.flags &&& SSH_FILEXFER_ATTR_UIDGID ≠ 0 then word32 attrs.uid ++ word32 attrs.gid
    else []) ++
  ((if attrs.flags &&& SSH_FILEXFER_ATTR_PERMISSIONS ≠ 0 then word32 attrs.mode else []) ++
  ((if attrs.flags &&& SSH_FILEXFER_ATTR_ACMODTIME ≠ 0 then word32 attrs.atime ++ word32 attrs.mtime
    else []) ++
  (if attrs.flags &&& SSH_FILEXFER_ATTR_EXTENDED ≠ 0 then
    beBytes 4 attrs.extended.length ++ attrs.extended.flatMap wordExtension else [])))))

section Reading

def IsPair (val : UInt32 × UInt32) (w : List UInt8) : Prop := w = word32 val.1 ++ word32 val.2

theorem isPair_iff (val : UInt32 × UInt32) (w : List UInt8) :
    thenWord (fun val1 w => w = word32 val1) (fun val1 =>
      thenWord (fun val2 w => w = word32 val2) fun val2 => noWord (val1, val2)) val w ↔
      IsPair val w := by
  constructor
  · intro h
    obtain ⟨val1, u, v, rfl, ⟨val2, u', v', rfl, ⟨rfl, rfl⟩, rfl⟩, rfl⟩ := h
    rw [List.append_nil]
    rfl
  · intro h
    exact ⟨val.1, _, _, rfl, ⟨val.2, _, [], rfl, ⟨rfl, rfl⟩, rfl⟩, by rw [h, List.append_nil]⟩

theorem selfDelimiting_pair : SelfDelimiting IsPair :=
  (selfDelimiting_word32.thenWord fun _ =>
    selfDelimiting_word32.thenWord fun _ => selfDelimiting_noWord _).of_imp
    fun val w => (isPair_iff val w).mpr

theorem decodes_pair : Decodes message (· = -1) bufGetPair IsPair :=
  (decodes_uint32.bind selfDelimiting_word32 fun _ =>
    decodes_uint32.bind selfDelimiting_word32 fun _ => decodes_pure _).congr isPair_iff

/-- The words of an extension, whose name and value are not kept. -/
def IsExtension (_ : Unit) (w : List UInt8) : Prop :=
  ∃ ext : List UInt8 × List UInt8,
    ext.1.length < 2 ^ 32 ∧ ext.2.length < 2 ^ 32 ∧ w = wordExtension ext

theorem decodes_extension : Decodes message (· = -1) skipExtension IsExtension := by
  apply (decodes_data.bind selfDelimiting_ofData fun _ =>
    decodes_data.bind selfDelimiting_ofData fun _ => decodes_pure ()).congr
  intro val w
  constructor
  · intro h
    obtain ⟨_, u, v, ⟨name, -, hname, rfl⟩, ⟨_, u', v', ⟨value, -, hvalue, rfl⟩, ⟨-, rfl⟩, rfl⟩, rfl⟩ := h
    exact ⟨(name, value), hname, hvalue, by rw [List.append_nil]; rfl⟩
  · intro h
    obtain ⟨ext, hname, hvalue, rfl⟩ := h
    exact ⟨_, _, _, ⟨ext.1, rfl, hname, rfl⟩,
      ⟨_, _, [], ⟨ext.2, rfl, hvalue, rfl⟩, ⟨rfl, rfl⟩, rfl⟩, by rw [List.append_nil]; rfl⟩

theorem selfDelimiting_extension : SelfDelimiting IsExtension := by
  intro _ _ v w hv hw r s heq
  obtain ⟨ext, hname, hvalue, rfl⟩ := hv
  obtain ⟨ext', hname', hvalue', rfl⟩ := hw
  rw [wordExtension, wordExtension, List.append_assoc, List.append_assoc] at heq
  have hrest := (selfDelimiting_data ⟨hname, rfl⟩ ⟨hname', rfl⟩ heq).2
  exact ⟨rfl, (selfDelimiting_data ⟨hvalue, rfl⟩ ⟨hvalue', rfl⟩ hrest).2⟩

/-- Extensions behind their number. -/
def IsExtensions (_ : Unit) (w : List UInt8) : Prop :=
  ∃ exts : List (List UInt8 × List UInt8), exts.length < 2 ^ 32 ∧
    (∀ ext ∈ exts, ext.1.length < 2 ^ 32 ∧ ext.2.length < 2 ^ 32) ∧
    w = beBytes 4 exts.length ++ exts.flatMap wordExtension

theorem words_extension {n : ℕ} {w : List UInt8} :
    (∃ units, words IsExtension n units w) ↔
      ∃ exts : List (List UInt8 × List UInt8), exts.length = n ∧
        (∀ ext ∈ exts, ext.1.length < 2 ^ 32 ∧ ext.2.length < 2 ^ 32) ∧
        w = exts.flatMap wordExtension := by
  constructor
  · intro h
    obtain ⟨units, hlen, ws, hws, rfl⟩ := h
    induction hws generalizing n with
    | nil => exact ⟨[], hlen, by simp, rfl⟩
    | cons hw _ ih =>
      obtain ⟨exts, hexts, hlt, hflat⟩ := ih rfl
      obtain ⟨ext, hname, hvalue, rfl⟩ := hw
      refine ⟨ext :: exts, by rw [← hlen, List.length_cons, hexts, List.length_cons], ?_, ?_⟩
      · intro e he
        rcases List.mem_cons.mp he with rfl | he
        · exact ⟨hname, hvalue⟩
        · exact hlt e he
      · rw [List.flatten_cons, hflat, List.flatMap_cons]
  · intro h
    obtain ⟨exts, hlen, hlt, rfl⟩ := h
    refine ⟨exts.map fun _ => (), by rw [List.length_map, hlen], exts.map wordExtension, ?_, ?_⟩
    · rw [List.forall₂_map_left_iff, List.forall₂_map_right_iff]
      apply List.forall₂_same.mpr
      intro ext hext
      exact ⟨ext, (hlt ext hext).1, (hlt ext hext).2, rfl⟩
    · rw [List.flatMap]

theorem isExtensions_iff (val : Unit) (w : List UInt8) :
    thenWord (fun extcount w => w = word32 extcount) (fun extcount =>
      thenWord (words IsExtension extcount.toNat) fun _ => noWord ()) val w ↔
      IsExtensions val w := by
  constructor
  · intro h
    obtain ⟨extcount, u, v, rfl, ⟨units, u', v', hwords, ⟨-, rfl⟩, rfl⟩, rfl⟩ := h
    obtain ⟨exts, hlen, hlt, rfl⟩ := words_extension.mp ⟨units, hwords⟩
    refine ⟨exts, hlen ▸ extcount.toNat_lt, hlt, ?_⟩
    rw [List.append_nil, hlen]
    rfl
  · intro h
    obtain ⟨exts, hcount, hlt, rfl⟩ := h
    have hnat : (UInt32.ofNat exts.length).toNat = exts.length := by
      rw [UInt32.toNat_ofNat', Nat.mod_eq_of_lt hcount]
    obtain ⟨units, hwords⟩ := words_extension.mpr ⟨exts, hnat.symm, hlt, rfl⟩
    refine ⟨UInt32.ofNat exts.length, _, _, rfl, ⟨units, _, [], hwords, ⟨rfl, rfl⟩, rfl⟩, ?_⟩
    rw [List.append_nil, word32, hnat]

theorem selfDelimiting_extensions : SelfDelimiting IsExtensions :=
  (selfDelimiting_word32.thenWord fun extcount =>
    (selfDelimiting_extension.words extcount.toNat).thenWord fun _ =>
      selfDelimiting_noWord ()).of_imp fun val w => (isExtensions_iff val w).mpr

theorem decodes_extensions : Decodes message (· = -1) skipExtensions IsExtensions :=
  (decodes_uint32.bind selfDelimiting_word32 fun extcount =>
    (decodes_extension.times selfDelimiting_extension extcount.toNat).bind
      (selfDelimiting_extension.words _) fun _ => decodes_pure ()).congr isExtensions_iff

def IsAttrs (attrs : SftpAttrs) (w : List UInt8) : Prop :=
  ∃ wire : WireAttrs, wire.toSftpAttrs = attrs ∧ w = wire.word

/-- The words of the fields in the order in which `buf_get_attrs` reads them. -/
def fieldWords : SftpAttrs → List UInt8 → Prop :=
  thenWord (fun flags w => w = word32 flags) fun flags =>
  thenWord (wordIf (flags &&& SSH_FILEXFER_ATTR_SIZE ≠ 0) (fun size w => w = word64 size) 0) fun size =>
  thenWord (wordIf (flags &&& SSH_FILEXFER_ATTR_UIDGID ≠ 0) IsPair (0, 0)) fun ids =>
  thenWord (wordIf (flags &&& SSH_FILEXFER_ATTR_PERMISSIONS ≠ 0) (fun mode w => w = word32 mode)
    defaultMode) fun mode =>
  thenWord (wordIf (flags &&& SSH_FILEXFER_ATTR_ACMODTIME ≠ 0) IsPair (0, 0)) fun acmod =>
  thenWord (wordIf (flags &&& SSH_FILEXFER_ATTR_EXTENDED ≠ 0) IsExtensions ()) fun _ =>
  noWord ⟨flags, size, ids.1, ids.2, mode, acmod.1, acmod.2⟩

theorem selfDelimiting_fields : SelfDelimiting fieldWords := by
  apply selfDelimiting_word32.thenWord
  intro flags
  apply (selfDelimiting_word64.wordIf _ _).thenWord
  intro size
  apply (selfDelimiting_pair.wordIf _ _).thenWord
  intro ids
  apply (selfDelimiting_word32.wordIf _ _).thenWord
  intro mode
  apply (selfDelimiting_pair.wordIf _ _).thenWord
  intro acmod
  apply (selfDelimiting_extensions.wordIf _ _).thenWord
  intro _
  exact selfDelimiting_noWord _

theorem decodes_fields : Decodes message (· = -1) bufGetFields fieldWords := by
  apply decodes_uint32.bind selfDelimiting_word32
  intro flags
  apply (decodes_uint64.readIf _ _).bind (selfDelimiting_word64.wordIf _ _)
  intro size
  apply (decodes_pair.readIf _ _).bind (selfDelimiting_pair.wordIf _ _)
  intro ids
  apply (decodes_uint32.readIf _ _).bind (selfDelimiting_word32.wordIf _ _)
  intro mode
  apply (decodes_pair.readIf _ _).bind (selfDelimiting_pair.wordIf _ _)
  intro acmod
  apply (decodes_extensions.readIf _ _).bind (selfDelimiting_extensions.wordIf _ _)
  intro _
  exact decodes_pure _

theorem wordIf_iff {α : Type} {c : Prop} [Decidable c] {enc : α → List UInt8} {d a : α}
    {w : List UInt8} :
    wordIf c (fun a w => w = enc a) d a w ↔ (¬ c → a = d) ∧ w = if c then enc a else [] := by
  unfold wordIf
  split_ifs with h
  · simp [h]
  · simp [h]

theorem extensionsIf_iff {c : Prop} [Decidable c] {w : List UInt8} :
    wordIf c IsExtensions () () w ↔
      ∃ exts : List (List UInt8 × List UInt8), (¬ c → exts = []) ∧ exts.length < 2 ^ 32 ∧
        (∀ ext ∈ exts, ext.1.length < 2 ^ 32 ∧ ext.2.length < 2 ^ 32) ∧
        w = if c then beBytes 4 exts.length ++ exts.flatMap wordExtension else [] := by
  unfold wordIf IsExtensions
  split_ifs with h
  · simp [h]
  · simp only [h, false_and, not_false_eq_true, true_and, false_or, forall_const]
    constructor
    · intro hw
      exact ⟨[], rfl, by decide, by simp, hw⟩
    · intro hexts
      obtain ⟨exts, -, -, -, hw⟩ := hexts
      exact hw

theorem fieldWords_iff (attrs : SftpAttrs) (w : List UInt8) :
    fieldWords attrs w ↔ IsAttrs attrs w := by
  constructor
  · intro h
    obtain ⟨flags, _, _, rfl, ⟨size, _, _, hsize, ⟨ids, _, _, hids, ⟨mode, _, _, hmode,
      ⟨acmod, _, _, hacmod, ⟨_, _, _, hexts, ⟨rfl, rfl⟩, rfl⟩, rfl⟩, rfl⟩, rfl⟩, rfl⟩, rfl⟩ := h
    obtain ⟨hsize', rfl⟩ := wordIf_iff.mp hsize
    obtain ⟨hids', rfl⟩ := wordIf_iff.mp hids
    obtain ⟨hmode', rfl⟩ := wordIf_iff.mp hmode
    obtain ⟨hacmod', rfl⟩ := wordIf_iff.mp hacmod
    obtain ⟨exts, hunset, hcount, hlt, rfl⟩ := extensionsIf_iff.mp hexts
    refine ⟨⟨⟨flags, size, ids.1, ids.2, mode, acmod.1, acmod.2⟩, exts, ?_, ?_, ?_, ?_, ?_, hcount,
      hlt⟩, rfl, by rw [List.append_nil]; rfl⟩
    · exact fun h => hsize' (not_not.mpr h)
    · exact fun h => Prod.ext_iff.mp (hids' (not_not.mpr h))
    · exact fun h => hmode' (not_not.mpr h)
    · exact fun h => Prod.ext_iff.mp (hacmod' (not_not.mpr h))
    · exact fun h => hunset (not_not.mpr h)
  · intro h
    obtain ⟨wire, rfl, rfl⟩ := h
    refine ⟨wire.flags, _, _, rfl, ⟨wire.size, _, _, wordIf_iff.mpr ⟨?_, rfl⟩,
      ⟨(wire.uid, wire.gid), _, _, wordIf_iff.mpr ⟨?_, rfl⟩,
      ⟨wire.mode, _, _, wordIf_iff.mpr ⟨?_, rfl⟩,
      ⟨(wire.atime, wire.mtime), _, _, wordIf_iff.mpr ⟨?_, rfl⟩,
      ⟨(), _, [], extensionsIf_iff.mpr ⟨wire.extended, ?_, wire.extended_lt, wire.extension_lt, rfl⟩,
      ⟨rfl, rfl⟩, (List.append_nil _).symm⟩, rfl⟩, rfl⟩, rfl⟩, rfl⟩, rfl⟩
    · exact fun h => wire.size_unset (not_not.mp h)
    · exact fun h => Prod.ext_iff.mpr (wire.ids_unset (not_not.mp h))
    · exact fun h => wire.mode_unset (not_not.mp h)
    · exact fun h => Prod.ext_iff.mpr (wire.times_unset (not_not.mp h))
    · exact fun h => wire.extended_unset (not_not.mp h)

theorem selfDelimiting_attrs : SelfDelimiting IsAttrs :=
  selfDelimiting_fields.of_imp fun attrs w => (fieldWords_iff attrs w).mpr

theorem decodes_attrs : Decodes message (· = - EIO) (orFail bufGetFields (- EIO)) IsAttrs :=
  (decodes_fields.congr fieldWords_iff).orFail (- EIO)

end Reading

section Attrs

variable (ids : SftpIds)

def SftpIds.statOf (attrs : SftpAttrs) : Option SftpStat :=
  (ids.localIds attrs.uid attrs.gid).map fun owner => ids.stat attrs owner.1 owner.2

/-- How `buf_get_attrs` may end: with the stat of the block that is there, and the errors tell
whether there is none or its ids have no place. -/
def AttrsRead (left : List UInt8) : Except ℤ (SftpStat × UInt32) → SftpBuffer → Prop
  | .ok (stat, flags), buf => ∃ wire : WireAttrs, left = wire.word ++ buf.unread ∧
      ids.statOf wire.toSftpAttrs = some stat ∧ wire.flags = flags
  | .error e, _ => (e = - EIO ∧ ∀ wire : WireAttrs, ¬ wire.word <+: left) ∨
      (e = -EPERM ∧ ∃ wire : WireAttrs, wire.word <+: left ∧ ids.statOf wire.toSftpAttrs = none)

theorem bufGetAttrs_ends {buf : SftpBuffer} (hbuf : buf.Received) :
    (bufGetAttrs ids).Ends buf fun res buf' => buf'.Received ∧ AttrsRead ids buf.unread res buf' := by
  apply (decodes_attrs buf hbuf).bind
  · intro e buf' herr
    obtain ⟨hbuf', he, hnone⟩ := herr
    refine ⟨hbuf', Or.inl ⟨he, ?_⟩⟩
    intro wire
    exact hnone _ _ ⟨wire, rfl, rfl⟩
  · intro attrs buf' hok
    obtain ⟨hbuf', _, ⟨wire, rfl, rfl⟩, hrest⟩ := hok
    cases howner : ids.localIds wire.uid wire.gid with
    | none =>
      rw [Proc.ends_fail]
      exact ⟨hbuf', Or.inr ⟨rfl, wire, ⟨_, hrest.symm⟩, by rw [SftpIds.statOf, howner]; rfl⟩⟩
    | some owner =>
      rw [Proc.ends_pure]
      exact ⟨hbuf', wire, hrest, by rw [SftpIds.statOf, howner]; rfl, rfl⟩

/-- `buf_get_attrs` never reads outside the reply. It returns a stat exactly when an attribute
block of the protocol stands at the place, the one it describes, and goes on behind the block. -/
theorem bufGetAttrs_iff {buf : SftpBuffer} (hbuf : buf.Received) :
    ∃ res buf', bufGetAttrs ids buf = .ok (res, buf') ∧ buf'.Received ∧
      (∀ stat flags, res = .ok (stat, flags) ↔ ∃ wire : WireAttrs,
        buf.unread = wire.word ++ buf'.unread ∧ ids.statOf wire.toSftpAttrs = some stat ∧
        wire.flags = flags) ∧
      (res = .error (- EIO) ↔ ∀ wire : WireAttrs, ¬ wire.word <+: buf.unread) ∧
      (res = .error (-EPERM) ↔ ∃ wire : WireAttrs, wire.word <+: buf.unread ∧
        ids.statOf wire.toSftpAttrs = none) := by
  obtain ⟨res, buf', hrun, hbuf', hread⟩ := bufGetAttrs_ends ids hbuf
  -- at most one block stands at a place
  have hone {wire wire' : WireAttrs} (h : wire.word <+: buf.unread) (h' : wire'.word <+: buf.unread) :
      wire.toSftpAttrs = wire'.toSftpAttrs := by
    obtain ⟨t, ht⟩ := h
    obtain ⟨t', ht'⟩ := h'
    exact (selfDelimiting_attrs ⟨wire, rfl, rfl⟩ ⟨wire', rfl, rfl⟩ (ht.trans ht'.symm)).1
  have heio : (- EIO : ℤ) ≠ -EPERM := by decide
  refine ⟨res, buf', hrun, hbuf', ?_⟩
  cases res with
  | error e =>
    refine ⟨?_, ?_⟩
    · intro stat flags
      refine ⟨nofun, ?_⟩
      intro hstat
      obtain ⟨wire, hwire, hsome, -⟩ := hstat
      rcases hread with ⟨-, hnone⟩ | ⟨-, wire', hwire', hunmapped⟩
      · exact absurd ⟨_, hwire.symm⟩ (hnone wire)
      · rw [hone ⟨_, hwire.symm⟩ hwire', hunmapped] at hsome
        cases hsome
    · rcases hread with ⟨rfl, hnone⟩ | ⟨rfl, hunmapped⟩
      · refine ⟨iff_of_true rfl hnone, iff_of_false (fun h => heio (Except.error.inj h)) ?_⟩
        intro hsome
        obtain ⟨wire, hwire, -⟩ := hsome
        exact hnone wire hwire
      · refine ⟨iff_of_false (fun h => heio (Except.error.inj h).symm) ?_, iff_of_true rfl hunmapped⟩
        intro hnone
        obtain ⟨wire, hwire, -⟩ := hunmapped
        exact hnone wire hwire
  | ok r =>
    obtain ⟨stat, flags⟩ := r
    obtain ⟨wire, hwire, hsome, hflags⟩ := hread
    refine ⟨?_, iff_of_false (by simp) fun hnone => hnone wire ⟨_, hwire.symm⟩,
      iff_of_false (by simp) ?_⟩
    · intro stat' flags'
      constructor
      · intro h
        cases h
        exact ⟨wire, hwire, hsome, hflags⟩
      · intro h
        obtain ⟨wire', hwire', hsome', hflags'⟩ := h
        have hsame := hone ⟨_, hwire.symm⟩ ⟨_, hwire'.symm⟩
        rw [hsame, hsome'] at hsome
        rw [hsame] at hflags
        rw [← hflags, ← hflags', Option.some.inj hsome]
    · intro hunmapped
      obtain ⟨wire', hwire', hnone⟩ := hunmapped
      rw [hone ⟨_, hwire.symm⟩ hwire', hnone] at hsome
      cases hsome

theorem bufGetAttrs_iff_size :
    ∃ (wire : WireAttrs) (stat : SftpStat), wire.word = [0, 0, 0, 1, 0, 0, 0, 0, 0, 0, 0, 5] ∧
      SftpIds.mounted.statOf wire.toSftpAttrs = some stat ∧ stat.stSize = 5 := by
  obtain ⟨res, buf', hrun, -, hok, -, -⟩ := bufGetAttrs_iff .mounted
    (filled_received [0, 0, 0, 1, 0, 0, 0, 0, 0, 0, 0, 5] (by decide))
  obtain ⟨rfl, rfl⟩ := Prod.mk.inj (Except.ok.inj hrun)
  obtain ⟨wire, hwire, hstat, -⟩ := (hok _ _).mp rfl
  refine ⟨wire, _, ?_, hstat, rfl⟩
  rw [filled_unread] at hwire
  exact (hwire.trans (List.append_nil _)).symm

def IsStat (res : SftpStat × UInt32) (w : List UInt8) : Prop :=
  ∃ wire : WireAttrs, ids.statOf wire.toSftpAttrs = some res.1 ∧ wire.flags = res.2 ∧ w = wire.word

def IsReadError (e : ℤ) : Prop := e = - EIO ∨ e = -EPERM

theorem selfDelimiting_stat : SelfDelimiting (IsStat ids) := by
  intro a b v w hv hw r s heq
  obtain ⟨wire, hstat, hflags, rfl⟩ := hv
  obtain ⟨wire', hstat', hflags', rfl⟩ := hw
  obtain ⟨hsame, hrest⟩ := selfDelimiting_attrs ⟨wire, rfl, rfl⟩ ⟨wire', rfl, rfl⟩ heq
  rw [hsame, hstat'] at hstat
  rw [hsame] at hflags
  exact ⟨Prod.ext (Option.some.inj hstat).symm (hflags.symm.trans hflags'), hrest⟩

theorem decodes_stat : Decodes message IsReadError (bufGetAttrs ids) (IsStat ids) := by
  intro buf hbuf
  apply (bufGetAttrs_ends ids hbuf).mono
  intro res buf' hres
  obtain ⟨hbuf', hread⟩ := hres
  cases res with
  | ok r =>
    obtain ⟨wire, hrest, hstat, hflags⟩ := hread
    exact ⟨hbuf', wire.word, ⟨wire, hstat, hflags, rfl⟩, hrest⟩
  | error e =>
    rcases hread with ⟨rfl, hnone⟩ | ⟨rfl, wire, hwire, hunmapped⟩
    · refine ⟨hbuf', Or.inl rfl, ?_⟩
      intro r w hw hstart
      obtain ⟨wire, -, -, rfl⟩ := hw
      exact hnone wire hstart
    · refine ⟨hbuf', Or.inr rfl, ?_⟩
      intro r w hw hstart
      obtain ⟨wire', hstat, -, rfl⟩ := hw
      obtain ⟨t, ht⟩ := hwire
      obtain ⟨t', ht'⟩ := hstart
      have hsame := (selfDelimiting_attrs ⟨wire, rfl, rfl⟩ ⟨wire', rfl, rfl⟩ (ht.trans ht'.symm)).1
      rw [← hsame, hunmapped] at hstat
      cases hstat

end Attrs

section Entries

variable (ids : SftpIds)

/-- An entry of a directory listing of the protocol. -/
structure WireEntry where
  name : List UInt8
  longname : List UInt8
  attrs : WireAttrs
  name_lt : name.length < 2 ^ 32
  longname_lt : longname.length < 2 ^ 32

def WireEntry.word (entry : WireEntry) : List UInt8 :=
  wordData entry.name ++ (wordData entry.longname ++ entry.attrs.word)

def SftpIds.shown (stat : SftpStat) : SftpStat :=
  if ids.followSymlinks ∧ stat.stMode &&& S_IFMT = S_IFLNK then { stat with stMode := 0 } else stat

/-- What an entry gives to `filler`, unless its ids have no place on this side. -/
def SftpIds.fills (entry : WireEntry) : Option Filled :=
  (ids.statOf entry.attrs.toSftpAttrs).map fun stat =>
    ⟨entry.name.takeWhile (· ≠ 0), ids.shown stat⟩

def IsEntry (filled : Filled) (w : List UInt8) : Prop :=
  ∃ entry : WireEntry, ids.fills entry = some filled ∧ w = entry.word

theorem isEntry_iff (filled : Filled) (w : List UInt8) :
    thenWord (fun str w => ∃ bytes, str = stringCells bytes ∧ IsData bytes w) (fun name =>
      thenWord (fun str w => ∃ bytes, str = stringCells bytes ∧ IsData bytes w) fun _ =>
      thenWord (IsStat ids) fun r =>
      noWord ⟨(name.text.toOption).getD [], ids.shown r.1⟩) filled w ↔ IsEntry ids filled w := by
  constructor
  · intro h
    obtain ⟨_, _, _, ⟨name, rfl, hname, rfl⟩, ⟨_, _, _, ⟨longname, rfl, hlongname, rfl⟩,
      ⟨r, _, _, ⟨wire, hstat, -, rfl⟩, ⟨rfl, rfl⟩, rfl⟩, rfl⟩, rfl⟩ := h
    refine ⟨⟨name, longname, wire, hname, hlongname⟩, ?_, by rw [List.append_nil]; rfl⟩
    rw [SftpIds.fills, hstat, text_stringCells]
    rfl
  · intro h
    obtain ⟨entry, hfills, rfl⟩ := h
    obtain ⟨stat, hstat, rfl⟩ := Option.map_eq_some_iff.mp hfills
    refine ⟨_, _, _, ⟨entry.name, rfl, entry.name_lt, rfl⟩, ⟨_, _, _,
      ⟨entry.longname, rfl, entry.longname_lt, rfl⟩, ⟨(stat, entry.attrs.flags), _, [],
      ⟨entry.attrs, hstat, rfl, rfl⟩, ⟨?_, rfl⟩, (List.append_nil _).symm⟩, rfl⟩, rfl⟩
    rw [text_stringCells]
    rfl

theorem decodes_entry : Decodes message IsReadError (bufGetEntry ids) (IsEntry ids) := by
  have heio (e : ℤ) (he : e = - EIO) : IsReadError e := Or.inl he
  -- the failure of `buf_get_string` is returned as it is, and reads as `EPERM`
  have hfailed (e : ℤ) (he : e = -1) : IsReadError e := Or.inr he
  refine Decodes.congr ?_ (isEntry_iff ids)
  apply ((decodes_string.orFail (- EIO)).mono heio).bind_of selfDelimiting_string
  intro name w hname
  obtain ⟨bytes, rfl, -⟩ := hname
  apply (decodes_string.mono hfailed).bind selfDelimiting_string
  intro longname
  apply (decodes_stat ids).bind (selfDelimiting_stat ids)
  intro r
  rw [text_stringCells]
  exact decodes_pure _

/-- How the loop of `buf_get_entries` ends: it has filled in what stands at the beginning, up to
the number of entries or to the first place where there is none. -/
def EntriesRead (n : ℕ) (left : List UInt8) (err : ℤ) (filled : List Filled) (buf : SftpBuffer) :
    Prop :=
  ∃ (entries : List WireEntry) (tail : List UInt8),
    left = entries.flatMap WireEntry.word ++ tail ∧ entries.map ids.fills = filled.map some ∧
    ((err = 0 ∧ entries.length = n ∧ buf.unread = tail) ∨
      (IsReadError err ∧ entries.length < n ∧
        ∀ entry : WireEntry, (ids.fills entry).isSome → ¬ entry.word <+: tail))

theorem entriesLoop_reads (n : ℕ) {buf : SftpBuffer} (hbuf : buf.Received) :
    ∃ err filled buf', entriesLoop ids n buf = .ok (err, filled, buf') ∧ buf'.Received ∧
      EntriesRead ids n buf.unread err filled buf' := by
  induction n generalizing buf with
  | zero => exact ⟨0, [], buf, rfl, hbuf, [], buf.unread, rfl, rfl, Or.inl ⟨rfl, rfl, rfl⟩⟩
  | succ n ih =>
    obtain ⟨res, buf₁, hrun, hres⟩ := decodes_entry ids buf hbuf
    cases res with
    | error e =>
      obtain ⟨hbuf₁, he, hnone⟩ := hres
      refine ⟨e, [], buf₁, by rw [entriesLoop, hrun]; rfl, hbuf₁, [], buf.unread, rfl, rfl,
        Or.inr ⟨he, Nat.succ_pos n, ?_⟩⟩
      intro entry hentry
      obtain ⟨filled, hfilled⟩ := Option.isSome_iff_exists.mp hentry
      exact hnone filled entry.word ⟨entry, hfilled, rfl⟩
    | ok first =>
      obtain ⟨hbuf₁, _, ⟨entry, hfills, rfl⟩, hrest⟩ := hres
      obtain ⟨err, more, buf₂, hloop, hbuf₂, entries, tail, hleft, hmap, hend⟩ := ih hbuf₁
      change buf.unread = entry.word ++ buf₁.unread at hrest
      refine ⟨err, first :: more, buf₂, by rw [entriesLoop, hrun, ok_bind]; dsimp only; rw [hloop]; rfl,
        hbuf₂, entry :: entries, tail, ?_, ?_, ?_⟩
      · rw [hrest, hleft, List.flatMap_cons, List.append_assoc]
      · rw [List.map_cons, List.map_cons, hfills, hmap]
      · rw [List.length_cons, Nat.succ_inj, Nat.succ_lt_succ_iff]
        exact hend

/-- `buf_get_entries` never reads outside the reply. What it fills in are the entries at the
beginning of the listing, in their order. It returns 0 when these are all that the listing
announces, and an error when the next one is not an entry of the protocol or has ids without a
place. -/
theorem bufGetEntries_lists {buf : SftpBuffer} (hbuf : buf.Received) :
    ∃ err filled buf', bufGetEntries ids buf = .ok (err, filled, buf') ∧ buf'.Received ∧
      ((err = - EIO ∧ filled = [] ∧ buf.unread.length < 4) ∨
        ∃ (count : UInt32) (left : List UInt8), buf.unread = word32 count ++ left ∧
          EntriesRead ids count.toNat left err filled buf') := by
  obtain ⟨res, buf₁, hrun, hres⟩ := decodes_uint32 buf hbuf
  cases res with
  | error e =>
    obtain ⟨hbuf₁, -, hnone⟩ := hres
    refine ⟨- EIO, [], buf₁, by rw [bufGetEntries, hrun]; rfl, hbuf₁, Or.inl ⟨rfl, rfl, ?_⟩⟩
    by_contra hlong
    have hfour : (buf.unread.take 4).length = 4 := by
      rw [List.length_take]
      omega
    refine hnone (UInt32.ofNat (beNat (buf.unread.take 4))) _ rfl ?_
    rw [word32_beNat hfour]
    exact List.take_prefix 4 buf.unread
  | ok count =>
    obtain ⟨hbuf₁, _, rfl, hrest⟩ := hres
    obtain ⟨err, filled, buf₂, hloop, hbuf₂, hread⟩ := entriesLoop_reads ids count.toNat hbuf₁
    exact ⟨err, filled, buf₂, by rw [bufGetEntries, hrun, ok_bind]; exact hloop, hbuf₂,
      Or.inr ⟨count, _, hrest, hread⟩⟩

theorem bufGetEntries_lists_one :
    ∃ (count : UInt32) (left : List UInt8) (filled : List Filled) (buf' : SftpBuffer),
      [0, 0, 0, 1, 0, 0, 0, 1, 97, 0, 0, 0, 0, 0, 0, 0, 0] = word32 count ++ left ∧
      EntriesRead .mounted count.toNat left 0 filled buf' ∧ filled.map Filled.name = [[97]] := by
  obtain ⟨err, filled, buf', hrun, -, hread⟩ := bufGetEntries_lists .mounted
    (filled_received [0, 0, 0, 1, 0, 0, 0, 1, 97, 0, 0, 0, 0, 0, 0, 0, 0] (by decide))
  obtain ⟨rfl, hrest⟩ := Prod.mk.inj (Except.ok.inj hrun)
  obtain ⟨rfl, rfl⟩ := Prod.mk.inj hrest
  rw [filled_unread] at hread
  rcases hread with ⟨herr, -⟩ | ⟨count, left, hlisting, hentries⟩
  · exact absurd herr (by decide)
  · exact ⟨count, left, _, _, hlisting, hentries, rfl⟩

end Entries

end Defuse.Sshfs
