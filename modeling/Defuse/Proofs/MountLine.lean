import Defuse.Spec.MountsFile
import Defuse.Lib.Buffer

/-! A mount's way from the kernel module's options through `/proc/mounts` to `load_mount`. -/

namespace Defuse

open CSem

variable {B L mp generic text line v w : List UInt8} {loads : List UInt8 → Bool}

def IsValue (v : List UInt8) : Prop := v ≠ [] ∧ comma ∉ v ∧ 0 ∉ v

instance (v : List UInt8) : Decidable (IsValue v) := by
  unfold IsValue
  infer_instance

def Accepted (B L : List UInt8) : Prop :=
  ∃ data mode, 0 ∉ data ∧ parseOptions (some data) = some ⟨mode, B, L⟩

def ParsedOpts.Values (opts : ParsedOpts) : Prop :=
  (∀ v ∈ opts.backendPath, IsValue v) ∧ ∀ v ∈ opts.userLibraryPath, IsValue v

theorem isValue_drop {p : List UInt8} (hp : comma ∉ p ∧ 0 ∉ p) {n : ℕ} (hne : p.drop n ≠ []) :
    IsValue (p.drop n) :=
  ⟨hne, fun h => hp.1 (List.mem_of_mem_drop h), fun h => hp.2 (List.mem_of_mem_drop h)⟩

theorem matchToken_value {p : List UInt8} (hp : comma ∉ p ∧ 0 ∉ p)
    (h : matchToken p = .backend v ∨ matchToken p = .library v) : IsValue v := by
  unfold matchToken at h
  split_ifs at h with hm hb hl
  · split at h <;> simp at h
  · simp only [Token.backend.injEq, or_false] at h
    exact h ▸ isValue_drop hp hb.2
  · simp only [Token.library.injEq, false_or] at h
    exact h ▸ isValue_drop hp hl.2
  · simp at h

theorem parseOption_values {opts opts' : ParsedOpts} {p : List UInt8} (hp : comma ∉ p ∧ 0 ∉ p)
    (hopts : opts.Values) (h : parseOption opts p = some opts') : opts'.Values := by
  unfold parseOption at h
  split_ifs at h
  · exact Option.some.inj h ▸ hopts
  cases htok : matchToken p with
  | mode value =>
    rw [htok] at h
    obtain ⟨m, -, rfl⟩ := Option.map_eq_some_iff.mp h
    exact hopts
  | backend value =>
    rw [htok] at h
    obtain rfl := Option.some.inj h
    refine ⟨fun v hv => ?_, hopts.2⟩
    obtain rfl := Option.some.inj hv
    exact matchToken_value hp (Or.inl htok)
  | library value =>
    rw [htok] at h
    obtain rfl := Option.some.inj h
    refine ⟨hopts.1, fun v hv => ?_⟩
    obtain rfl := Option.some.inj hv
    exact matchToken_value hp (Or.inr htok)
  | err =>
    rw [htok] at h
    exact Option.some.inj h ▸ hopts

theorem parseLoop_values (ps : List (List UInt8)) (hps : ∀ p ∈ ps, comma ∉ p ∧ 0 ∉ p)
    {opts opts' : ParsedOpts} (hopts : opts.Values)
    (h : ps.foldlM parseOption opts = some opts') : opts'.Values := by
  induction ps generalizing opts with
  | nil => exact Option.some.inj h ▸ hopts
  | cons p ps ih =>
    rw [List.foldlM_cons] at h
    obtain ⟨mid, hmid, hrest⟩ := Option.bind_eq_some_iff.mp h
    have hvals := parseOption_values (hps p List.mem_cons_self) hopts hmid
    exact ih (fun q hq => hps q (List.mem_cons_of_mem p hq)) hvals hrest

theorem matchToken_backend (hv : v ≠ []) : matchToken (backendKey ++ v) = .backend v := by
  unfold matchToken
  rw [if_neg (by simp [modeKey, modeName, backendKey, backendName]),
    if_pos (by simp [hv]), List.drop_left]

theorem matchToken_library (hv : v ≠ []) : matchToken (libraryKey ++ v) = .library v := by
  unfold matchToken
  rw [if_neg (by simp [modeKey, modeName, libraryKey, libraryName]),
    if_neg (by simp [backendKey, backendName, libraryKey, libraryName]),
    if_pos (by simp [hv]), List.drop_left]

/-- The accepted pairs are all pairs of values. -/
theorem accepted_iff : Accepted B L ↔ IsValue B ∧ IsValue L := by
  constructor
  · rintro ⟨data, mode, h0, hparse⟩
    unfold parseOptions at hparse
    obtain ⟨opts, hloop, hparse⟩ := Option.bind_eq_some_iff.mp hparse
    obtain ⟨b, hb, hparse⟩ := Option.bind_eq_some_iff.mp hparse
    obtain ⟨l, hl, hparse⟩ := Option.bind_eq_some_iff.mp hparse
    obtain ⟨-, rfl, rfl⟩ := MountOpts.mk.inj (Option.some.inj hparse)
    have hps : ∀ p ∈ data.splitOn comma, comma ∉ p ∧ 0 ∉ p := fun p hp =>
      ⟨(mem_splitOn hp).1, fun h => h0 ((mem_splitOn hp).2 h)⟩
    obtain ⟨hvb, hvl⟩ := parseLoop_values _ hps ⟨by simp, by simp⟩ hloop
    exact ⟨hvb b hb, hvl l hl⟩
  · rintro ⟨⟨hBne, hBc, hB0⟩, hLne, hLc, hL0⟩
    refine ⟨backendKey ++ B ++ comma :: (libraryKey ++ L), DEFUSE_DEFAULT_MODE, ?_, ?_⟩
    · have hb : (0 : UInt8) ∉ backendKey := by decide
      have hl : (0 : UInt8) ∉ libraryKey := by decide
      simp [hb, hl, hB0, hL0, comma]
    · have hb : comma ∉ backendKey ++ B := by
        rw [List.mem_append, not_or]
        exact ⟨by decide, hBc⟩
      have hl : comma ∉ libraryKey ++ L := by
        rw [List.mem_append, not_or]
        exact ⟨by decide, hLc⟩
      have hbne : backendKey ++ B ≠ [] := List.append_ne_nil_of_right_ne_nil _ hBne
      have hlne : libraryKey ++ L ≠ [] := List.append_ne_nil_of_right_ne_nil _ hLne
      unfold parseOptions
      rw [Option.elim_some, List.splitOn_append_cons_self, List.splitOn_eq_singleton hb,
        List.splitOn_eq_singleton hl]
      simp [parseOption, hbne, hlne, matchToken_backend hBne, matchToken_library hLne]

/-- What `load_mounts_from_file` leaves after one call of `load_mount`. -/
def loadedAs (loads : List UInt8 → Bool) (mp B L : List UInt8) :
    Except LoadError (List MountPointData) :=
  match loadMount loads mp B L with
  | none => .error (.notLoaded mp B L)
  | some m => .ok [m]

theorem loadedAs_error {e : LoadError} (h : loadedAs loads mp B L = .error e) :
    e = .notLoaded mp B L := by
  unfold loadedAs at h
  split at h
  · exact (Except.error.inj h).symm
  · cases h

theorem loadedAs_inj {mp' B' L' : List UInt8} (h : loadedAs loads mp B L = loadedAs loads mp' B' L') :
    mp = mp' ∧ B = B' ∧ L = L' := by
  unfold loadedAs loadMount at h
  cases hL : loads L <;> cases hL' : loads L' <;> simp_all

def Survives (loads : List UInt8 → Bool) (mp generic : List UInt8) (opts : MountOpts) : Prop :=
  loadMountsFromFile loads (mountsLine mp generic opts ++ [newline]) =
    .ok (loadedAs loads mp opts.backendPath opts.userLibraryPath)

/-- No value that was read has a newline. -/
def NoNewline (r : Except LoadError (List MountPointData)) : Prop :=
  match r with
  | .ok mounts => ∀ m ∈ mounts, newline ∉ m.backendPath ∧ newline ∉ m.libraryPath
  | .error (.notLoaded _ backend library) => newline ∉ backend ∧ newline ∉ library
  | .error _ => True

/-- The same for the variables of the loop. -/
structure LoadState.NoNewline (st : LoadState) : Prop where
  mounts : ∀ m ∈ st.mounts, newline ∉ m.backendPath ∧ newline ∉ m.libraryPath
  backend : ∀ v ∈ st.backend, newline ∉ v
  library : ∀ v ∈ st.library, newline ∉ v

theorem readOption_newline {key : List UInt8} {old new : Option (List UInt8)}
    (htext : newline ∉ text) (hold : ∀ v ∈ old, newline ∉ v)
    (h : readOption key text old = some new) : ∀ v ∈ new, newline ∉ v := by
  obtain ⟨k, -, hscan⟩ := Option.bind_eq_some_iff.mp h
  cases hs : scanUntil [comma, space] (text.drop (k + key.length)) with
  | eof =>
    rw [hs] at hscan
    exact Option.some.inj hscan ▸ hold
  | mismatch =>
    rw [hs] at hscan
    cases hscan
  | assigned w =>
    rw [hs] at hscan
    obtain rfl := Option.some.inj hscan
    intro v hv
    obtain rfl := Option.some.inj hv
    obtain ⟨-, rfl⟩ := scanUntil_assigned_iff.mp hs
    exact fun hmem => htext (List.mem_of_mem_drop ((List.takeWhile_sublist _).subset hmem))

theorem readLine_newline {size : ℕ} {file rest : List UInt8} {ended : Bool}
    (h : readLine size file = some (line, ended, rest)) : newline ∉ line := by
  induction size generalizing file line with
  | zero =>
    cases h
    simp
  | succ size ih =>
    cases file with
    | nil => cases h
    | cons c cs =>
      simp only [readLine] at h
      split_ifs at h with hc
      · cases h
        simp
      · obtain ⟨⟨line', ended', rest'⟩, hline, heq⟩ := Option.map_eq_some_iff.mp h
        cases heq
        rw [List.mem_cons, not_or]
        exact ⟨Ne.symm hc, ih hline⟩

/-- A line that exits, or the state behind it. -/
theorem loadLine_newline {st : LoadState} {buffer : List UInt8} {r : Except LoadError LoadState}
    (hbuf : newline ∉ buffer) (hst : st.NoNewline) (h : loadLine loads buffer st = .ok r) :
    match r with
    | .ok st' => st'.NoNewline
    | .error e => NoNewline (.error e) := by
  unfold loadLine at h
  obtain ⟨text, htext, h⟩ := bind_ok_iff.mp h
  have hsub : newline ∉ text := by
    unfold loadString at htext
    split_ifs at htext
    obtain rfl := Except.ok.inj htext
    exact fun hmem => hbuf (List.mem_of_mem_drop ((List.takeWhile_sublist _).subset hmem))
  split at h
  · cases h
    trivial
  · cases h
    trivial
  · cases h
    trivial
  · rename_i mountPoint backend library _ hb hl
    have hbn := readOption_newline hsub hst.backend hb backend rfl
    have hln := readOption_newline hsub hst.library hl library rfl
    split at h
    · cases h
      exact ⟨hbn, hln⟩
    · rename_i m hm
      unfold loadMount at hm
      split_ifs at hm
      obtain rfl := Option.some.inj hm
      split_ifs at h
      cases h
      refine ⟨fun m hmem => ?_, fun v hv => Option.some.inj hv ▸ hbn, fun v hv =>
        Option.some.inj hv ▸ hln⟩
      rcases List.mem_append.mp hmem with hmem | hmem
      · exact hst.mounts m hmem
      · rw [List.mem_singleton] at hmem
        subst hmem
        exact ⟨hbn, hln⟩
  · cases h

theorem loadLines_newline {limit : ℕ} {file : List UInt8} {st : LoadState}
    {r : Except LoadError (List MountPointData)} (hst : st.NoNewline)
    (h : loadLines loads limit file st = .ok r) : NoNewline r := by
  induction limit generalizing file st with
  | zero => cases h
  | succ limit ih =>
    unfold loadLines at h
    split at h
    · cases h
      exact hst.mounts
    · rename_i line ended rest hline
      have hnl := readLine_newline hline
      have hbuf : newline ∉ (if ended then line ++ [0] else line) := by
        split_ifs
        · rw [List.mem_append, not_or]
          exact ⟨hnl, by decide⟩
        · exact hnl
      by_cases hempty : line = []
      · rw [if_pos hempty] at h
        cases h
        exact hst.mounts
      rw [if_neg hempty] at h
      by_cases htype : mountType.length < line.length ∧ mountType <+: line
      · rw [if_pos htype] at h
        obtain ⟨res, hload, h⟩ := bind_ok_iff.mp h
        have hres := loadLine_newline hbuf hst hload
        cases res with
        | error e =>
          cases h
          exact hres
        | ok st' => exact ih hres h
      · rw [if_neg htype] at h
        exact ih hst h

def backendFront (mp generic : List UInt8) : List UInt8 :=
  mountType ++ [space] ++ mp ++ [space] ++ mountType ++ [space] ++ generic ++ [comma]

def libraryFront (mp generic B : List UInt8) : List UInt8 :=
  backendFront mp generic ++ backendKey ++ B ++ [comma]

/-- The first occurrence of the key in front of its own place, if there is one, happens to
be followed by the same value. -/
def NoDecoy (key front v : List UInt8) : Prop :=
  ∀ k, strstr front key = some k →
    (front.drop (k + key.length)).takeWhile (· ∉ [comma, space]) = v

/-- The strings `load_mounts_from_file` reads back. -/
structure PlainMount (mp generic B L : List UInt8) : Prop where
  mount_ne : mp ≠ []
  mount_plain : ∀ c ∈ mp, isSpace c = false ∧ c ≠ backslash
  backend_plain : space ∉ B ∧ newline ∉ B
  backend_first : NoDecoy backendKey (backendFront mp generic) B
  library_plain : space ∉ L ∧ newline ∉ L
  library_first : NoDecoy libraryKey (libraryFront mp generic B) L

theorem readOption_some_iff {key : List UInt8} :
    readOption key text none = some (some v) ↔ ∃ k, strstr text key = some k ∧
      v ≠ [] ∧ (text.drop (k + key.length)).takeWhile (· ∉ [comma, space]) = v := by
  unfold readOption
  rw [Option.bind_eq_bind, Option.bind_eq_some_iff]
  refine exists_congr fun k => and_congr_right fun _ => ?_
  rw [← scanUntil_assigned_iff]
  cases scanUntil [comma, space] (text.drop (k + key.length)) <;> simp

/-- What is read for a key that stands behind a comma. -/
theorem readOption_iff {name front rest : List UInt8} (hname : equals ∉ name)
    (hfront : front.getLast? = some comma) :
    readOption (name ++ [equals]) (front ++ ((name ++ [equals]) ++ rest)) none = some (some v) ↔
      v ≠ [] ∧ NoDecoy (name ++ [equals]) front v ∧
        (strstr front (name ++ [equals]) = none → rest.takeWhile (· ∉ [comma, space]) = v) := by
  rw [readOption_some_iff, strstr_marker hname]
  simp only [Option.some_inj, exists_eq_left']
  refine and_congr_right fun _ => ?_
  unfold NoDecoy
  cases hk : strstr front (name ++ [equals]) with
  | none =>
    rw [Option.getD_none, ← List.drop_drop, List.drop_left, List.drop_left]
    simp
  | some k =>
    -- the comma behind the decoy ends the value inside the front
    obtain ⟨post, hpost⟩ := strstr_some hk
    have hdrop : front.drop (k + (name ++ [equals]).length) = post := by
      rw [← List.drop_drop, ← hpost, List.drop_left]
    have hcomma : comma ∈ post := by
      have hne : post ≠ [] := by
        rintro rfl
        rw [List.append_nil] at hpost
        have hlast : (front.drop k).getLast? = some equals := by
          rw [← hpost, List.getLast?_concat]
        rw [List.getLast?_drop, hfront] at hlast
        split_ifs at hlast
        exact absurd hlast (by decide)
      have hlast : (front.drop k).getLast? = some comma := by
        rw [List.getLast?_drop, hfront, if_neg]
        intro hle
        rw [List.drop_eq_nil_of_le hle] at hpost
        simp at hpost
      rw [← hpost, List.getLast?_append_of_ne_nil _ hne] at hlast
      exact List.mem_of_getLast? hlast
    have hin : k + (name ++ [equals]).length ≤ front.length := by
      by_contra hlt
      rw [List.drop_eq_nil_of_le (not_le.mp hlt).le] at hdrop
      rw [← hdrop] at hcomma
      cases hcomma
    rw [Option.getD_some, List.drop_append_of_le_length hin, hdrop,
      takeWhile_append_of_stop hcomma List.mem_cons_self]
    simp only [Option.some_inj, forall_eq', hdrop, reduceCtorEq, false_implies, and_true]

theorem escape_plain (h : ∀ c ∈ mp, isSpace c = false ∧ c ≠ backslash) : escape mp = mp := by
  unfold escape
  induction mp with
  | nil => rfl
  | cons c cs ih =>
    obtain ⟨hspace, hback⟩ := h c List.mem_cons_self
    have hbyte : escapeByte c = [c] := by
      apply if_neg
      rintro (rfl | rfl | rfl | rfl)
      · exact absurd hspace (by decide)
      · exact absurd hspace (by decide)
      · exact absurd hspace (by decide)
      · exact hback rfl
    rw [List.flatMap_cons, hbyte, ih fun b hb => h b (List.mem_cons_of_mem c hb),
      List.singleton_append]

theorem escapeByte_ne_nil (c : UInt8) : escapeByte c ≠ [] := by
  unfold escapeByte
  split_ifs <;> simp

theorem escape_longer (h : backslash ∈ mp) : mp.length < (escape mp).length := by
  have hle : ∀ s : List UInt8, s.length ≤ (escape s).length := by
    intro s
    induction s with
    | nil => exact le_rfl
    | cons c cs ih =>
      have := List.length_pos_of_ne_nil (escapeByte_ne_nil c)
      simp only [escape, List.flatMap_cons, List.length_append, List.length_cons] at ih ⊢
      omega
  obtain ⟨u, t, rfl⟩ := List.append_of_mem h
  have hu := hle u
  have ht := hle t
  have hb : (escapeByte backslash).length = 4 := by decide
  simp only [escape, List.flatMap_append, List.flatMap_cons, List.length_append, List.length_cons,
    hb] at hu ht ⊢
  omega

theorem mem_escapeByte {b c : UInt8} (h : b ∈ escapeByte c) :
    (b = c ∧ c ≠ newline) ∨ (b ≠ 0 ∧ isSpace b = false) := by
  unfold escapeByte at h
  split_ifs at h with hc
  · right
    rcases hc with rfl | rfl | rfl | rfl <;> revert b <;> decide +kernel
  · left
    rw [List.mem_singleton] at h
    exact ⟨h, fun hn => hc (Or.inr (Or.inr (Or.inl hn)))⟩

theorem escape_text (h0 : 0 ∉ mp) : 0 ∉ escape mp ∧ newline ∉ escape mp := by
  have hbyte : ∀ b ∈ escape mp, b ≠ 0 ∧ b ≠ newline := by
    intro b hb
    obtain ⟨c, hc, hb⟩ := List.mem_flatMap.mp hb
    rcases mem_escapeByte hb with ⟨rfl, hn⟩ | ⟨hz, hs⟩
    · exact ⟨fun h => h0 (h ▸ hc), hn⟩
    · refine ⟨hz, ?_⟩
      rintro rfl
      exact absurd hs (by decide)
  exact ⟨fun h => (hbyte 0 h).1 rfl, fun h => (hbyte newline h).2 rfl⟩

theorem escape_word (hne : mp ≠ []) (h : ∀ c ∈ mp, isSpace c = false) :
    escape mp ≠ [] ∧ ∀ c ∈ escape mp, isSpace c = false := by
  constructor
  · obtain ⟨c, cs, rfl⟩ := List.exists_cons_of_ne_nil hne
    rw [escape, List.flatMap_cons]
    exact List.append_ne_nil_of_left_ne_nil (escapeByte_ne_nil c) _
  · intro b hb
    obtain ⟨c, hc, hb⟩ := List.mem_flatMap.mp hb
    rcases mem_escapeByte hb with ⟨rfl, -⟩ | ⟨-, hs⟩
    · exact h b hc
    · exact hs

theorem readLine_line {size : ℕ} (hnl : newline ∉ line) (hlen : line.length < size)
    (rest : List UInt8) : readLine size (line ++ newline :: rest) = some (line, true, rest) := by
  induction line generalizing size with
  | nil =>
    obtain ⟨n, rfl⟩ := Nat.exists_eq_succ_of_ne_zero (Nat.ne_of_gt hlen)
    rfl
  | cons c cs ih =>
    obtain ⟨n, rfl⟩ := Nat.exists_eq_succ_of_ne_zero (Nat.ne_of_gt (Nat.zero_lt_of_lt hlen))
    rw [List.mem_cons, not_or] at hnl
    rw [List.cons_append, readLine, if_neg (Ne.symm hnl.1),
      ih hnl.2 (Nat.lt_of_succ_lt_succ hlen), Option.map_some]

theorem loadMountsFromFile_line (hnl : newline ∉ line) (hlen : line.length < BUFFER_SIZE)
    (htype : mountType.length < line.length ∧ mountType <+: line) :
    loadMountsFromFile loads (line ++ [newline]) =
      (loadLine loads (line ++ [0]) {}).map (·.map (·.mounts)) := by
  have hne : line ≠ [] := by
    rintro rfl
    exact absurd htype.1 (by decide)
  unfold loadMountsFromFile
  rw [List.length_append, List.length_singleton, loadLines, readLine_line hnl hlen]
  dsimp only
  rw [if_neg hne, if_pos htype, if_pos rfl]
  cases loadLine loads (line ++ [0]) {} with
  | error f => rfl
  | ok r =>
    cases r with
    | error e => rfl
    | ok st => rfl

theorem loadString_line (h0 : 0 ∉ line) : loadString (line ++ [0]) 0 = .ok line :=
  HoldsText.loadString ⟨⟨[], rfl⟩, h0⟩

theorem loadLine_call (h0 : 0 ∉ line) (hword : scanWord (line.drop mountType.length) = some mp)
    (hb : readOption backendKey line none = some (some B))
    (hl : readOption libraryKey line none = some (some L)) :
    (loadLine loads (line ++ [0]) {}).map (·.map (·.mounts)) = .ok (loadedAs loads mp B L) := by
  unfold loadLine
  rw [loadString_line h0, ok_bind, hword, hb, hl]
  unfold loadedAs loadMount
  dsimp only
  cases loads L <;> rfl

theorem loadLine_iff (h0 : 0 ∉ line) :
    (loadLine loads (line ++ [0]) {}).map (·.map (·.mounts)) = .ok (loadedAs loads mp B L) ↔
      scanWord (line.drop mountType.length) = some mp ∧
        readOption backendKey line none = some (some B) ∧
        readOption libraryKey line none = some (some L) := by
  refine ⟨fun h => ?_, fun ⟨hword, hb, hl⟩ => loadLine_call h0 hword hb hl⟩
  have hexit : ∀ {e : LoadError}, (∀ mp B L, e ≠ .notLoaded mp B L) →
      (pure (.error e) : Checked (Except LoadError LoadState)).map (·.map (·.mounts)) ≠
        .ok (loadedAs loads mp B L) := fun hne heq =>
    hne mp B L (loadedAs_error (Except.ok.inj heq).symm)
  cases hword : scanWord (line.drop mountType.length) with
  | none =>
    rw [loadLine, loadString_line h0, ok_bind, hword] at h
    exact absurd h (hexit (by simp))
  | some word =>
    cases hb : readOption backendKey line none with
    | none =>
      rw [loadLine, loadString_line h0, ok_bind, hword, hb] at h
      exact absurd h (hexit (by simp))
    | some backend =>
      cases hl : readOption libraryKey line none with
      | none =>
        rw [loadLine, loadString_line h0, ok_bind, hword, hb, hl] at h
        exact absurd h (hexit (by simp))
      | some library =>
        cases backend with
        | none =>
          rw [loadLine, loadString_line h0, ok_bind, hword, hb, hl] at h
          cases library <;> cases h
        | some backend =>
          cases library with
          | none =>
            rw [loadLine, loadString_line h0, ok_bind, hword, hb, hl] at h
            cases h
          | some library =>
            rw [loadLine_call h0 hword hb hl] at h
            obtain ⟨rfl, rfl, rfl⟩ := loadedAs_inj (Except.ok.inj h)
            exact ⟨rfl, rfl, rfl⟩

theorem mountsLine_backend (mode : ℕ) :
    mountsLine mp generic ⟨mode, B, L⟩ = backendFront (escape mp) generic ++
      (backendKey ++ (B ++ comma :: (libraryKey ++ (L ++ [space, 0x30, space, 0x30])))) := by
  simp [mountsLine, showOptions, backendFront]

theorem mountsLine_library (mode : ℕ) :
    mountsLine mp generic ⟨mode, B, L⟩ = libraryFront (escape mp) generic B ++
      (libraryKey ++ (L ++ [space, 0x30, space, 0x30])) := by
  simp [mountsLine, showOptions, libraryFront, backendFront]

theorem scanWord_escape_iff (rest : List UInt8) :
    scanWord (0x20 :: (escape mp ++ 0x20 :: rest)) = some mp ↔
      mp ≠ [] ∧ ∀ c ∈ mp, isSpace c = false ∧ c ≠ backslash := by
  constructor
  · intro h
    obtain ⟨hne, hspace, -⟩ := scanWord_some h
    obtain ⟨hne', hspace'⟩ := escape_word hne hspace
    rw [scanWord_between hne' hspace', Option.some_inj] at h
    refine ⟨hne, fun c hc => ⟨hspace c hc, ?_⟩⟩
    rintro rfl
    exact absurd (congrArg List.length h) (escape_longer hc).ne'
  · rintro ⟨hne, hplain⟩
    rw [escape_plain hplain]
    exact scanWord_between hne (fun c hc => (hplain c hc).1) rest

/-- A value between its key and a stop is read back, unless it has a space or the key
occurred before. -/
theorem readOption_value_iff {name front rest : List UInt8} {stop : UInt8} (hname : equals ∉ name)
    (hfront : front.getLast? = some comma) (hv : IsValue v) (hstop : stop ∈ [comma, space]) :
    readOption (name ++ [equals]) (front ++ ((name ++ [equals]) ++ (v ++ stop :: rest))) none =
        some (some v) ↔
      space ∉ v ∧ NoDecoy (name ++ [equals]) front v := by
  rw [readOption_iff hname hfront]
  constructor
  · rintro ⟨-, hdecoy, hown⟩
    refine ⟨fun hmem => ?_, hdecoy⟩
    have hread : ∃ t : List UInt8, t.takeWhile (· ∉ [comma, space]) = v := by
      cases hk : strstr front (name ++ [equals]) with
      | none => exact ⟨_, hown hk⟩
      | some k => exact ⟨_, hdecoy k hk⟩
    obtain ⟨t, rfl⟩ := hread
    have := List.mem_takeWhile_imp hmem
    simp at this
  · rintro ⟨hspace, hdecoy⟩
    refine ⟨hv.1, hdecoy, fun _ => takeWhile_field (fun b hb => ?_) hstop rest⟩
    rw [List.mem_cons, List.mem_singleton]
    rintro (rfl | rfl)
    · exact hv.2.1 hb
    · exact hspace hb

theorem line_read_iff (mode : ℕ) (hB : IsValue B) (hL : IsValue L) :
    (scanWord ((mountsLine mp generic ⟨mode, B, L⟩).drop mountType.length) = some mp ∧
      readOption backendKey (mountsLine mp generic ⟨mode, B, L⟩) none = some (some B) ∧
      readOption libraryKey (mountsLine mp generic ⟨mode, B, L⟩) none = some (some L)) ↔
    (mp ≠ [] ∧ ∀ c ∈ mp, isSpace c = false ∧ c ≠ backslash) ∧
      (space ∉ B ∧ NoDecoy backendKey (backendFront mp generic) B) ∧
      space ∉ L ∧ NoDecoy libraryKey (libraryFront mp generic B) L := by
  have hword : scanWord ((mountsLine mp generic ⟨mode, B, L⟩).drop mountType.length) = some mp ↔
      mp ≠ [] ∧ ∀ c ∈ mp, isSpace c = false ∧ c ≠ backslash := by
    have hdrop : (mountsLine mp generic ⟨mode, B, L⟩).drop mountType.length =
        0x20 :: (escape mp ++ 0x20 :: (mountType ++ [space] ++ generic ++
          showOptions ⟨mode, B, L⟩ ++ [space, 0x30, space, 0x30])) := by
      simp [mountsLine, space]
    rw [hdrop, scanWord_escape_iff]
  rw [hword]
  refine and_congr_right fun ⟨_, hplain⟩ => and_congr ?_ ?_
  · rw [mountsLine_backend, escape_plain hplain]
    exact readOption_value_iff (by decide) (by rw [backendFront, List.getLast?_concat]) hB
      List.mem_cons_self
  · rw [mountsLine_library, escape_plain hplain]
    exact readOption_value_iff (by decide) (by rw [libraryFront, List.getLast?_concat]) hL
      (by simp)

/-- A mount comes back from its line exactly when its strings are plain. -/
theorem survives_iff (loads : List UInt8 → Bool) (mp generic : List UInt8) (mode : ℕ)
    (B L : List UInt8) (hacc : Accepted B L) (hmp : 0 ∉ mp)
    (hgen : 0 ∉ generic ∧ newline ∉ generic)
    (hlen : (mountsLine mp generic ⟨mode, B, L⟩).length < BUFFER_SIZE) :
    Survives loads mp generic ⟨mode, B, L⟩ ↔ PlainMount mp generic B L := by
  obtain ⟨hB, hL⟩ := accepted_iff.mp hacc
  by_cases hnl : newline ∉ B ∧ newline ∉ L
  · obtain ⟨hesc0, hescn⟩ := escape_text hmp
    -- the fixed parts of the line have neither byte
    have hfixed : ∀ c ∈ [0, newline], c ∉ mountType ∧ c ∉ backendKey ∧ c ∉ libraryKey ∧
        c ≠ space ∧ c ≠ comma ∧ c ≠ 0x30 := by decide +kernel
    have h0 : 0 ∉ mountsLine mp generic ⟨mode, B, L⟩ := by
      simp [mountsLine, showOptions, hesc0, hgen.1, hB.2.2, hL.2.2, hfixed 0 (by simp)]
    have hn : newline ∉ mountsLine mp generic ⟨mode, B, L⟩ := by
      simp [mountsLine, showOptions, hescn, hgen.2, hnl, hfixed newline (by simp)]
    have htype : mountType.length < (mountsLine mp generic ⟨mode, B, L⟩).length ∧
        mountType <+: mountsLine mp generic ⟨mode, B, L⟩ := by
      constructor
      · simp [mountsLine]
      · simp [mountsLine]
    unfold Survives
    rw [loadMountsFromFile_line hn hlen htype, loadLine_iff h0, line_read_iff mode hB hL]
    constructor
    · rintro ⟨⟨hne, hplain⟩, ⟨hBs, hBd⟩, hLs, hLd⟩
      exact ⟨hne, hplain, ⟨hBs, hnl.1⟩, hBd, ⟨hLs, hnl.2⟩, hLd⟩
    · rintro ⟨hne, hplain, hBp, hBd, hLp, hLd⟩
      exact ⟨⟨hne, hplain⟩, ⟨hBp.1, hBd⟩, hLp.1, hLd⟩
  · -- no string that is read has a newline
    refine iff_of_false (fun h => ?_) fun h => hnl ⟨h.backend_plain.2, h.library_plain.2⟩
    have hread := loadLines_newline ⟨by simp, by simp, by simp⟩ h
    unfold loadedAs loadMount at hread
    cases hl : loads L <;> exact hnl (by simpa [hl, NoNewline] using hread)

/-- `/tmp/defuse`, the mount point of `testmount`, with `rw,relatime` and `/lib.so`. -/
def tmpDefuse : List UInt8 := [0x2f, 0x74, 0x6d, 0x70, 0x2f, 0x64, 0x65, 0x66, 0x75, 0x73, 0x65]
def rwRelatime : List UInt8 :=
  [0x72, 0x77, 0x2c, 0x72, 0x65, 0x6c, 0x61, 0x74, 0x69, 0x6d, 0x65]
def libSo : List UInt8 := [0x2f, 0x6c, 0x69, 0x62, 0x2e, 0x73, 0x6f]

theorem survives_tmpDefuse :
    Survives (fun _ => true) tmpDefuse rwRelatime ⟨DEFUSE_DEFAULT_MODE, [0x2f], libSo⟩ := by
  have hdecoy : ∀ {key front v : List UInt8}, strstr front key = none → NoDecoy key front v :=
    fun h k hk => by rw [h] at hk; cases hk
  refine (survives_iff _ _ _ _ _ _ (accepted_iff.mpr ⟨by decide, by decide⟩) (by decide)
    (by decide) (by decide)).mpr ⟨by decide, by decide +kernel, by decide, hdecoy (by decide),
      by decide, hdecoy (by decide)⟩

/-- A mount on `/a b` is loaded as `/a\040b`. -/
theorem not_survives_space :
    Accepted [0x2f] libSo ∧
    (loadMountsFromFile (fun _ => true)
        (mountsLine [0x2f, 0x61, 0x20, 0x62] rwRelatime ⟨DEFUSE_DEFAULT_MODE, [0x2f], libSo⟩ ++
          [newline]) =
      .ok (.ok [⟨0, [0x2f, 0x61, 0x5c, 0x30, 0x34, 0x30, 0x62], [0x2f], libSo⟩])) ∧
    ¬ Survives (fun _ => true) [0x2f, 0x61, 0x20, 0x62] rwRelatime
      ⟨DEFUSE_DEFAULT_MODE, [0x2f], libSo⟩ := by
  refine ⟨accepted_iff.mpr ⟨by decide, by decide⟩, by decide +kernel, ?_⟩
  unfold Survives
  decide +kernel

end Defuse
