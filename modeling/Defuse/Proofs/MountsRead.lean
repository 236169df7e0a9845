import Defuse.Proofs.MountLine

/-! `load_mounts_from_file` on a file of many lines. `read_line` cuts a line into chunks of
the size of its buffer, and what is done with a chunk depends on the chunk only: a long
line can look like a mount from its middle on, and one that ends with its last full chunk
ends the loop. -/

namespace Defuse

open CSem

def isBlank (c : UInt8) : Bool := c = space || c = 0x09

def firstField (line : List UInt8) : List UInt8 :=
  (line.dropWhile isBlank).takeWhile (!isBlank ·)

def IsDefuse (line : List UInt8) : Prop := firstField line = mountType

instance : DecidablePred IsDefuse := fun line =>
  inferInstanceAs (Decidable (firstField line = mountType))

def lineText (line : List UInt8) : List UInt8 := line.takeWhile (· ≠ 0)

/-- The mount a line of type `defuse` describes, if it has all it needs and loads. -/
def lineEntry (loads : List UInt8 → Bool) (line : List UInt8) : Option MountPointData := do
  let text := lineText (line.dropWhile isBlank)
  let mountPoint ← scanWord (text.drop mountType.length)
  let backend ← (readOption backendKey text none).join
  let library ← (readOption libraryKey text none).join
  loadMount loads mountPoint backend library

def fileOf (lines : List (List UInt8)) : List UInt8 := lines.flatMap (· ++ [newline])

def numbered (n : ℕ) (mounts : List MountPointData) : List MountPointData :=
  (mounts.zipIdx n).map fun (mp, i) => { mp with index := i }

/-- One entry for each line of type `defuse`, in order. -/
def expectedMounts (loads : List UInt8 → Bool) (lines : List (List UInt8)) :
    List MountPointData :=
  numbered 0 ((lines.filter IsDefuse).filterMap (lineEntry loads))

/-- The files that are read: non-empty lines, those of type `defuse` complete and loading. -/
structure MountsContent (loads : List UInt8 → Bool) (lines : List (List UInt8)) : Prop where
  nonempty : ∀ line ∈ lines, line ≠ []
  newline : ∀ line ∈ lines, newline ∉ line
  complete : ∀ line ∈ lines, IsDefuse line → lineEntry loads line ≠ none

/-- What `read_line` stores, where it stood in the file, and whether a newline ended it. -/
structure Chunk where
  pos : ℕ
  text : List UInt8
  ended : Bool
  deriving DecidableEq, Repr

def Chunk.Typed (c : Chunk) : Prop := mountType.length < c.text.length ∧ mountType <+: c.text

instance : DecidablePred Chunk.Typed := fun c =>
  inferInstanceAs (Decidable (mountType.length < c.text.length ∧ mountType <+: c.text))

def Chunk.buffer (c : Chunk) : List UInt8 := if c.ended then c.text ++ [0] else c.text

/-- The chunks that the loop of `load_mounts_from_file` reads before it ends. -/
def readChunks : ℕ → ℕ → List UInt8 → List Chunk
  | 0, _, _ => []
  | limit + 1, pos, file =>
    match readLine BUFFER_SIZE file with
    | none => []
    | some (text, ended, rest) =>
      if text = [] then []
      else ⟨pos, text, ended⟩ ::
        readChunks limit (pos + text.length + if ended then 1 else 0) rest

def handed (file : List UInt8) : List Chunk :=
  (readChunks (file.length + 1) 0 file).filter Chunk.Typed

def linesAt (pos : ℕ) : List (List UInt8) → List (ℕ × List UInt8)
  | [] => []
  | line :: lines => (pos, line) :: linesAt (pos + line.length + 1) lines

/-- The array holds the mounts of the lines of type `defuse`, and these lines, each as a
whole, are all that was taken for a mount. -/
structure ReadExactly (loads : List UInt8 → Bool) (lines : List (List UInt8)) : Prop where
  array : loadMountsFromFile loads (fileOf lines) = .ok (.ok (expectedMounts loads lines))
  taken : (handed (fileOf lines)).map (fun c => (c.pos, c.text)) =
    (linesAt 0 lines).filter fun l => IsDefuse l.2

def chunkAt (pos : ℕ) (line : List UInt8) (j : ℕ) : Chunk :=
  ⟨pos + BUFFER_SIZE * j, (line.drop (BUFFER_SIZE * j)).take BUFFER_SIZE,
    decide (line.length < BUFFER_SIZE * (j + 1))⟩

def lineChunks (pos : ℕ) (line : List UInt8) : List Chunk :=
  (List.range ((line.length + BUFFER_SIZE - 1) / BUFFER_SIZE)).map (chunkAt pos line)

def reached : List (List UInt8) → List (List UInt8)
  | [] => []
  | line :: lines => line :: if BUFFER_SIZE ∣ line.length then [] else reached lines

/-- The files that are read completely and exactly. -/
structure ReadsWhole (lines : List (List UInt8)) : Prop where
  whole : ∀ line ∈ reached lines, ∀ c ∈ lineChunks 0 line, c.Typed →
    IsDefuse line ∧ c.text = line ∧ (c.ended ∨ 0 ∈ line)
  front : ∀ line ∈ reached lines, IsDefuse line → mountType <+: line
  unread : ∀ line ∈ lines.drop (reached lines).length, ¬ IsDefuse line
  room : (lines.filter IsDefuse).length ≤ MAX_MOUNTS

variable {loads : List UInt8 → Bool} {line rest file : List UInt8} {lines : List (List UInt8)}
  {pos limit : ℕ}

/-! How a line is cut. -/

theorem readLine_full {size : ℕ} (hnl : newline ∉ line) (hlen : size ≤ line.length)
    (rest : List UInt8) :
    readLine size (line ++ rest) = some (line.take size, false, line.drop size ++ rest) := by
  induction size generalizing line with
  | zero => simp [readLine]
  | succ size ih =>
    cases line with
    | nil => exact absurd hlen (by simp)
    | cons c cs =>
      rw [List.mem_cons, not_or] at hnl
      rw [List.cons_append, readLine, if_neg (Ne.symm hnl.1),
        ih hnl.2 (Nat.le_of_succ_le_succ hlen), Option.map_some]
      rfl

theorem lineChunks_one (hne : line ≠ []) (hlen : line.length ≤ BUFFER_SIZE) :
    lineChunks pos line = [⟨pos, line, decide (line.length < BUFFER_SIZE)⟩] := by
  have hpos := List.length_pos_of_ne_nil hne
  have hone : (line.length + BUFFER_SIZE - 1) / BUFFER_SIZE = 1 := by
    unfold BUFFER_SIZE at *
    omega
  rw [lineChunks, hone]
  simp [chunkAt, List.take_of_length_le hlen]

theorem lineChunks_long (hlen : BUFFER_SIZE < line.length) :
    lineChunks pos line = ⟨pos, line.take BUFFER_SIZE, false⟩ ::
      lineChunks (pos + BUFFER_SIZE) (line.drop BUFFER_SIZE) := by
  have hcount : (line.length + BUFFER_SIZE - 1) / BUFFER_SIZE =
      ((line.drop BUFFER_SIZE).length + BUFFER_SIZE - 1) / BUFFER_SIZE + 1 := by
    rw [List.length_drop]
    unfold BUFFER_SIZE at *
    omega
  have hfirst : chunkAt pos line 0 = ⟨pos, line.take BUFFER_SIZE, false⟩ := by
    simp [chunkAt, hlen.le]
  have hnext (j : ℕ) : chunkAt pos line (j + 1) =
      chunkAt (pos + BUFFER_SIZE) (line.drop BUFFER_SIZE) j := by
    unfold chunkAt
    rw [List.drop_drop, List.length_drop, Chunk.mk.injEq]
    refine ⟨by ring, by rw [Nat.mul_succ, Nat.add_comm], ?_⟩
    rw [decide_eq_decide]
    unfold BUFFER_SIZE at *
    omega
  rw [lineChunks, hcount, List.range_succ_eq_map, List.map_cons, List.map_map, hfirst, lineChunks]
  congr 2
  funext j
  exact hnext j

/-- The loop reads the chunks of a line and goes on behind it, unless the line ended with a
full chunk: then the newline is read as an empty line. -/
theorem readChunks_line (hne : line ≠ []) (hnl : newline ∉ line)
    (hlimit : (line ++ newline :: rest).length < limit) :
    ∃ limit', rest.length < limit' ∧ readChunks limit pos (line ++ newline :: rest) =
      lineChunks pos line ++ if BUFFER_SIZE ∣ line.length then []
        else readChunks limit' (pos + line.length + 1) rest := by
  induction hn : line.length using Nat.strong_induction_on generalizing line pos limit with
  | _ n ih =>
    subst hn
    have hpos := List.length_pos_of_ne_nil hne
    obtain ⟨limit, rfl⟩ := Nat.exists_eq_succ_of_ne_zero (Nat.ne_of_gt (Nat.zero_lt_of_lt hlimit))
    simp only [List.length_append, List.length_cons] at hlimit
    obtain hlt | heq | hgt := lt_trichotomy line.length BUFFER_SIZE
    · -- the newline is in reach
      refine ⟨limit, by omega, ?_⟩
      have hdvd : ¬ BUFFER_SIZE ∣ line.length := Nat.not_dvd_of_pos_of_lt hpos hlt
      rw [readChunks, readLine_line hnl hlt, lineChunks_one hne hlt.le, if_neg hdvd]
      simp [hne, hlt]
    · refine ⟨limit, by omega, ?_⟩
      have hstop : readChunks limit (pos + line.length) (newline :: rest) = [] := by
        cases limit with
        | zero => rfl
        | succ limit =>
          have hempty : readLine BUFFER_SIZE (newline :: rest) = some ([], true, rest) := rfl
          rw [readChunks, hempty]
          simp
      have hfull : decide (line.length < BUFFER_SIZE) = false := by simp [heq]
      rw [readChunks, readLine_full hnl heq.ge, lineChunks_one hne heq.le, hfull,
        if_pos (Dvd.intro_left 1 (by rw [heq, Nat.one_mul])),
        List.take_of_length_le heq.le, List.drop_of_length_le heq.le, List.nil_append]
      simp only [hne, if_false, Bool.false_eq_true, Nat.add_zero, hstop, List.append_nil]
    · have hlen : (line.drop BUFFER_SIZE).length = line.length - BUFFER_SIZE := List.length_drop
      have hne' : line.drop BUFFER_SIZE ≠ [] := List.ne_nil_of_length_pos (by omega)
      have hsize : 0 < BUFFER_SIZE := by decide
      have hlimit₁ : (line.drop BUFFER_SIZE ++ newline :: rest).length < limit := by
        simp only [List.length_append, List.length_cons]
        omega
      obtain ⟨limit', hlimit', hrest⟩ : ∃ limit', rest.length < limit' ∧
          readChunks limit (pos + BUFFER_SIZE) (line.drop BUFFER_SIZE ++ newline :: rest) = _ :=
        ih (line.drop BUFFER_SIZE).length (by omega) hne' (fun h => hnl (List.mem_of_mem_drop h))
          hlimit₁ rfl
      refine ⟨limit', hlimit', ?_⟩
      have htake : line.take BUFFER_SIZE ≠ [] := by
        refine List.ne_nil_of_length_pos ?_
        rw [List.length_take]
        omega
      have hdvd : BUFFER_SIZE ∣ line.length - BUFFER_SIZE ↔ BUFFER_SIZE ∣ line.length :=
        Nat.dvd_sub_self_right.trans ⟨fun h => h.resolve_right (by omega), Or.inl⟩
      rw [readChunks, readLine_full hnl hgt.le, lineChunks_long hgt, List.cons_append]
      simp only [htake, if_false, Bool.false_eq_true, Nat.add_zero, List.length_take,
        Nat.min_eq_left hgt.le]
      rw [hrest, hlen]
      simp only [hdvd]
      have hend : pos + BUFFER_SIZE + (line.length - BUFFER_SIZE) + 1 = pos + line.length + 1 := by
        omega
      rw [hend]

/-- The chunks that are read from a file of lines. -/
def chunksFrom (pos : ℕ) : List (List UInt8) → List Chunk
  | [] => []
  | line :: lines => lineChunks pos line ++
    if BUFFER_SIZE ∣ line.length then [] else chunksFrom (pos + line.length + 1) lines

theorem fileOf_cons (line : List UInt8) (lines : List (List UInt8)) :
    fileOf (line :: lines) = line ++ newline :: fileOf lines := by
  simp [fileOf]

theorem readChunks_lines (hne : ∀ line ∈ lines, line ≠ []) (hnl : ∀ line ∈ lines, newline ∉ line)
    (hlimit : (fileOf lines).length < limit) :
    readChunks limit pos (fileOf lines) = chunksFrom pos lines := by
  induction lines generalizing pos limit with
  | nil =>
    cases limit with
    | zero => rfl
    | succ limit => rfl
  | cons line lines ih =>
    rw [fileOf_cons] at hlimit ⊢
    obtain ⟨limit', hlimit', hline⟩ :=
      readChunks_line (hne line List.mem_cons_self) (hnl line List.mem_cons_self) hlimit
    rw [hline, chunksFrom, ih (fun l hl => hne l (List.mem_cons_of_mem _ hl))
      (fun l hl => hnl l (List.mem_cons_of_mem _ hl)) hlimit']

/-! What is done with the chunks. -/

/-- The loop of `load_mounts_from_file`, over the chunks it reads. -/
def process (loads : List UInt8 → Bool) :
    List Chunk → LoadState → Checked (Except LoadError (List MountPointData))
  | [], st => .ok (.ok st.mounts)
  | c :: cs, st =>
    if c.Typed then do
      match ← loadLine loads c.buffer st with
      | .error e => return .error e
      | .ok st => process loads cs st
    else process loads cs st

theorem readLine_shorter {size : ℕ} {text : List UInt8} {ended : Bool}
    (h : readLine size file = some (text, ended, rest)) :
    rest.length + text.length ≤ file.length := by
  induction size generalizing file text with
  | zero =>
    cases h
    simp
  | succ size ih =>
    cases file with
    | nil => cases h
    | cons c cs =>
      rw [readLine] at h
      split_ifs at h
      · cases h
        simp
      · rw [Option.map_eq_some_iff] at h
        obtain ⟨⟨text', ended', rest'⟩, hread, heq⟩ := h
        cases heq
        have := ih hread
        simp only [List.length_cons]
        omega

theorem loadLines_eq_process {st : LoadState} (hlimit : file.length < limit) :
    loadLines loads limit file st = process loads (readChunks limit pos file) st := by
  induction limit generalizing pos file st with
  | zero => exact absurd hlimit (Nat.not_lt_zero _)
  | succ limit ih =>
    rw [loadLines, readChunks]
    cases hread : readLine BUFFER_SIZE file with
    | none => rfl
    | some r =>
      obtain ⟨text, ended, rest⟩ := r
      have hshort := readLine_shorter hread
      dsimp only
      by_cases hempty : text = []
      · rw [if_pos hempty, if_pos hempty]
        rfl
      · have hpos := List.length_pos_of_ne_nil hempty
        rw [if_neg hempty, if_neg hempty, process]
        refine if_congr Iff.rfl ?_ (ih (by omega))
        refine bind_congr fun r => ?_
        cases r with
        | error e => rfl
        | ok st => exact ih (by omega)

theorem takeWhile_text_append : (line ++ [0]).takeWhile (· ≠ (0 : UInt8)) = lineText line := by
  by_cases h0 : 0 ∈ line
  · obtain ⟨a, b, hline, ha⟩ : ∃ a b, line = a ++ 0 :: b ∧ 0 ∉ a := List.eq_append_cons_of_mem h0
    have hall : ∀ c ∈ a, decide (c ≠ (0 : UInt8)) = true := by
      intro c hc
      exact decide_eq_true fun heq => ha (heq ▸ hc)
    subst hline
    unfold lineText
    rw [List.append_assoc, List.takeWhile_append_of_pos hall, List.takeWhile_append_of_pos hall]
    simp
  · have hall : ∀ c ∈ line, decide (c ≠ (0 : UInt8)) = true := by
      intro c hc
      exact decide_eq_true fun heq => h0 (heq ▸ hc)
    unfold lineText
    rw [List.takeWhile_append_of_pos hall, List.takeWhile_eq_self_iff.mpr hall]
    simp

theorem loadString_buffer (c : Chunk) :
    loadString c.buffer 0 =
      if c.ended ∨ 0 ∈ c.text then .ok (lineText c.text) else .error .outOfBounds := by
  obtain ⟨pos, text, ended⟩ := c
  unfold loadString Chunk.buffer
  cases ended with
  | true =>
    simp only [if_true, List.drop_zero, List.mem_append, List.mem_singleton, or_true, true_or]
    rw [takeWhile_text_append]
  | false =>
    simp only [Bool.false_eq_true, if_false, List.drop_zero, false_or]
    rfl

theorem readOption_keeps {key text v : List UInt8} (h : readOption key text none = some (some v))
    (old : Option (List UInt8)) : readOption key text old = some (some v) := by
  unfold readOption at h ⊢
  rw [Option.bind_eq_bind, Option.bind_eq_some_iff] at h ⊢
  obtain ⟨k, hk, hscan⟩ := h
  refine ⟨k, hk, ?_⟩
  cases hs : scanUntil [comma, space] (text.drop (k + key.length)) with
  | eof =>
    rw [hs] at hscan
    cases hscan
  | mismatch =>
    rw [hs] at hscan
    cases hscan
  | assigned w =>
    rw [hs] at hscan
    exact hscan

theorem dropWhile_blank (h : mountType <+: line) : line.dropWhile isBlank = line := by
  obtain ⟨tail, rfl⟩ := h
  rfl

/-- A typed chunk with a complete mount in it. -/
theorem loadLine_typed {c : Chunk} {st : LoadState} {mp : MountPointData} (hc : c.Typed)
    (hentry : lineEntry loads c.text = some mp) :
    (¬ (c.ended ∨ 0 ∈ c.text) ∧ loadLine loads c.buffer st = .error .outOfBounds) ∨
    ((c.ended ∨ 0 ∈ c.text) ∧
      ((st.mounts.length < MAX_MOUNTS ∧ ∃ st', loadLine loads c.buffer st = .ok (.ok st') ∧
          st'.mounts = st.mounts ++ [{ mp with index := st.mounts.length }]) ∨
        (¬ st.mounts.length < MAX_MOUNTS ∧
          loadLine loads c.buffer st = .error .outOfBounds))) := by
  by_cases hstr : c.ended ∨ 0 ∈ c.text
  · refine Or.inr ⟨hstr, ?_⟩
    unfold lineEntry at hentry
    rw [dropWhile_blank hc.2] at hentry
    simp only [Option.bind_eq_bind, Option.bind_eq_some_iff, Option.join_eq_some_iff] at hentry
    obtain ⟨word, hword, backend, hb, library, hl, hload⟩ := hentry
    have hline : loadLine loads c.buffer st =
        if st.mounts.length < MAX_MOUNTS then
          .ok (.ok ⟨st.mounts ++ [{ mp with index := st.mounts.length }], some backend,
            some library⟩)
        else .error .outOfBounds := by
      rw [loadLine, loadString_buffer, if_pos hstr, ok_bind, hword, readOption_keeps hb,
        readOption_keeps hl]
      simp only [hload]
      rfl
    rw [hline]
    by_cases hroom : st.mounts.length < MAX_MOUNTS
    · exact Or.inl ⟨hroom, _, if_pos hroom, rfl⟩
    · exact Or.inr ⟨hroom, if_neg hroom⟩
  · refine Or.inl ⟨hstr, ?_⟩
    rw [loadLine, loadString_buffer, if_neg hstr, error_bind]

theorem numbered_cons (n : ℕ) (mp : MountPointData) (mounts : List MountPointData) :
    numbered n (mp :: mounts) = { mp with index := n } :: numbered (n + 1) mounts := rfl

/-- The typed chunks, each with a complete mount in it, fill the array if every one is a
string and there is room for all. -/
theorem process_ok_iff {cs : List Chunk} {st : LoadState} {r : List MountPointData}
    (hroom : st.mounts.length ≤ MAX_MOUNTS)
    (hcs : ∀ c ∈ cs, c.Typed → lineEntry loads c.text ≠ none) :
    process loads cs st = .ok (.ok r) ↔
      (∀ c ∈ cs, c.Typed → c.ended ∨ 0 ∈ c.text) ∧
        st.mounts.length + (cs.filter Chunk.Typed).length ≤ MAX_MOUNTS ∧
        r = st.mounts ++ numbered st.mounts.length
          ((cs.filter Chunk.Typed).filterMap fun c => lineEntry loads c.text) := by
  induction cs generalizing st with
  | nil =>
    simp only [process, List.filter_nil, List.filterMap_nil, List.length_nil, Nat.add_zero,
      List.not_mem_nil, false_implies, implies_true, true_and, hroom, Except.ok.injEq]
    simp only [numbered, List.zipIdx_nil, List.map_nil, List.append_nil, eq_comm]
  | cons c cs ih =>
    have hcs' : ∀ c ∈ cs, c.Typed → lineEntry loads c.text ≠ none := fun c' hc' =>
      hcs c' (List.mem_cons_of_mem _ hc')
    rw [process, List.forall_mem_cons]
    by_cases hc : c.Typed
    · obtain ⟨mp, hmp⟩ := Option.ne_none_iff_exists'.mp (hcs c List.mem_cons_self hc)
      rw [if_pos hc, List.filter_cons_of_pos (by simpa using hc),
        List.filterMap_cons_some (f := fun c : Chunk => lineEntry loads c.text) hmp,
        numbered_cons, List.length_cons]
      obtain ⟨hno, hline⟩ | ⟨hstr, ⟨hlt, st', hline, hst'⟩ | ⟨hfull, hline⟩⟩ :=
        @loadLine_typed loads c st mp hc hmp
      · rw [hline, error_bind]
        exact iff_of_false nofun fun h => hno (h.1.1 hc)
      · have hlen : st'.mounts.length = st.mounts.length + 1 := by simp [hst']
        rw [hline, ok_bind]
        dsimp only
        rw [ih (by omega) hcs', hlen, hst', List.append_assoc, List.singleton_append]
        constructor
        · rintro ⟨hall, hle, hr⟩
          exact ⟨⟨fun _ => hstr, hall⟩, by omega, hr⟩
        · rintro ⟨⟨-, hall⟩, hle, hr⟩
          exact ⟨hall, by omega, hr⟩
      · rw [hline, error_bind]
        exact iff_of_false nofun fun h => absurd h.2.1 (by omega)
    · rw [if_neg hc, List.filter_cons_of_neg (by simpa using hc), ih hroom hcs']
      constructor
      · rintro ⟨hall, hrest⟩
        exact ⟨⟨fun h => absurd h hc, hall⟩, hrest⟩
      · rintro ⟨⟨-, hall⟩, hrest⟩
        exact ⟨hall, hrest⟩

/-! Which chunks are taken for mounts. -/

theorem mem_lineChunks {c : Chunk} : c ∈ lineChunks pos line ↔
    ∃ j < (line.length + BUFFER_SIZE - 1) / BUFFER_SIZE, c = chunkAt pos line j := by
  simp [lineChunks, eq_comm]

theorem lineChunks_pos {c : Chunk} (h : c ∈ lineChunks pos line) :
    pos ≤ c.pos ∧ c.pos < pos + line.length + 1 := by
  obtain ⟨j, hj, rfl⟩ := mem_lineChunks.mp h
  unfold chunkAt
  unfold BUFFER_SIZE at *
  simp only
  omega

theorem chunksFrom_pos {c : Chunk} (h : c ∈ chunksFrom pos lines) : pos ≤ c.pos := by
  induction lines generalizing pos with
  | nil => cases h
  | cons line lines ih =>
    rw [chunksFrom, List.mem_append] at h
    obtain h | h := h
    · exact (lineChunks_pos h).1
    · split_ifs at h
      · cases h
      · have := ih h
        omega

theorem linesAt_pos {l : ℕ × List UInt8} (h : l ∈ linesAt pos lines) : pos ≤ l.1 := by
  induction lines generalizing pos with
  | nil => cases h
  | cons line lines ih =>
    rw [linesAt, List.mem_cons] at h
    obtain rfl | h := h
    · exact le_rfl
    · have := ih h
      omega

theorem linesAt_map_snd : (linesAt pos lines).map Prod.snd = lines := by
  induction lines generalizing pos with
  | nil => rfl
  | cons line lines ih => rw [linesAt, List.map_cons, ih]

theorem append_eq_append_of_keys {α : Type} {a b a' b' : List (ℕ × α)} {m : ℕ}
    (ha : ∀ x ∈ a, x.1 < m) (hb : ∀ x ∈ b, m ≤ x.1) (ha' : ∀ x ∈ a', x.1 < m)
    (hb' : ∀ x ∈ b', m ≤ x.1) : a ++ b = a' ++ b' ↔ a = a' ∧ b = b' := by
  have hlow (u v : List (ℕ × α)) (hu : ∀ x ∈ u, x.1 < m) (hv : ∀ x ∈ v, m ≤ x.1) :
      (u ++ v).filter (fun x => decide (x.1 < m)) = u := by
    rw [List.filter_append, List.filter_eq_self.mpr fun x hx => by simpa using hu x hx,
      List.filter_eq_nil_iff.mpr fun x hx => by simpa using hv x hx, List.append_nil]
  constructor
  · intro h
    have hfront : a = a' := by rw [← hlow a b ha hb, h, hlow a' b' ha' hb']
    subst hfront
    exact ⟨rfl, List.append_cancel_left h⟩
  · rintro ⟨rfl, rfl⟩
    rfl

theorem forall_lineChunks {P : List UInt8 → Bool → Prop} :
    (∀ c ∈ lineChunks pos line, P c.text c.ended) ↔ ∀ c ∈ lineChunks 0 line, P c.text c.ended := by
  simp only [lineChunks, List.mem_map, forall_exists_index, and_imp, forall_apply_eq_imp_iff₂]
  rfl

theorem forall_chunksFrom {P : List UInt8 → Bool → Prop} :
    (∀ c ∈ chunksFrom pos lines, P c.text c.ended) ↔
      ∀ line ∈ reached lines, ∀ c ∈ lineChunks 0 line, P c.text c.ended := by
  induction lines generalizing pos with
  | nil => exact iff_of_true nofun nofun
  | cons line lines ih =>
    rw [chunksFrom, reached, List.forall_mem_append, List.forall_mem_cons, forall_lineChunks]
    refine and_congr_right fun _ => ?_
    split_ifs
    · exact iff_of_true nofun nofun
    · exact ih

def Chunk.key (c : Chunk) : ℕ × List UInt8 := (c.pos, c.text)

/-- What a line contributes when it is taken as a whole or not at all. -/
theorem line_taken_iff (hne : line ≠ [])
    (hlong : IsDefuse line → mountType <+: line → mountType.length < line.length) :
    ((lineChunks pos line).filter Chunk.Typed).map Chunk.key =
        (if IsDefuse line then [(pos, line)] else []) ↔
      (∀ c ∈ lineChunks 0 line, c.Typed → IsDefuse line ∧ c.text = line) ∧
        (IsDefuse line → mountType <+: line) := by
  have hshift : (∀ c ∈ lineChunks pos line, c.Typed → IsDefuse line ∧ c.text = line) ↔
      ∀ c ∈ lineChunks 0 line, c.Typed → IsDefuse line ∧ c.text = line :=
    forall_lineChunks (P := fun text _ => mountType.length < text.length ∧ mountType <+: text →
      IsDefuse line ∧ text = line)
  rw [← hshift]
  by_cases hd : IsDefuse line
  · rw [if_pos hd]
    simp only [hd, true_and, true_implies]
    constructor
    · intro h
      refine ⟨fun c hc htyped => ?_, ?_⟩
      · have hmem : c.key ∈ ((lineChunks pos line).filter Chunk.Typed).map Chunk.key :=
          List.mem_map_of_mem (List.mem_filter.mpr ⟨hc, by simpa using htyped⟩)
        rw [h, List.mem_singleton] at hmem
        exact (Prod.mk.inj hmem).2
      · have hmem : (pos, line) ∈ ((lineChunks pos line).filter Chunk.Typed).map Chunk.key := by
          rw [h]
          exact List.mem_singleton_self _
        obtain ⟨c, hc, hkey⟩ := List.mem_map.mp hmem
        have htyped : c.Typed := by simpa using (List.mem_filter.mp hc).2
        rw [← (Prod.mk.inj hkey).2]
        exact htyped.2
    · rintro ⟨hwhole, hfront⟩
      -- the first chunk starts like the line, so it is the line
      have hlen : line.length ≤ BUFFER_SIZE := by
        by_contra hgt
        rw [not_le] at hgt
        have hfirst : (⟨pos, line.take BUFFER_SIZE, false⟩ : Chunk) ∈ lineChunks pos line := by
          rw [lineChunks_long hgt]
          exact List.mem_cons_self
        have htake : (line.take BUFFER_SIZE).length = BUFFER_SIZE := by
          rw [List.length_take, Nat.min_eq_left hgt.le]
        have htyped : Chunk.Typed ⟨pos, line.take BUFFER_SIZE, false⟩ := by
          refine ⟨by rw [htake]; decide, ?_⟩
          exact List.prefix_take_iff.mpr ⟨hfront, by decide⟩
        have hsame := congrArg List.length (hwhole _ hfirst htyped)
        simp only [htake] at hsame
        omega
      have htyped : Chunk.Typed ⟨pos, line, decide (line.length < BUFFER_SIZE)⟩ :=
        ⟨hlong hd hfront, hfront⟩
      rw [lineChunks_one hne hlen, List.filter_cons_of_pos (by simpa using htyped)]
      rfl
  · rw [if_neg hd, List.map_eq_nil_iff, List.filter_eq_nil_iff]
    simp only [hd, false_and, false_implies, and_true, imp_false, decide_eq_true_eq]

theorem taken_iff (hne : ∀ line ∈ lines, line ≠ [])
    (hlong : ∀ line ∈ lines, IsDefuse line → mountType <+: line →
      mountType.length < line.length) :
    ((chunksFrom pos lines).filter Chunk.Typed).map Chunk.key =
        (linesAt pos lines).filter (fun l => IsDefuse l.2) ↔
      (∀ line ∈ reached lines, ∀ c ∈ lineChunks 0 line, c.Typed → IsDefuse line ∧ c.text = line) ∧
        (∀ line ∈ reached lines, IsDefuse line → mountType <+: line) ∧
        ∀ line ∈ lines.drop (reached lines).length, ¬ IsDefuse line := by
  induction lines generalizing pos with
  | nil => exact iff_of_true rfl ⟨nofun, nofun, nofun⟩
  | cons line lines ih =>
    have hrest := fun pos' => @ih pos' (fun l hl => hne l (List.mem_cons_of_mem _ hl))
      fun l hl => hlong l (List.mem_cons_of_mem _ hl)
    have hfilter : (linesAt pos (line :: lines)).filter (fun l => IsDefuse l.2) =
        (if IsDefuse line then [(pos, line)] else []) ++
          (linesAt (pos + line.length + 1) lines).filter fun l => IsDefuse l.2 := by
      rw [linesAt, List.filter_cons]
      by_cases hd : IsDefuse line
      · simp [hd]
      · simp [hd]
    have hchunks : ∀ x ∈ ((lineChunks pos line).filter Chunk.Typed).map Chunk.key,
        x.1 < pos + line.length + 1 := by
      intro x hx
      obtain ⟨c, hc, rfl⟩ := List.mem_map.mp hx
      exact (lineChunks_pos (List.mem_filter.mp hc).1).2
    have hlater : ∀ x ∈ (linesAt (pos + line.length + 1) lines).filter (fun l => IsDefuse l.2),
        pos + line.length + 1 ≤ x.1 := fun x hx => linesAt_pos (List.mem_filter.mp hx).1
    have hself : ∀ x ∈ (if IsDefuse line then [(pos, line)] else []),
        x.1 < pos + line.length + 1 := by
      intro x hx
      split_ifs at hx
      · rw [List.mem_singleton.mp hx]
        show pos < pos + line.length + 1
        omega
      · cases hx
    rw [hfilter, chunksFrom, List.filter_append, List.map_append, reached, List.forall_mem_cons,
      List.forall_mem_cons]
    by_cases hdvd : BUFFER_SIZE ∣ line.length
    · -- nothing behind this line is read
      simp only [if_pos hdvd]
      rw [List.filter_nil, List.map_nil, append_eq_append_of_keys hchunks
          (fun x hx => absurd hx List.not_mem_nil) hself hlater, line_taken_iff
          (hne line List.mem_cons_self) (hlong line List.mem_cons_self)]
      have hsnd : (linesAt (pos + line.length + 1) lines).map Prod.snd = lines := linesAt_map_snd
      have hnone : [] = (linesAt (pos + line.length + 1) lines).filter (fun l => IsDefuse l.2) ↔
          ∀ l ∈ lines, ¬ IsDefuse l := by
        rw [eq_comm, List.filter_eq_nil_iff]
        simp only [decide_eq_true_eq]
        constructor
        · intro h l hl
          rw [← hsnd] at hl
          obtain ⟨x, hx, rfl⟩ := List.mem_map.mp hl
          exact h x hx
        · intro h x hx
          refine h x.2 ?_
          have := List.mem_map_of_mem (f := Prod.snd) hx
          rwa [hsnd] at this
      rw [hnone]
      simp only [List.not_mem_nil, false_implies, implies_true, and_true, List.length_singleton,
        List.drop_one, List.tail_cons, and_assoc]
    · simp only [if_neg hdvd]
      have hbehind : ∀ x ∈ ((chunksFrom (pos + line.length + 1) lines).filter Chunk.Typed).map
          Chunk.key, pos + line.length + 1 ≤ x.1 := by
        intro x hx
        obtain ⟨c, hc, rfl⟩ := List.mem_map.mp hx
        exact chunksFrom_pos (List.mem_filter.mp hc).1
      rw [append_eq_append_of_keys hchunks hbehind hself hlater, line_taken_iff
          (hne line List.mem_cons_self) (hlong line List.mem_cons_self),
        hrest, List.length_cons, List.drop_succ_cons]
      constructor
      · rintro ⟨⟨h1, h2⟩, h3, h4, h5⟩
        exact ⟨⟨h1, h3⟩, ⟨h2, h4⟩, h5⟩
      · rintro ⟨⟨h1, h3⟩, ⟨h2, h4⟩, h5⟩
        exact ⟨⟨h1, h2⟩, h3, h4, h5⟩

theorem entry_longer (hfront : mountType <+: line) (h : lineEntry loads line ≠ none) :
    mountType.length < line.length := by
  by_contra hle
  refine h ?_
  have hshort : (lineText line).length ≤ mountType.length :=
    (List.takeWhile_sublist _).length_le.trans (not_lt.mp hle)
  rw [lineEntry, dropWhile_blank hfront]
  simp only [List.drop_eq_nil_of_le hshort]
  rfl

theorem loadMountsFromFile_eq (h : MountsContent loads lines) :
    loadMountsFromFile loads (fileOf lines) = process loads (chunksFrom 0 lines) {} := by
  rw [loadMountsFromFile, loadLines_eq_process (Nat.lt_succ_self _),
    readChunks_lines h.nonempty h.newline (Nat.lt_succ_self _)]

theorem handed_eq (h : MountsContent loads lines) :
    handed (fileOf lines) = (chunksFrom 0 lines).filter Chunk.Typed := by
  rw [handed, readChunks_lines h.nonempty h.newline (Nat.lt_succ_self _)]

/-- When the chunks taken are the lines of type `defuse`, the array is the expected one if
every chunk taken is a string and there is room for all. -/
theorem array_iff (h : MountsContent loads lines)
    (htaken : ((chunksFrom 0 lines).filter Chunk.Typed).map Chunk.key =
      (linesAt 0 lines).filter fun l => IsDefuse l.2) :
    loadMountsFromFile loads (fileOf lines) = .ok (.ok (expectedMounts loads lines)) ↔
      (∀ c ∈ chunksFrom 0 lines, c.Typed → c.ended ∨ 0 ∈ c.text) ∧
        (lines.filter IsDefuse).length ≤ MAX_MOUNTS := by
  have htexts : ((chunksFrom 0 lines).filter Chunk.Typed).map Chunk.text =
      lines.filter IsDefuse := by
    have hsnd : (linesAt 0 lines).map Prod.snd = lines := linesAt_map_snd
    have := congrArg (List.map Prod.snd) htaken
    rw [List.map_map] at this
    refine this.trans ?_
    conv_rhs => rw [← hsnd, List.filter_map]
    rfl
  have hentries : ((chunksFrom 0 lines).filter Chunk.Typed).filterMap
      (fun c => lineEntry loads c.text) = (lines.filter IsDefuse).filterMap (lineEntry loads) := by
    rw [← htexts, List.filterMap_map]
    rfl
  have hlen : ((chunksFrom 0 lines).filter Chunk.Typed).length =
      (lines.filter IsDefuse).length := by
    rw [← htexts, List.length_map]
  have hcomplete : ∀ c ∈ chunksFrom 0 lines, c.Typed → lineEntry loads c.text ≠ none := by
    intro c hc htyped
    have hmem : c.text ∈ ((chunksFrom 0 lines).filter Chunk.Typed).map Chunk.text :=
      List.mem_map_of_mem (List.mem_filter.mpr ⟨hc, by simpa using htyped⟩)
    rw [htexts, List.mem_filter] at hmem
    exact h.complete _ hmem.1 (by simpa using hmem.2)
  rw [loadMountsFromFile_eq h, process_ok_iff (Nat.zero_le _) hcomplete, hentries, hlen]
  simp only [List.length_nil, Nat.zero_add, List.nil_append, expectedMounts, and_true]

/-- A file of non-empty lines, those of type `defuse` complete and loading, is read
completely and exactly when no chunk of a line that is reached looks like a mount, except
for the lines of type `defuse`, each in one chunk; none of these lies behind a line that
fills its last chunk; and they all fit the array. -/
theorem read_exactly_iff (loads : List UInt8 → Bool) (lines : List (List UInt8))
    (h : MountsContent loads lines) : ReadExactly loads lines ↔ ReadsWhole lines := by
  have htaken := @taken_iff lines 0 h.nonempty fun line hline hd hfront =>
    entry_longer hfront (h.complete line hline hd)
  have hstrings : (∀ c ∈ chunksFrom 0 lines, c.Typed → c.ended ∨ 0 ∈ c.text) ↔
      ∀ line ∈ reached lines, ∀ c ∈ lineChunks 0 line, c.Typed → c.ended ∨ 0 ∈ c.text :=
    forall_chunksFrom (P := fun text ended =>
      mountType.length < text.length ∧ mountType <+: text → ended ∨ 0 ∈ text)
  constructor
  · intro hread
    have hkeys := hread.taken
    rw [handed_eq h] at hkeys
    obtain ⟨hwhole, hfront, hunread⟩ := htaken.mp hkeys
    obtain ⟨hstr, hroom⟩ := (array_iff h hkeys).mp hread.array
    refine ⟨fun line hline c hc htyped => ?_, hfront, hunread, hroom⟩
    obtain ⟨hd, htext⟩ := hwhole line hline c hc htyped
    have hzero := hstrings.mp hstr line hline c hc htyped
    rw [htext] at hzero
    exact ⟨hd, htext, hzero⟩
  · intro hw
    have hkeys := htaken.mpr ⟨fun line hline c hc htyped =>
      let ⟨hd, htext, _⟩ := hw.whole line hline c hc htyped
      ⟨hd, htext⟩, hw.front, hw.unread⟩
    refine ⟨(array_iff h hkeys).mpr ⟨hstrings.mpr ?_, hw.room⟩, ?_⟩
    · intro line hline c hc htyped
      obtain ⟨-, htext, hzero⟩ := hw.whole line hline c hc htyped
      rw [htext]
      exact hzero
    · rw [handed_eq h]
      exact hkeys

/-- `proc /proc`, and `defuse /a backend=b,library=l`. -/
def plainLines : List (List UInt8) :=
  [[0x70, 0x72, 0x6f, 0x63, 0x20, 0x2f, 0x70, 0x72, 0x6f, 0x63],
    mountType ++ [0x20, 0x2f, 0x61, 0x20] ++ backendKey ++ [0x62, 0x2c] ++ libraryKey ++ [0x6c]]

theorem read_exactly_plain : ReadExactly (fun _ => true) plainLines :=
  (read_exactly_iff _ plainLines ⟨by decide +kernel, by decide +kernel, by decide +kernel⟩).mpr
    ⟨by decide +kernel, by decide +kernel, by decide +kernel, by decide +kernel⟩

/-- `defusefs /a backend=b,library=l`, of another type. -/
def otherType : List UInt8 :=
  mountType ++ [0x66, 0x73, 0x20, 0x2f, 0x61, 0x20] ++ backendKey ++ [0x62, 0x2c] ++ libraryKey ++
    [0x6c]

/-- A line of type `defusefs` becomes a mount of type `defuse` on `fs`. -/
theorem other_type_mounted : MountsContent (fun _ => true) [otherType] ∧
    expectedMounts (fun _ => true) [otherType] = [] ∧
    loadMountsFromFile (fun _ => true) (fileOf [otherType]) =
      .ok (.ok [⟨0, [0x66, 0x73], [0x62], [0x6c]⟩]) ∧
    ¬ ReadExactly (fun _ => true) [otherType] := by
  have hload : loadMountsFromFile (fun _ => true) (fileOf [otherType]) =
      .ok (.ok [⟨0, [0x66, 0x73], [0x62], [0x6c]⟩]) := by
    decide +kernel
  have hnone : expectedMounts (fun _ => true) [otherType] = [] := by decide +kernel
  refine ⟨⟨by decide +kernel, by decide +kernel, by decide +kernel⟩, hnone, hload, fun hread => ?_⟩
  have harray := hread.array
  rw [hload, hnone] at harray
  cases harray

end Defuse
