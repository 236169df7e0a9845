import Defuse.Lib.Strings
import Mathlib.Data.List.TakeWhile

/-! The conversions of `sscanf`, and where a search for a marker ends in a text that was
put together from pieces. -/

namespace CSem

/-- `isspace` in the C locale. -/
def isSpace (c : UInt8) : Bool := c = 0x20 || (0x09 ≤ c && c ≤ 0x0d)

/-- `%s`, which skips leading spaces; `none` when the input ends before a byte is read. -/
def scanWord (s : List UInt8) : Option (List UInt8) :=
  let word := (s.dropWhile isSpace).takeWhile (!isSpace ·)
  if word = [] then none else some word

/-- What a conversion has done when `sscanf` returns: the input had ended, its first byte
did not match, or a text was stored. -/
inductive Scanned
  | eof
  | mismatch
  | assigned (text : List UInt8)
  deriving DecidableEq, Repr

/-- `%[^stops]`. -/
def scanUntil (stops : List UInt8) : List UInt8 → Scanned
  | [] => .eof
  | c :: cs =>
    if c ∈ stops then .mismatch else .assigned ((c :: cs).takeWhile (· ∉ stops))

variable {s w key name rest before stops : List UInt8}

theorem scanWord_some (h : scanWord s = some w) : w ≠ [] ∧ (∀ c ∈ w, isSpace c = false) ∧ w ⊆ s := by
  simp only [scanWord] at h
  split_ifs at h with hw
  obtain rfl := Option.some.inj h
  refine ⟨hw, fun c hc => ?_, ?_⟩
  · simpa using List.mem_takeWhile_imp hc
  · exact fun c hc => (List.dropWhile_sublist _).subset ((List.takeWhile_sublist _).subset hc)

/-- A word between two spaces. -/
theorem scanWord_between (hne : w ≠ []) (hw : ∀ c ∈ w, isSpace c = false) (rest : List UInt8) :
    scanWord (0x20 :: (w ++ 0x20 :: rest)) = some w := by
  have hdrop : (0x20 :: (w ++ 0x20 :: rest)).dropWhile isSpace = w ++ 0x20 :: rest := by
    obtain ⟨c, cs, rfl⟩ := List.exists_cons_of_ne_nil hne
    have hc := hw c List.mem_cons_self
    rw [List.dropWhile_cons_of_pos (by decide), List.cons_append,
      List.dropWhile_cons_of_neg (by simp [hc])]
  have htake : (w ++ 0x20 :: rest).takeWhile (!isSpace ·) = w := by
    rw [List.takeWhile_append_of_pos fun c hc => by simp [hw c hc],
      List.takeWhile_cons_of_neg (by decide), List.append_nil]
  simp only [scanWord, hdrop, htake, if_neg hne]

theorem scanUntil_assigned_iff :
    scanUntil stops s = .assigned w ↔ w ≠ [] ∧ s.takeWhile (· ∉ stops) = w := by
  cases s with
  | nil => simp [scanUntil, eq_comm]
  | cons c cs =>
    simp only [scanUntil]
    split_ifs with hc
    · rw [List.takeWhile_cons_of_neg (by simp [hc])]
      simp only [false_iff, not_and]
      exact fun hw h => hw h.symm
    · rw [Scanned.assigned.injEq, iff_and_self]
      rintro rfl
      rw [List.takeWhile_cons_of_pos (by simp [hc])]
      exact List.cons_ne_nil c _

theorem takeWhile_field {c : UInt8} (hw : ∀ b ∈ w, b ∉ stops) (hc : c ∈ stops)
    (rest : List UInt8) : (w ++ c :: rest).takeWhile (· ∉ stops) = w := by
  rw [List.takeWhile_append_of_pos fun b hb => by simp [hw b hb],
    List.takeWhile_cons_of_neg (by simp [hc]), List.append_nil]

/-- Nothing behind a stop is read. -/
theorem takeWhile_append_of_stop {c : UInt8} (hs : c ∈ s) (hc : c ∈ stops) (rest : List UInt8) :
    (s ++ rest).takeWhile (· ∉ stops) = s.takeWhile (· ∉ stops) := by
  obtain ⟨u, v, rfl⟩ := List.append_of_mem hs
  induction u with
  | nil =>
    rw [List.nil_append, List.cons_append, List.takeWhile_cons_of_neg (by simp [hc]),
      List.takeWhile_cons_of_neg (by simp [hc])]
  | cons b u ih =>
    by_cases hb : b ∈ stops
    · simp [hb]
    · simp only [List.cons_append, List.takeWhile_cons, ih (by simp)]

theorem strstr_some {k : ℕ} (h : strstr s key = some k) : key <+: s.drop k := by
  induction s generalizing k with
  | nil =>
    simp only [strstr] at h
    split_ifs at h with hkey
    simp [hkey]
  | cons c cs ih =>
    simp only [strstr] at h
    split_ifs at h with hkey
    · obtain rfl := Option.some.inj h
      exact hkey
    · obtain ⟨j, hj, rfl⟩ := Option.map_eq_some_iff.mp h
      exact ih hj

/-- A marker does not overlap itself, so one that starts in front of another one also ends
there. -/
theorem marker_prefix_iff {e : UInt8} (he : e ∉ name) (hne : before ≠ []) (rest : List UInt8) :
    name ++ [e] <+: before ++ ((name ++ [e]) ++ rest) ↔ name ++ [e] <+: before := by
  refine ⟨fun h => ?_, fun h => h.trans (List.prefix_append _ _)⟩
  by_cases hlen : (name ++ [e]).length ≤ before.length
  · exact List.prefix_of_prefix_length_le h (List.prefix_append _ _) hlen
  -- otherwise the last byte of the first marker lies inside the name of the second one
  exfalso
  obtain ⟨u, hu⟩ := List.prefix_of_prefix_length_le (List.prefix_append before _) h
    (not_le.mp hlen).le
  have hinside : u <+: name ++ [e] ++ rest := by
    rw [← List.prefix_append_right_inj before, hu]
    exact h
  have hlast : u.getLast? = some e := by
    have hmem : u ≠ [] := by
      rintro rfl
      rw [List.append_nil] at hu
      exact hlen (le_of_eq (congrArg List.length hu.symm))
    rw [← List.getLast?_append_of_ne_nil before hmem, hu, List.getLast?_concat]
  have hshort : u.length ≤ name.length := by
    have h1 := congrArg List.length hu
    have h2 := List.length_pos_of_ne_nil hne
    simp only [List.length_append, List.length_singleton] at h1
    omega
  have hname : u <+: name := by
    refine List.prefix_of_prefix_length_le hinside ?_ hshort
    rw [List.append_assoc]
    exact List.prefix_append _ _
  exact he (hname.subset (List.mem_of_getLast? hlast))

/-- The first marker in a text with one at a known place. -/
theorem strstr_marker {e : UInt8} (he : e ∉ name) (before rest : List UInt8) :
    strstr (before ++ ((name ++ [e]) ++ rest)) (name ++ [e]) =
      some ((strstr before (name ++ [e])).getD before.length) := by
  induction before with
  | nil =>
    have hnil : strstr [] (name ++ [e]) = none := if_neg (by simp)
    rw [hnil, Option.getD_none, List.length_nil, strstr_eq_zero_iff]
    exact List.prefix_append _ _
  | cons c cs ih =>
    have hpre := marker_prefix_iff he (List.cons_ne_nil c cs) rest
    rw [List.cons_append] at hpre
    rw [List.cons_append, strstr, strstr]
    by_cases h : name ++ [e] <+: c :: cs
    · rw [if_pos (hpre.mpr h), if_pos h, Option.getD_some]
    · rw [if_neg fun h' => h (hpre.mp h'), if_neg h, ih]
      cases strstr cs (name ++ [e]) <;> rfl

/-- The pieces of a split text have no separator. -/
theorem mem_splitOn {sep : UInt8} {g : List UInt8} (h : g ∈ s.splitOn sep) : sep ∉ g ∧ g ⊆ s := by
  unfold List.splitOn at h
  induction s generalizing g with
  | nil =>
    rw [List.splitOnP_nil, List.mem_singleton] at h
    simp [h]
  | cons c cs ih =>
    rw [List.splitOnP_cons_eq_if_modifyHead] at h
    split_ifs at h with hc
    · rcases List.mem_cons.mp h with rfl | h
      · simp
      · exact ⟨(ih h).1, fun b hb => List.mem_cons_of_mem c ((ih h).2 hb)⟩
    · obtain ⟨g', gs, hcs⟩ := List.exists_cons_of_ne_nil (List.splitOnP_ne_nil (· == sep) cs)
      rw [hcs, List.modifyHead_cons] at h
      rw [hcs] at ih
      rcases List.mem_cons.mp h with rfl | h
      · obtain ⟨hsep, hsub⟩ := ih List.mem_cons_self
        refine ⟨?_, List.cons_subset_cons c hsub⟩
        rw [List.mem_cons, not_or]
        exact ⟨fun heq => hc (by simp [heq]), hsep⟩
      · obtain ⟨hsep, hsub⟩ := ih (List.mem_cons_of_mem g' h)
        exact ⟨hsep, fun b hb => List.mem_cons_of_mem c (hsub hb)⟩

end CSem
