import Defuse.Lib.Words

/-! Strings in fixed character arrays: the copying functions of `string.h` with every
access checked, and what they do to an array that holds a terminated string. -/

namespace CSem

/-- `memmove` inside one array; with a count of zero nothing is touched. -/
def memmove (buf : List UInt8) (dst src : ℤ) (n : ℕ) : Checked (List UInt8) :=
  if n = 0 then .ok buf
  else if 0 ≤ dst ∧ 0 ≤ src ∧ dst + n ≤ buf.length ∧ src + n ≤ buf.length then
    .ok (buf.take dst.toNat ++ (buf.drop src.toNat).take n ++ buf.drop (dst.toNat + n))
  else .error .outOfBounds

def store (buf : List UInt8) (i : ℕ) (c : UInt8) : Checked (List UInt8) :=
  if i < buf.length then .ok (buf.set i c) else .error .outOfBounds

/-- Bytes stored from offset `off` on. -/
def storeAt (buf : List UInt8) (off : ℕ) (bytes : List UInt8) : Checked (List UInt8) :=
  if off + bytes.length ≤ buf.length then
    .ok (buf.take off ++ bytes ++ buf.drop (off + bytes.length))
  else .error .outOfBounds

/-- `strncpy` to offset `off`: at most `n` bytes, padded with zeros to `n`. -/
def strncpy (buf : List UInt8) (off : ℕ) (s : List UInt8) (n : ℕ) : Checked (List UInt8) :=
  if n = 0 then .ok buf
  else if off + n ≤ buf.length then
    .ok (buf.take off ++ (s.take n ++ List.replicate (n - s.length) 0) ++ buf.drop (off + n))
  else .error .outOfBounds

/-- The array holds the string `s`. -/
def HoldsText (buf s : List UInt8) : Prop := (∃ rest, buf = s ++ 0 :: rest) ∧ 0 ∉ s

variable {buf s : List UInt8}

theorem HoldsText.loadString (h : HoldsText buf s) : loadString buf 0 = .ok s := by
  obtain ⟨⟨rest, rfl⟩, h0⟩ := h
  exact At.loadString ⟨[], rest, by simp, rfl⟩ h0

theorem HoldsText.length_lt (h : HoldsText buf s) : s.length < buf.length := by
  obtain ⟨⟨rest, rfl⟩, -⟩ := h
  simp

theorem store_end {u x : List UInt8} (hx : x ≠ []) (h0 : 0 ∉ u) :
    ∃ buf', store (u ++ x) u.length 0 = .ok buf' ∧ HoldsText buf' u ∧
      buf'.length = (u ++ x).length := by
  obtain ⟨c, x, rfl⟩ := List.exists_cons_of_ne_nil hx
  refine ⟨u ++ 0 :: x, ?_, ⟨⟨x, rfl⟩, h0⟩, by simp⟩
  unfold store
  rw [if_pos (by simp)]
  simp

/-- Moving the end of a string forward over `[a, b)` and terminating it anew. -/
theorem memmove_cut {a b n : ℕ} (h : HoldsText buf s) (hab : a ≤ b) (hb : b ≤ s.length)
    (hn : s.length ≤ b + n) (hbound : b + n ≤ buf.length) :
    ∃ buf', (memmove buf a b n >>= fun buf => store buf (s.length - (b - a)) 0) = .ok buf' ∧
      HoldsText buf' (s.take a ++ s.drop b) ∧ buf'.length = buf.length := by
  obtain ⟨⟨rest, hbuf⟩, h0⟩ := h
  have hlen : buf.length = s.length + 1 + rest.length := by
    rw [hbuf, List.length_append, List.length_cons]
    omega
  have hcut : 0 ∉ s.take a ++ s.drop b := by
    intro hmem
    rcases List.mem_append.mp hmem with hm | hm
    · exact h0 (List.mem_of_mem_take hm)
    · exact h0 (List.mem_of_mem_drop hm)
  have hclen : (s.take a ++ s.drop b).length = s.length - (b - a) := by
    simp only [List.length_append, List.length_take, List.length_drop]
    omega
  have hmove : ∃ x, memmove buf a b n = .ok (s.take a ++ s.drop b ++ x) ∧
      (s.take a ++ s.drop b ++ x).length = buf.length := by
    unfold memmove
    split_ifs with hn0 hin
    · obtain rfl : b = s.length := by omega
      refine ⟨s.drop a ++ 0 :: rest, ?_, ?_⟩
      · rw [List.drop_length, List.append_nil, ← List.append_assoc, List.take_append_drop, hbuf]
      · simp [hbuf]
        omega
    · simp only [Int.toNat_natCast]
      have hmid : (buf.drop b).take n = s.drop b ++ (0 :: rest).take (n - (s.length - b)) := by
        rw [hbuf, List.drop_append_of_le_length hb, List.take_append,
          List.take_of_length_le (by simp; omega), List.length_drop]
      have htake : buf.take a = s.take a := by
        rw [hbuf, List.take_append_of_le_length (by omega)]
      refine ⟨(0 :: rest).take (n - (s.length - b)) ++ buf.drop (a + n), ?_, ?_⟩
      · rw [hmid, htake]
        simp
      · simp only [List.length_append, List.length_take, List.length_drop, List.length_cons]
        omega
    · exact absurd ⟨by omega, by omega, by omega, by omega⟩ hin
  obtain ⟨x, hmove, hxlen⟩ := hmove
  have hx : x ≠ [] := by
    rintro rfl
    simp only [List.append_nil] at hxlen
    omega
  obtain ⟨buf', hstore, htext, hlen'⟩ := store_end hx hcut
  refine ⟨buf', ?_, htext, by rw [hlen', hxlen]⟩
  rw [hmove, ok_bind, ← hclen, hstore]

theorem memmove_error {dst src : ℤ} {n : ℕ} (hn : n ≠ 0) (h : (buf.length : ℤ) < src + n) :
    memmove buf dst src n = .error .outOfBounds := by
  unfold memmove
  rw [if_neg hn, if_neg (by omega)]

/-- Copying a string that fits behind what is there already. -/
theorem strncpy_holds {pre t : List UInt8} (hpre : HoldsText buf pre) (ht : 0 ∉ t)
    (hfit : pre.length + t.length < buf.length) :
    ∃ buf', strncpy buf pre.length t (buf.length - pre.length) = .ok buf' ∧
      HoldsText buf' (pre ++ t) ∧ buf'.length = buf.length := by
  obtain ⟨⟨rest, hbuf⟩, h0⟩ := hpre
  obtain ⟨k, hk⟩ : ∃ k, buf.length - pre.length - t.length = k + 1 :=
    ⟨buf.length - pre.length - t.length - 1, by omega⟩
  have htake : buf.take pre.length = pre := by rw [hbuf, List.take_left' rfl]
  refine ⟨pre ++ t ++ 0 :: List.replicate k 0, ?_, ⟨⟨_, rfl⟩, ?_⟩, ?_⟩
  · unfold strncpy
    rw [if_neg (by omega), if_pos (by omega), htake, List.take_of_length_le (by omega), hk,
      List.drop_eq_nil_of_le (by omega), List.replicate_succ]
    simp
  · intro hmem
    rcases List.mem_append.mp hmem with hm | hm
    · exact h0 hm
    · exact ht hm
  · simp only [List.length_append, List.length_cons, List.length_replicate]
    omega

/-- A string that does not fit fills the array and leaves no terminator. -/
theorem strncpy_full {pre t : List UInt8} (hpre : HoldsText buf pre) (ht : 0 ∉ t)
    (hfull : buf.length ≤ pre.length + t.length) :
    ∃ buf', strncpy buf pre.length t (buf.length - pre.length) = .ok buf' ∧ 0 ∉ buf' ∧
      buf'.length = buf.length := by
  have hlt := hpre.length_lt
  obtain ⟨⟨rest, hbuf⟩, h0⟩ := hpre
  have htake : buf.take pre.length = pre := by rw [hbuf, List.take_left' rfl]
  refine ⟨pre ++ t.take (buf.length - pre.length), ?_, ?_, ?_⟩
  · unfold strncpy
    rw [if_neg (by omega), if_pos (by omega), htake,
      show buf.length - pre.length - t.length = 0 by omega, List.drop_eq_nil_of_le (by omega)]
    simp
  · intro hmem
    rcases List.mem_append.mp hmem with hm | hm
    · exact h0 hm
    · exact ht (List.mem_of_mem_take hm)
  · rw [List.length_append, List.length_take]
    omega

theorem strncpy_behind {off : ℕ} (hoff : buf.length ≤ off) (s : List UInt8) (n : ℕ) :
    strncpy buf off s n = if n = 0 then .ok buf else .error .outOfBounds := by
  unfold strncpy
  split_ifs
  · rfl
  · omega
  · rfl

/-- Two arrays that differ at most in `[off, off + n)`. -/
structure AgreeOutside (off n : ℕ) (a b : List UInt8) : Prop where
  length_eq : b.length = a.length
  before : b.take off = a.take off
  behind : b.drop (off + n) = a.drop (off + n)

theorem AgreeOutside.refl (off n : ℕ) (a : List UInt8) : AgreeOutside off n a a := ⟨rfl, rfl, rfl⟩

theorem AgreeOutside.trans {off n : ℕ} {a b c : List UInt8} (h : AgreeOutside off n a b)
    (h' : AgreeOutside off n b c) : AgreeOutside off n a c :=
  ⟨h'.length_eq.trans h.length_eq, h'.before.trans h.before, h'.behind.trans h.behind⟩

theorem AgreeOutside.mono {off n k : ℕ} {a b : List UInt8} (h : AgreeOutside (off + k) (n - k) a b)
    (hk : k ≤ n) : AgreeOutside off n a b := by
  refine ⟨h.length_eq, ?_, ?_⟩
  · have := congrArg (List.take off) h.before
    rw [List.take_take, List.take_take, Nat.min_eq_left (by omega)] at this
    exact this
  · have := h.behind
    rw [show off + k + (n - k) = off + n by omega] at this
    exact this

theorem storeAt_ok {off : ℕ} {bytes : List UInt8} (h : off + bytes.length ≤ buf.length) :
    storeAt buf off bytes = .ok (buf.take off ++ bytes ++ buf.drop (off + bytes.length)) := if_pos h

theorem storeAt_agree {off n : ℕ} {bytes : List UInt8} (hn : bytes.length ≤ n)
    (h : off + n ≤ buf.length) :
    AgreeOutside off n buf (buf.take off ++ bytes ++ buf.drop (off + bytes.length)) := by
  have hlen : (buf.take off).length = off := by
    rw [List.length_take]
    omega
  refine ⟨?_, ?_, ?_⟩
  · simp only [List.length_append, List.length_drop, hlen]
    omega
  · rw [List.append_assoc, List.take_left' hlen]
  · have hlen' : (buf.take off ++ bytes).length = off + bytes.length := by
      rw [List.length_append, hlen]
    rw [show off + n = (buf.take off ++ bytes).length + (n - bytes.length) by omega,
      ← List.drop_drop, List.drop_left, List.drop_drop]
    congr 1
    omega

end CSem
