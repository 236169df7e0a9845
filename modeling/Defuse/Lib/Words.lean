import Defuse.Lib.Checked
import Mathlib.Tactic.Ring

/-! Memory as a byte list: what lies at an offset, loads of 64-bit words and of
strings, and the conversions of C's integer types. -/

namespace CSem

def INT_MAX : ℤ := 2 ^ 31 - 1

/-- Conversion to a 32-bit `int`. -/
def asInt (n : ℤ) : ℤ := n.bmod (2 ^ 32)

/-- Conversion to a 64-bit unsigned integer. -/
def asU64 (n : ℤ) : ℕ := (n % 2 ^ 64).toNat

/-- Conversion to a 64-bit signed integer. -/
def asI64 (n : ℤ) : ℤ := n.bmod (2 ^ 64)

theorem asInt_of_le {n : ℤ} (h0 : 0 ≤ n) (h : n ≤ INT_MAX) : asInt n = n := by
  unfold asInt INT_MAX at *
  rw [Int.bmod_eq_of_le] <;> omega

theorem asInt_le (n : ℤ) : asInt n ≤ INT_MAX := by
  have := Int.bmod_lt (x := n) (m := 2 ^ 32) (by norm_num)
  unfold asInt INT_MAX
  omega

theorem asI64_natCast {n : ℕ} (h : n < 2 ^ 63) : asI64 n = n := by
  unfold asI64
  rw [Int.bmod_eq_of_le] <;> omega

theorem asI64_neg {n : ℕ} (h : 2 ^ 63 ≤ n) (h' : n < 2 ^ 64) : asI64 n < 0 := by
  unfold asI64
  rw [Int.bmod_def]
  split_ifs <;> omega

theorem asI64_asU64 {n : ℤ} (h : -2 ^ 63 ≤ n) (h' : n < 2 ^ 63) : asI64 (asU64 n) = n := by
  unfold asI64 asU64
  rw [Int.toNat_of_nonneg (Int.emod_nonneg n (by norm_num)),
    show (2 : ℤ) ^ 64 = ((2 ^ 64 : ℕ) : ℤ) by norm_num, Int.emod_bmod, Int.bmod_eq_of_le] <;> omega

theorem le_asInt (n : ℤ) : -INT_MAX - 1 ≤ asInt n := by
  have := Int.le_bmod (x := n) (m := 2 ^ 32) (by norm_num)
  unfold asInt INT_MAX
  omega

/-- `-n` for an `int`. -/
def negInt (n : ℤ) : Checked ℤ := if n = -INT_MAX - 1 then .error .intOverflow else .ok (-n)

theorem negInt_ok {n : ℤ} (h : -INT_MAX ≤ n) : negInt n = .ok (-n) := if_neg (by omega)

theorem asU64_natCast {n : ℕ} (h : n < 2 ^ 64) : asU64 n = n := by
  unfold asU64
  omega

/-- The `k` low bytes of `n`, the lowest first. -/
def leBytes : ℕ → ℕ → List UInt8
  | 0, _ => []
  | k + 1, n => UInt8.ofNat (n % 256) :: leBytes k (n / 256)

def leNat : List UInt8 → ℕ
  | [] => 0
  | b :: bs => b.toNat + 256 * leNat bs

@[simp] theorem leBytes_length (k n : ℕ) : (leBytes k n).length = k := by
  induction k generalizing n with
  | zero => rfl
  | succ k ih => simp [leBytes, ih]

theorem leNat_leBytes (k n : ℕ) : leNat (leBytes k n) = n % 256 ^ k := by
  induction k generalizing n with
  | zero => simp [leBytes, leNat, Nat.mod_one]
  | succ k ih =>
    simp only [leBytes, leNat, ih]
    rw [UInt8.toNat_ofNat_of_lt' (Nat.mod_lt _ (by decide)), pow_succ, mul_comm (256 ^ k),
      Nat.mod_mul]

theorem leBytes_zero (k : ℕ) : leBytes k 0 = List.replicate k 0 := by
  induction k with
  | zero => rfl
  | succ k ih => simp [leBytes, ih, List.replicate_succ]

/-- `bytes` stand at offset `off` of `mem`. -/
def At (mem : List UInt8) (off : ℕ) (bytes : List UInt8) : Prop :=
  ∃ pre post, mem = pre ++ bytes ++ post ∧ pre.length = off

variable {mem a b : List UInt8} {off : ℕ}

theorem At.left (h : At mem off (a ++ b)) : At mem off a := by
  obtain ⟨pre, post, rfl, rfl⟩ := h
  exact ⟨pre, b ++ post, by simp, rfl⟩

theorem At.right (h : At mem off (a ++ b)) : At mem (off + a.length) b := by
  obtain ⟨pre, post, rfl, rfl⟩ := h
  exact ⟨pre ++ a, post, by simp, by simp⟩

theorem At.drop (h : At mem off a) : ∃ post, mem.drop off = a ++ post := by
  obtain ⟨pre, post, rfl, rfl⟩ := h
  exact ⟨post, by simp⟩

theorem At.length_le (h : At mem off a) : off + a.length ≤ mem.length := by
  obtain ⟨pre, post, rfl, rfl⟩ := h
  simp

/-- Load a 64-bit word. -/
def load64 (mem : List UInt8) (off : ℕ) : Checked ℕ :=
  if off + 8 ≤ mem.length then .ok (leNat ((mem.drop off).take 8)) else .error .outOfBounds

theorem At.load64 {n : ℕ} (h : At mem off (leBytes 8 n)) (hn : n < 2 ^ 64) :
    load64 mem off = .ok n := by
  have hle := h.length_le
  obtain ⟨post, hpost⟩ := h.drop
  rw [leBytes_length] at hle
  unfold CSem.load64
  rw [if_pos hle, hpost, List.take_left' (leBytes_length 8 n), leNat_leBytes,
    Nat.mod_eq_of_lt (by norm_num; exact hn)]

/-- Load the string that starts at `off`, up to its terminator. -/
def loadString (mem : List UInt8) (off : ℕ) : Checked (List UInt8) :=
  if 0 ∈ mem.drop off then .ok ((mem.drop off).takeWhile (· ≠ 0)) else .error .outOfBounds

theorem At.loadString (h : At mem off (a ++ [0])) (h0 : 0 ∉ a) : loadString mem off = .ok a := by
  obtain ⟨post, hpost⟩ := h.drop
  unfold CSem.loadString
  rw [hpost, if_pos (by simp)]
  congr 1
  rw [List.append_assoc, List.takeWhile_append_of_pos]
  · simp
  · intro x hx
    simp only [ne_eq, decide_not, Bool.not_eq_eq_eq_not, Bool.not_true, decide_eq_false_iff_not]
    rintro rfl
    exact h0 hx

end CSem
