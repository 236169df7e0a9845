import Mathlib.Tactic.Common
import Mathlib.Tactic.Ring

/-! Numbers as groups of seven bits, the lowest first, every byte but the last with its high
bit set. -/

namespace CSem

def leb128 (n : ℕ) : List UInt8 :=
  if n < 128 then [UInt8.ofNat n] else UInt8.ofNat (n % 128 + 128) :: leb128 (n / 128)
termination_by n
decreasing_by omega

theorem leb128_small {n : ℕ} (h : n < 128) : leb128 n = [UInt8.ofNat n] := by
  rw [leb128, if_pos h]

theorem leb128_large {n : ℕ} (h : 128 ≤ n) :
    leb128 n = UInt8.ofNat (n % 128 + 128) :: leb128 (n / 128) := by
  rw [leb128, if_neg (by omega)]

theorem leb128_length_pos (n : ℕ) : 0 < (leb128 n).length := by
  rw [leb128]
  split_ifs <;> simp

/-- More than `k` bytes are used exactly for the numbers that `k` groups cannot hold. -/
theorem lt_leb128_length_iff {k : ℕ} (hk : 0 < k) (n : ℕ) :
    k < (leb128 n).length ↔ 128 ^ k ≤ n := by
  induction k, hk using Nat.le_induction generalizing n with
  | base =>
    rcases Nat.lt_or_ge n 128 with h | h
    · rw [leb128_small h, List.length_singleton]
      omega
    · have := leb128_length_pos (n / 128)
      rw [leb128_large h, List.length_cons]
      omega
  | succ k hk ih =>
    rcases Nat.lt_or_ge n 128 with h | h
    · have hpow : 128 ^ 1 ≤ 128 ^ (k + 1) := Nat.pow_le_pow_right (by omega) (by omega)
      rw [leb128_small h, List.length_singleton]
      omega
    · rw [leb128_large h, List.length_cons, Nat.succ_lt_succ_iff, ih,
        Nat.le_div_iff_mul_le (by omega), pow_succ]

end CSem
