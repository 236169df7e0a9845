import Mathlib.Algebra.Order.Floor.Div
import Mathlib.Tactic.Common
import Mathlib.Tactic.Ring

/-! A list cut into consecutive chunks of `n` elements, the last one possibly shorter. -/

namespace CSem

variable {α : Type} {n : ℕ} {l : List α}

def chunk (n : ℕ) (l : List α) (i : ℕ) : List α := (l.drop (i * n)).take n

def chunks (n : ℕ) (l : List α) : List (List α) := (List.range (l.length ⌈/⌉ n)).map (chunk n l)

theorem lt_ceilDiv_iff (hn : 0 < n) {len i : ℕ} : i < len ⌈/⌉ n ↔ i * n < len := by
  rw [← not_le, ceilDiv_le_iff_le_mul hn, not_le, Nat.mul_comm]

theorem chunk_length (n : ℕ) (l : List α) (i : ℕ) :
    (chunk n l i).length = min n (l.length - i * n) := by
  unfold chunk
  rw [List.length_take, List.length_drop]

theorem flatten_first_chunks (n : ℕ) (l : List α) (k : ℕ) :
    ((List.range k).map (chunk n l)).flatten = l.take (k * n) := by
  induction k with
  | zero => simp
  | succ k ih =>
    rw [List.range_succ, List.map_append, List.flatten_append, ih, Nat.succ_mul, List.take_add]
    simp [chunk]

theorem chunks_flatten (hn : 0 < n) : (chunks n l).flatten = l := by
  have hcover : l.length ≤ l.length ⌈/⌉ n * n := by
    rw [Nat.mul_comm]
    exact (ceilDiv_le_iff_le_mul hn).mp le_rfl
  rw [chunks, flatten_first_chunks, List.take_of_length_le hcover]

theorem length_of_mem_chunks (hn : 0 < n) {c : List α} (hc : c ∈ chunks n l) :
    0 < c.length ∧ c.length ≤ n := by
  obtain ⟨i, hi, rfl⟩ := List.mem_map.mp hc
  rw [List.mem_range, lt_ceilDiv_iff hn] at hi
  rw [chunk_length]
  omega

theorem length_of_mem_chunks_dropLast (hn : 0 < n) {c : List α} (hc : c ∈ (chunks n l).dropLast) :
    c.length = n := by
  rw [chunks, ← List.map_dropLast, List.dropLast_eq_take, List.take_range, List.length_range] at hc
  obtain ⟨i, hi, rfl⟩ := List.mem_map.mp hc
  rw [List.mem_range] at hi
  have hnext : (i + 1) * n < l.length := (lt_ceilDiv_iff hn).mp (by omega)
  rw [Nat.succ_mul] at hnext
  rw [chunk_length]
  omega

end CSem
