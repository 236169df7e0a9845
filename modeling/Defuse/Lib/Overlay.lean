import Mathlib.Data.List.Basic
import Mathlib.Tactic.Common

/-! Writing over a byte string at an offset: what lies before it stays, with zeros up to the
offset when the string is shorter, and so does what lies behind. -/

namespace CSem

def overlay (x : List UInt8) (off : ℕ) (d : List UInt8) : List UInt8 :=
  x.take off ++ List.replicate (off - x.length) 0 ++ d ++ x.drop (off + d.length)

variable {x u v : List UInt8} {off : ℕ}

theorem overlay_length : (overlay x off u).length = max x.length (off + u.length) := by
  unfold overlay
  simp only [List.length_append, List.length_take, List.length_replicate, List.length_drop]
  omega

theorem overlay_overlay : overlay (overlay x off u) (off + u.length) v = overlay x off (u ++ v) := by
  have hlen : (x.take off ++ List.replicate (off - x.length) 0 ++ u).length = off + u.length := by
    simp only [List.length_append, List.length_take, List.length_replicate]
    omega
  have hpad : off + u.length - (overlay x off u).length = 0 := by
    rw [overlay_length]
    omega
  rw [overlay, hpad, overlay, overlay, List.take_left' hlen, ← hlen, ← List.drop_drop,
    List.drop_left, List.drop_drop, hlen]
  simp [List.append_assoc, Nat.add_assoc]

theorem overlay_end : overlay x x.length u = x ++ u := by
  unfold overlay
  simp

theorem overlay_within (h : off ≤ x.length) :
    overlay x off u = x.take off ++ u ++ x.drop (off + u.length) := by
  unfold overlay
  rw [Nat.sub_eq_zero_of_le h, List.replicate_zero, List.append_nil]

theorem overlay_append_left (k : ℕ) : overlay (u ++ x) (u.length + k) v = u ++ overlay x k v := by
  unfold overlay
  rw [List.take_length_add_append, Nat.add_assoc, ← List.drop_drop, List.drop_left,
    List.length_append, Nat.add_sub_add_left]
  simp only [List.append_assoc]

theorem overlay_append_right (h : x.length ≤ off + u.length) :
    overlay x off (u ++ v) = overlay x off u ++ v := by
  unfold overlay
  rw [List.length_append, List.drop_of_length_le h, List.drop_of_length_le (by omega)]
  simp only [List.append_assoc, List.append_nil]

theorem overlay_take_drop {n : ℕ} (hn : n ≤ u.length) (h : n = u.length ∨ x.length ≤ off + n) :
    overlay x off (u.take n) ++ u.drop n = overlay x off u := by
  rcases h with rfl | h
  · rw [List.take_length, List.drop_length, List.append_nil]
  · have hlen : (u.take n).length = n := by
      rw [List.length_take]
      omega
    rw [← overlay_append_right (by rw [hlen]; exact h), List.take_append_drop]

end CSem
