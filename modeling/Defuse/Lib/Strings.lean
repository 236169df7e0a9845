import Mathlib.Data.List.Basic
import Mathlib.Data.List.Infix
import Mathlib.Tactic.Common

/-! String search over byte lists. -/

namespace CSem

/-- The offset of the first occurrence of `needle`, as `strstr` finds it. -/
def strstr : List UInt8 → List UInt8 → Option ℕ
  | [], needle => if needle = [] then some 0 else none
  | c :: cs, needle =>
    if needle <+: c :: cs then some 0 else (strstr cs needle).map (· + 1)

theorem strstr_eq_zero_iff (s needle : List UInt8) :
    strstr s needle = some 0 ↔ needle <+: s := by
  cases s with
  | nil => simp [strstr]
  | cons c cs =>
    simp only [strstr]
    split_ifs with h
    · simp [h]
    · simp [h]

/-- `strstr` finds the needle exactly when it occurs. -/
theorem strstr_eq_none_iff (s needle : List UInt8) : strstr s needle = none ↔ ¬ needle <:+: s := by
  induction s with
  | nil =>
    simp only [strstr, List.infix_nil]
    split_ifs with h
    · simp [h]
    · simp [h]
  | cons c cs ih =>
    simp only [strstr, List.infix_cons_iff, not_or]
    split_ifs with h
    · simp [h]
    · rw [Option.map_eq_none_iff, ih, and_iff_right h]

end CSem
