import Mathlib.Data.Multiset.Count
import Mathlib.Data.Multiset.Range
import Mathlib.Tactic.Common

/-! Objects with reference counts. A heap covers the references that are held when every object
that one of them points to is there, with a count of at least as many. -/

namespace CSem

section Counts

variable {α : Type} {count : α → ℤ} {heap : ℕ → Option α} {held : Multiset ℕ} {p : ℕ} {a a' : α}

def Covers (count : α → ℤ) (heap : ℕ → Option α) (held : Multiset ℕ) : Prop :=
  ∀ p ∈ held, ∃ a, heap p = some a ∧ (held.count p : ℤ) ≤ count a

/-- One object changes; the references to the others stay. -/
theorem Covers.update {held' : Multiset ℕ} {new : Option α} (h : Covers count heap held)
    (hothers : ∀ q, q ≠ p → held'.count q ≤ held.count q)
    (hnew : p ∈ held' → ∃ a, new = some a ∧ (held'.count p : ℤ) ≤ count a) :
    Covers count (Function.update heap p new) held' := by
  intro q hq
  by_cases hqp : q = p
  · subst hqp
    rw [Function.update_self]
    exact hnew hq
  · have hle := hothers q hqp
    have hheld : q ∈ held := by
      rw [← Multiset.one_le_count_iff_mem] at hq ⊢
      omega
    obtain ⟨a, ha, hcount⟩ := h q hheld
    rw [Function.update_of_ne hqp]
    exact ⟨a, ha, by omega⟩

theorem Covers.set (h : Covers count heap held) (hp : heap p = some a) (hcount : count a' = count a) :
    Covers count (Function.update heap p (some a')) held := by
  apply h.update fun q _ => le_rfl
  intro hheld
  obtain ⟨b, hb, hle⟩ := h p hheld
  obtain rfl := Option.some.inj (hp.symm.trans hb)
  exact ⟨a', rfl, by omega⟩

/-- A second reference where there is one. -/
theorem Covers.share (h : Covers count heap held) (hheld : p ∈ held) (hp : heap p = some a)
    (hcount : count a' = count a + 1) :
    Covers count (Function.update heap p (some a')) (p ::ₘ held) := by
  apply h.update
  · intro q hq
    rw [Multiset.count_cons_of_ne hq]
  · intro _
    obtain ⟨b, hb, hle⟩ := h p hheld
    obtain rfl := Option.some.inj (hp.symm.trans hb)
    refine ⟨a', rfl, ?_⟩
    rw [Multiset.count_cons_self]
    omega

/-- A reference is given up, and with the last one the object. -/
theorem Covers.put (h : Covers count heap (p ::ₘ held)) (hp : heap p = some a)
    (hcount : count a' = count a - 1) :
    Covers count (Function.update heap p (if count a - 1 = 0 then none else some a')) held := by
  apply h.update
  · intro q hq
    rw [Multiset.count_cons_of_ne hq]
  · intro hheld
    obtain ⟨b, hb, hle⟩ := h p (Multiset.mem_cons_self p held)
    obtain rfl := Option.some.inj (hp.symm.trans hb)
    rw [Multiset.count_cons_self] at hle
    have hone := Multiset.one_le_count_iff_mem.mpr hheld
    rw [if_neg (by omega)]
    exact ⟨a', rfl, by omega⟩

end Counts

end CSem
