import Mathlib.Algebra.BigOperators.Group.Finset.Basic
import Mathlib.Algebra.GroupWithZero.Nat
import Mathlib.Data.Fintype.BigOperators

/-! Counting the cells of an array whose contents have a property. -/

namespace CSem

variable {ι α : Type} [Fintype ι]

/-- How many cells of `f` hold a value with `P`. -/
def cells (P : α → Prop) [DecidablePred P] (f : ι → α) : ℕ :=
  (Finset.univ.filter fun i => P (f i)).card

/-- One store changes the count by what leaves the cell and what enters it. -/
theorem cells_update [DecidableEq ι] (P : α → Prop) [DecidablePred P] (f : ι → α) (i : ι) (v : α) :
    cells P (Function.update f i v) + (if P (f i) then 1 else 0) =
      cells P f + (if P v then 1 else 0) := by
  have hsplit (g : ι → α) : cells P g =
      (if P (g i) then 1 else 0) + ∑ j ∈ Finset.univ.erase i, if P (g j) then 1 else 0 := by
    rw [cells, Finset.card_filter, ← Finset.add_sum_erase _ _ (Finset.mem_univ i)]
  have hrest : ∑ j ∈ Finset.univ.erase i, (if P (Function.update f i v j) then 1 else 0) =
      ∑ j ∈ Finset.univ.erase i, if P (f j) then 1 else 0 := by
    apply Finset.sum_congr rfl
    intro j hj
    rw [Function.update_of_ne (Finset.ne_of_mem_erase hj)]
  rw [hsplit (Function.update f i v), hsplit f, hrest, Function.update_self]
  omega

theorem cells_pos_iff (P : α → Prop) [DecidablePred P] (f : ι → α) :
    0 < cells P f ↔ ∃ i, P (f i) := by
  simp [cells, Finset.card_pos, Finset.filter_nonempty_iff]

theorem cells_eq_zero_iff (P : α → Prop) [DecidablePred P] (f : ι → α) :
    cells P f = 0 ↔ ∀ i, ¬ P (f i) := by
  simp [cells, Finset.card_eq_zero, Finset.filter_eq_empty_iff]

theorem cells_le_card (P : α → Prop) [DecidablePred P] (f : ι → α) :
    cells P f ≤ Fintype.card ι := Finset.card_le_univ _

theorem cells_lt_card (P : α → Prop) [DecidablePred P] (f : ι → α) (i : ι) (h : ¬ P (f i)) :
    cells P f < Fintype.card ι := by
  rw [cells, ← Finset.card_univ]
  apply Finset.card_lt_card
  refine ⟨Finset.filter_subset _ _, fun hsub => ?_⟩
  exact h (Finset.mem_filter.mp (hsub (Finset.mem_univ i))).2

/-- One cell with the property: it is the only one. -/
theorem cells_eq_one_iff (P : α → Prop) [DecidablePred P] (f : ι → α) {i : ι} (hi : P (f i)) :
    cells P f = 1 ↔ ∀ j, P (f j) → j = i := by
  rw [cells, Finset.card_eq_one]
  constructor
  · rintro ⟨k, hk⟩ j hj
    have hmem : ∀ x, P (f x) → x = k := by
      intro x hx
      exact Finset.mem_singleton.mp (hk ▸ Finset.mem_filter.mpr ⟨Finset.mem_univ x, hx⟩)
    rw [hmem j hj, hmem i hi]
  · intro h
    refine ⟨i, Finset.ext fun j => ?_⟩
    simp only [Finset.mem_filter, Finset.mem_univ, true_and, Finset.mem_singleton]
    exact ⟨h j, fun hj => hj ▸ hi⟩

/-- A sum over a list when one element changes. -/
theorem sum_map_set {α : Type} (f : α → ℕ) {l : List α} {i : ℕ} {a : α} (h : l[i]? = some a)
    (b : α) : ((l.set i b).map f).sum + f a = (l.map f).sum + f b := by
  induction l generalizing i with
  | nil => simp at h
  | cons x l ih =>
    cases i with
    | zero =>
      simp only [List.getElem?_cons_zero, Option.some.injEq] at h
      subst h
      simp only [List.set_cons_zero, List.map_cons, List.sum_cons]
      omega
    | succ i =>
      have := ih h
      simp only [List.set_cons_succ, List.map_cons, List.sum_cons]
      omega

end CSem
