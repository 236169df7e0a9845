import Mathlib.Data.Fin.Basic
import Mathlib.Logic.Function.Basic
import Mathlib.Tactic.Common

/-! Checked execution of C code: a computation either returns a value or stops
with the reason why the C abstract machine gives it no meaning. Array accesses
are bounds-checked, so a computation that returns has stayed inside its arrays. -/

namespace CSem

inductive Fault
  | outOfBounds
  | nullDeref
  | useAfterFree
  | uninitialised
  | intOverflow
  | stepLimit
  deriving DecidableEq, Repr

abbrev Checked (α : Type) := Except Fault α

variable {α β : Type}

section Except

variable {ε : Type}

@[simp] theorem ok_bind (a : α) (f : α → Except ε β) : (Except.ok a >>= f) = f a := rfl

@[simp] theorem error_bind (e : ε) (f : α → Except ε β) :
    ((Except.error e : Except ε α) >>= f) = .error e := rfl

@[simp] theorem pure_eq_ok (a : α) : (pure a : Except ε α) = .ok a := rfl

@[simp] theorem bind_ok_self (x : Except ε α) : (x >>= fun a => Except.ok a) = x := by
  cases x <;> rfl

theorem bind_ok_iff {x : Except ε α} {f : α → Except ε β} {b : β} :
    (x >>= f) = .ok b ↔ ∃ a, x = .ok a ∧ f a = .ok b := by
  cases x with
  | error e => simp
  | ok a => simp

theorem map_ok {x : Except ε α} {f : α → β} {a : α} {b : β} (h : x.map f = .ok b)
    (hx : x = .ok a) : f a = b := by
  subst hx
  exact Except.ok.inj h

end Except

theorem mapM_ok {f : α → Checked β} {g : α → β} (l : List α) (h : ∀ a ∈ l, f a = .ok (g a)) :
    l.mapM f = .ok (l.map g) := by
  induction l with
  | nil => rfl
  | cons a l ih =>
    rw [List.mapM_cons, h a (by simp), ih fun b hb => h b (by simp [hb])]
    rfl

/-- The subscript of a C array of `n` elements. -/
def index (n : ℕ) (i : ℤ) : Checked (Fin n) :=
  if h : 0 ≤ i ∧ i < n then .ok ⟨i.toNat, by omega⟩ else .error .outOfBounds

theorem index_ok_iff {n : ℕ} {i : ℤ} {k : Fin n} : index n i = .ok k ↔ i = k := by
  unfold index
  split_ifs with h
  · simp only [Except.ok.injEq, Fin.ext_iff]
    omega
  · simp only [false_iff]
    have := k.isLt
    omega

@[simp] theorem index_val {n : ℕ} (k : Fin n) : index n (k : ℤ) = .ok k :=
  index_ok_iff.mpr rfl

theorem index_negative {n : ℕ} {i : ℤ} (h : i < 0) : index n i = .error .outOfBounds :=
  dif_neg (by omega)

theorem index_isOk_iff {n : ℕ} {i : ℤ} : (∃ k, index n i = .ok k) ↔ 0 ≤ i ∧ i < n := by
  constructor
  · rintro ⟨k, hk⟩
    have := index_ok_iff.mp hk
    have := k.isLt
    omega
  · intro h
    exact ⟨⟨i.toNat, by omega⟩, index_ok_iff.mpr (by simp; omega)⟩

end CSem
