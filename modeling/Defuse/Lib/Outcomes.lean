import Defuse.Lib.Checked
import Mathlib.Data.List.Induction

/-! Postconditions of computations that may stop: what holds of the value, and which reasons to
stop are allowed. -/

namespace CSem

variable {ε α β σ ι : Type} {stops : ε → Prop}

def Ensures (stops : ε → Prop) (post : α → Prop) : Except ε α → Prop
  | .ok a => post a
  | .error e => stops e

namespace Ensures

variable {post : α → Prop} {post' : β → Prop} {x : Except ε α}

theorem bind {f : α → Except ε β} (h : Ensures stops post x)
    (hf : ∀ a, post a → Ensures stops post' (f a)) : Ensures stops post' (x >>= f) := by
  cases x with
  | error e => exact h
  | ok a => exact hf a h

theorem map {f : α → β} (h : Ensures stops post x) (hf : ∀ a, post a → post' (f a)) :
    Ensures stops post' (x.map f) := by
  cases x with
  | error e => exact h
  | ok a => exact hf a h

theorem mapError {ε' : Type} {f : ε → ε'} {stops' : ε' → Prop} (h : ∀ a, x = .ok a → post a)
    (hf : ∀ e, stops' (f e)) : Ensures stops' post (x.mapError f) := by
  cases x with
  | error e => exact hf e
  | ok a => exact h a rfl

end Ensures

/-- The rule for a loop: an invariant that every step keeps from the states in which its guard
holds. -/
theorem ensures_foldlM {step : σ → ι → Except ε σ} (Inv : σ → Prop) (Ok : σ → ι → Prop)
    (hstep : ∀ s i, Inv s → Ok s i → Ensures stops Inv (step s i)) {s₀ : σ} (h₀ : Inv s₀)
    (is : List ι)
    (hok : ∀ pre i, pre ++ [i] <+: is → ∀ s, pre.foldlM step s₀ = .ok s → Ok s i) :
    Ensures stops Inv (is.foldlM step s₀) := by
  induction is using List.reverseRecOn with
  | nil => exact h₀
  | append_singleton is i ih =>
    have hrun := ih fun pre j hj => hok pre j (hj.trans (List.prefix_append _ _))
    rw [List.foldlM_append]
    cases hs : is.foldlM step s₀ with
    | error e =>
      rw [hs] at hrun
      exact hrun
    | ok s =>
      rw [hs] at hrun
      change Ensures stops Inv ([i].foldlM step s)
      rw [List.foldlM_cons]
      refine (hstep s i hrun (hok is i (List.prefix_refl _) s hs)).bind fun s' hs' => hs'

end CSem
