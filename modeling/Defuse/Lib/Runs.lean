import Defuse.Lib.Checked
import Mathlib.Data.List.Induction

/-! Runs of a step function: what every step keeps holds in every state of a run,
and the steps that keep an invariant are the ones a run may consist of. -/

namespace CSem

variable {ε σ ι : Type}

/-- The threads that take the steps of a run have numbers. -/
abbrev Thread := Nat

/-- The state after a list of inputs, one step each. -/
def run (step : σ → ι → Checked σ) (s : σ) (is : List ι) : Checked σ := is.foldlM step s

theorem run_snoc (step : σ → ι → Checked σ) (s : σ) (is : List ι) (i : ι) :
    run step s (is ++ [i]) = run step s is >>= fun s' => step s' i := by
  simp [run, List.foldlM_append]

/-- An invariant that every step from a state of the run keeps, provided the guard
holds there, holds at the end of every run whose steps meet the guard. -/
theorem run_guarded {step : σ → ι → Checked σ} (Inv : σ → Prop) (Ok : σ → ι → Prop)
    (hstep : ∀ s i, Inv s → Ok s i → ∃ s', step s i = .ok s' ∧ Inv s') {s₀ : σ} (h₀ : Inv s₀)
    (is : List ι) (hok : ∀ pre i, pre ++ [i] <+: is → ∀ s, run step s₀ pre = .ok s → Ok s i) :
    ∃ s, run step s₀ is = .ok s ∧ Inv s := by
  induction is using List.reverseRecOn with
  | nil => exact ⟨s₀, rfl, h₀⟩
  | append_singleton is i ih =>
    obtain ⟨s, hs, hinv⟩ := ih fun pre j hj => hok pre j (hj.trans (List.prefix_append _ _))
    obtain ⟨s', hs', hinv'⟩ := hstep s i hinv (hok is i (List.prefix_refl _) s hs)
    exact ⟨s', by rw [run_snoc, hs, ok_bind, hs'], hinv'⟩

/-- What holds across each step taken from such a state holds of every step of the run. -/
theorem run_steps {step : σ → ι → Checked σ} (Inv : σ → Prop) (Ok : σ → ι → Prop)
    {Post : σ → ι → σ → Prop}
    (hstep : ∀ s i, Inv s → Ok s i → ∃ s', step s i = .ok s' ∧ Inv s' ∧ Post s i s')
    {s₀ : σ} (h₀ : Inv s₀) (is : List ι)
    (hok : ∀ pre i, pre ++ [i] <+: is → ∀ s, run step s₀ pre = .ok s → Ok s i)
    (pre : List ι) (i : ι) (hpre : pre ++ [i] <+: is) :
    ∃ s s', run step s₀ pre = .ok s ∧ step s i = .ok s' ∧ Post s i s' := by
  have hkeep : ∀ s i, Inv s → Ok s i → ∃ s', step s i = .ok s' ∧ Inv s' := by
    intro s i hi ho
    obtain ⟨s', hs', hi', -⟩ := hstep s i hi ho
    exact ⟨s', hs', hi'⟩
  have hp : pre <+: is := (List.prefix_append pre [i]).trans hpre
  obtain ⟨s, hs, hi⟩ := run_guarded Inv Ok hkeep h₀ pre fun p j hj => hok p j (hj.trans hp)
  obtain ⟨s', hs', -, hpost⟩ := hstep s i hi (hok pre i hpre s hs)
  exact ⟨s, s', hs, hs', hpost⟩

/-- The unguarded case: every input of the run lies in a domain on which each step
succeeds and keeps the invariant. -/
theorem run_invariant {step : σ → ι → Checked σ} (Inv : σ → Prop) (D : ι → Prop)
    (hstep : ∀ s i, Inv s → D i → ∃ s', step s i = .ok s' ∧ Inv s') {s₀ : σ} (h₀ : Inv s₀)
    (is : List ι) (hD : ∀ i ∈ is, D i) : ∃ s, run step s₀ is = .ok s ∧ Inv s := by
  apply run_guarded Inv (fun _ i => D i) hstep h₀ is
  intro pre i hpre s _
  exact hD i (hpre.subset (by simp))

/-- When the guard is also forced by an invariant that survives the step, the runs
that keep the invariant throughout are exactly the runs whose steps meet the guard. -/
theorem run_throughout_iff {step : σ → ι → Checked σ} (Inv : σ → Prop) {Good : σ → Prop}
    {D : ι → Prop} {Ok : σ → ι → Prop}
    (hinv : ∀ s i, Inv s → D i → ∃ s', step s i = .ok s' ∧ Inv s')
    (hkeep : ∀ s i s', Inv s → D i → Good s → step s i = .ok s' → (Good s' ↔ Ok s i))
    {s₀ : σ} (h₀ : Inv s₀) (hg₀ : Good s₀) (is : List ι) (hD : ∀ i ∈ is, D i) :
    (∀ pre, pre <+: is → ∃ s, run step s₀ pre = .ok s ∧ Good s) ↔
      ∀ pre i, pre ++ [i] <+: is → ∀ s, run step s₀ pre = .ok s → Ok s i := by
  have hsound : ∀ pre, pre <+: is → ∃ s, run step s₀ pre = .ok s ∧ Inv s := fun pre hpre =>
    run_invariant Inv D hinv h₀ pre fun i hi => hD i (hpre.subset hi)
  constructor
  · intro hall pre i hpre s hs
    have hp : pre <+: is := (List.prefix_append pre [i]).trans hpre
    obtain ⟨s₁, hs₁, hi⟩ := hsound pre hp
    obtain ⟨s₂, hs₂, hg⟩ := hall pre hp
    obtain ⟨s', hs', hg'⟩ := hall _ hpre
    rw [hs] at hs₁ hs₂
    cases hs₁
    cases hs₂
    rw [run_snoc, hs, ok_bind] at hs'
    exact (hkeep s i s' hi (hD i (hpre.subset (by simp))) hg hs').mp hg'
  · intro hok pre hpre
    have hrun : ∃ s, run step s₀ pre = .ok s ∧ Inv s ∧ Good s := by
      apply run_guarded (fun s => Inv s ∧ Good s) (fun s i => D i ∧ Ok s i) _ ⟨h₀, hg₀⟩
      · intro p i hp s hs
        have hp' := hp.trans hpre
        exact ⟨hD i (hp'.subset (by simp)), hok p i hp' s hs⟩
      · rintro s i ⟨hi, hg⟩ ⟨hd, ho⟩
        obtain ⟨s', hs', hi'⟩ := hinv s i hi hd
        exact ⟨s', hs', hi', (hkeep s i s' hi hd hg hs').mpr ho⟩
    obtain ⟨s, hs, -, hg⟩ := hrun
    exact ⟨s, hs, hg⟩

theorem run_total (step : σ → ι → σ) (s : σ) (is : List ι) :
    run (fun s i => .ok (step s i)) s is = .ok (is.foldl step s) := by
  induction is generalizing s with
  | nil => rfl
  | cons i is ih => exact ih (step s i)

theorem foldl_guarded {step : σ → ι → σ} (Inv : σ → Prop) (Ok : σ → ι → Prop)
    (hstep : ∀ s i, Inv s → Ok s i → Inv (step s i)) {s₀ : σ} (h₀ : Inv s₀) (is : List ι)
    (hok : ∀ pre i, pre ++ [i] <+: is → Ok (pre.foldl step s₀) i) : Inv (is.foldl step s₀) := by
  have hrun : ∃ s, run (fun s i => .ok (step s i)) s₀ is = .ok s ∧ Inv s := by
    apply run_guarded Inv Ok (fun s i hs hi => ⟨_, rfl, hstep s i hs hi⟩) h₀ is
    intro pre i hpre s hs
    rw [run_total] at hs
    cases hs
    exact hok pre i hpre
  obtain ⟨s, hs, hinv⟩ := hrun
  rw [run_total] at hs
  cases hs
  exact hinv

/-- A guard that holds before each step of a run. -/
def Guarded (step : σ → ι → Except ε σ) (Ok : σ → ι → Prop) : σ → List ι → Prop
  | _, [] => True
  | s, i :: is => Ok s i ∧ ∀ s', step s i = .ok s' → Guarded step Ok s' is

theorem guard_of_guarded {step : σ → ι → Except ε σ} {Ok : σ → ι → Prop} {s₀ : σ} {is : List ι}
    (h : Guarded step Ok s₀ is) :
    ∀ pre i, pre ++ [i] <+: is → ∀ s, pre.foldlM step s₀ = .ok s → Ok s i := by
  induction is generalizing s₀ with
  | nil =>
    intro pre i hpre
    have := hpre.length_le
    simp at this
  | cons j is ih =>
    obtain ⟨hj, hrest⟩ := h
    intro pre i hpre s hs
    cases pre with
    | nil =>
      rw [List.nil_append, List.cons_prefix_cons] at hpre
      cases hs
      rw [hpre.1]
      exact hj
    | cons k pre =>
      rw [List.cons_append, List.cons_prefix_cons] at hpre
      obtain ⟨rfl, hpre⟩ := hpre
      rw [List.foldlM_cons, bind_ok_iff] at hs
      obtain ⟨s', hstep, hs⟩ := hs
      exact ih (hrest s' hstep) pre i hpre s hs

/-- Whether a test holds before every step of a run. -/
def tested (step : σ → ι → Checked σ) (test : σ → ι → Bool) : σ → List ι → Bool
  | _, [] => true
  | s, i :: is => test s i &&
    match step s i with
    | .ok s' => tested step test s' is
    | .error _ => true

/-- A tested run meets the guard that is tested. -/
theorem guard_of_tested {step : σ → ι → Checked σ} (Ok : σ → ι → Prop) [∀ s i, Decidable (Ok s i)]
    {s₀ : σ} {is : List ι} (h : tested step (fun s i => Ok s i) s₀ is) :
    ∀ pre i, pre ++ [i] <+: is → ∀ s, run step s₀ pre = .ok s → Ok s i := by
  apply guard_of_guarded
  induction is generalizing s₀ with
  | nil => trivial
  | cons i is ih =>
    simp only [tested, Bool.and_eq_true, decide_eq_true_eq] at h
    refine ⟨h.1, ?_⟩
    intro s' hstep
    rw [hstep] at h
    exact ih h.2

theorem foldl_guard_of_tested {step : σ → ι → σ} (Ok : σ → ι → Prop) [∀ s i, Decidable (Ok s i)]
    {s₀ : σ} {is : List ι} (h : tested (fun s i => .ok (step s i)) (fun s i => Ok s i) s₀ is) :
    ∀ pre i, pre ++ [i] <+: is → Ok (pre.foldl step s₀) i := by
  intro pre i hpre
  exact guard_of_tested Ok h pre i hpre _ (run_total step s₀ pre)

end CSem
