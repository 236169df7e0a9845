import Defuse.Lib.Checked

/-! Procedures on a shared state: each returns a value or an error code, together with the state
it leaves. An error leaves what was done up to it. -/

namespace CSem

def Proc (σ ε α : Type) := σ → Checked (Except ε α × σ)

namespace Proc

variable {σ ε α β : Type}

def andThen (p : Proc σ ε α) (f : α → Proc σ ε β) : Proc σ ε β := fun s =>
  match p s with
  | .error fault => .error fault
  | .ok (.error e, s') => .ok (.error e, s')
  | .ok (.ok a, s') => f a s'

instance : Monad (Proc σ ε) where
  pure a := fun s => .ok (.ok a, s)
  bind := andThen

def fail (e : ε) : Proc σ ε α := fun s => .ok (.error e, s)

def stop (fault : Fault) : Proc σ ε α := fun _ => .error fault

def read (f : σ → α) : Proc σ ε α := fun s => .ok (.ok (f s), s)

def update (f : σ → σ) : Proc σ ε Unit := fun s => .ok (.ok (), f s)

/-- A procedure with something to be undone at its end, however it ends. -/
def thenAlways (p : Proc σ ε α) (f : σ → σ) : Proc σ ε α := fun s =>
  (p s).map fun r => (r.1, f r.2)

/-- Run from `s`, the procedure comes to an end that satisfies `post`. -/
def Ends (p : Proc σ ε α) (s : σ) (post : Except ε α → σ → Prop) : Prop :=
  ∃ r s', p s = .ok (r, s') ∧ post r s'

variable {p : Proc σ ε α} {f : α → Proc σ ε β} {s : σ} {post : Except ε α → σ → Prop}

@[simp] theorem ends_pure {a : α} : (pure a : Proc σ ε α).Ends s post ↔ post (.ok a) s := by
  constructor
  · rintro ⟨r, s', h, hpost⟩
    cases h
    exact hpost
  · exact fun h => ⟨_, _, rfl, h⟩

@[simp] theorem ends_fail {e : ε} : (fail e : Proc σ ε α).Ends s post ↔ post (.error e) s := by
  constructor
  · rintro ⟨r, s', h, hpost⟩
    cases h
    exact hpost
  · exact fun h => ⟨_, _, rfl, h⟩

@[simp] theorem ends_read {g : σ → α} :
    (read g : Proc σ ε α).Ends s post ↔ post (.ok (g s)) s := by
  constructor
  · rintro ⟨r, s', h, hpost⟩
    cases h
    exact hpost
  · exact fun h => ⟨_, _, rfl, h⟩

@[simp] theorem ends_update {g : σ → σ} {post : Except ε Unit → σ → Prop} :
    (update g).Ends s post ↔ post (.ok ()) (g s) := by
  constructor
  · rintro ⟨r, s', h, hpost⟩
    cases h
    exact hpost
  · exact fun h => ⟨_, _, rfl, h⟩

theorem ends_thenAlways {g : σ → σ} :
    (p.thenAlways g).Ends s post ↔ p.Ends s fun r s' => post r (g s') := by
  constructor
  · rintro ⟨r, s', h, hpost⟩
    unfold thenAlways at h
    cases hp : p s with
    | error fault =>
      rw [hp] at h
      cases h
    | ok out =>
      rw [hp] at h
      cases h
      exact ⟨_, _, hp, hpost⟩
  · rintro ⟨r, s', h, hpost⟩
    exact ⟨r, g s', by rw [thenAlways, h]; rfl, hpost⟩

theorem ends_bind {post : Except ε β → σ → Prop} :
    (p >>= f).Ends s post ↔ p.Ends s fun r s' =>
      match r with
      | .error e => post (.error e) s'
      | .ok a => (f a).Ends s' post := by
  change (andThen p f).Ends s post ↔ _
  constructor
  · rintro ⟨r, s', h, hpost⟩
    unfold andThen at h
    cases hp : p s with
    | error fault =>
      rw [hp] at h
      cases h
    | ok out =>
      obtain ⟨r₁, s₁⟩ := out
      rw [hp] at h
      refine ⟨r₁, s₁, hp, ?_⟩
      cases r₁ with
      | error e =>
        cases h
        exact hpost
      | ok a => exact ⟨r, s', h, hpost⟩
  · rintro ⟨r, s', h, hpost⟩
    cases r with
    | error e => exact ⟨.error e, s', by rw [andThen, h], hpost⟩
    | ok a =>
      obtain ⟨r₂, s₂, h₂, hpost₂⟩ := hpost
      refine ⟨r₂, s₂, ?_, hpost₂⟩
      rw [andThen, h]
      exact h₂

@[simp] theorem ends_read_bind {g : σ → α} {post : Except ε β → σ → Prop} :
    (read g >>= f).Ends s post ↔ (f (g s)).Ends s post := by
  rw [ends_bind, ends_read]

@[simp] theorem ends_update_bind {g : σ → σ} {f : Unit → Proc σ ε β}
    {post : Except ε β → σ → Prop} :
    (update g >>= f).Ends s post ↔ (f ()).Ends (g s) post := by
  rw [ends_bind, ends_update]

theorem pure_bind (a : α) (f : α → Proc σ ε β) : (pure a : Proc σ ε α) >>= f = f a := rfl

theorem Ends.mono {post' : Except ε α → σ → Prop} (h : p.Ends s post)
    (himp : ∀ r s', post r s' → post' r s') : p.Ends s post' := by
  obtain ⟨r, s', hp, hpost⟩ := h
  exact ⟨r, s', hp, himp r s' hpost⟩

theorem Ends.bind {post' : Except ε β → σ → Prop} (h : p.Ends s post)
    (herror : ∀ e s', post (.error e) s' → post' (.error e) s')
    (hok : ∀ a s', post (.ok a) s' → (f a).Ends s' post') : (p >>= f).Ends s post' := by
  rw [ends_bind]
  apply h.mono
  intro r s' hr
  cases r with
  | error e => exact herror e s' hr
  | ok a => exact hok a s' hr

/-- Run from `s`, the procedure comes to an end with a value. -/
def Gives (p : Proc σ ε α) (s : σ) (post : α → σ → Prop) : Prop :=
  p.Ends s fun r s' => ∃ a, r = .ok a ∧ post a s'

theorem gives_pure {a : α} {post : α → σ → Prop} :
    (pure a : Proc σ ε α).Gives s post ↔ post a s := by
  simp [Gives]

theorem gives_read_bind {g : σ → α} {post : β → σ → Prop} :
    (read g >>= f).Gives s post ↔ (f (g s)).Gives s post :=
  ends_read_bind

theorem gives_update_bind {g : σ → σ} {f : Unit → Proc σ ε β} {post : β → σ → Prop} :
    (update g >>= f).Gives s post ↔ (f ()).Gives (g s) post :=
  ends_update_bind

theorem Gives.bind {post : α → σ → Prop} {post' : Except ε β → σ → Prop} (h : p.Gives s post)
    (hf : ∀ a s', post a s' → (f a).Ends s' post') : (p >>= f).Ends s post' := by
  apply Ends.bind h
  · intro e s' he
    obtain ⟨a, ha, -⟩ := he
    cases ha
  · intro a s' ha
    obtain ⟨a', ha', hpost⟩ := ha
    cases ha'
    exact hf a s' hpost

/-- Run from `s`, the procedure comes to an end with a value, or with an error that is allowed. -/
def GivesOr (allowed : ε → Prop) (p : Proc σ ε α) (s : σ) (post : α → σ → Prop) : Prop :=
  p.Ends s fun r s' =>
    match r with
    | .ok a => post a s'
    | .error e => allowed e

section GivesOr

variable {allowed : ε → Prop}

theorem GivesOr.mono {post post' : α → σ → Prop} (h : p.GivesOr allowed s post)
    (himp : ∀ a s', post a s' → post' a s') : p.GivesOr allowed s post' := by
  apply Ends.mono h
  intro r s' hr
  cases r with
  | ok a => exact himp a s' hr
  | error e => exact hr

theorem GivesOr.bind {post : α → σ → Prop} {post' : β → σ → Prop} (h : p.GivesOr allowed s post)
    (hf : ∀ a s', post a s' → (f a).GivesOr allowed s' post') :
    (p >>= f).GivesOr allowed s post' :=
  Ends.bind h (fun _ _ he => he) hf

end GivesOr

theorem Ends.with_run (h : p.Ends s post) :
    p.Ends s fun r s' => p s = .ok (r, s') ∧ post r s' := by
  obtain ⟨r, s', hp, hpost⟩ := h
  exact ⟨r, s', hp, hp, hpost⟩

theorem GivesOr.with_run {allowed : ε → Prop} {post : α → σ → Prop} (h : p.GivesOr allowed s post) :
    p.GivesOr allowed s fun a s' => p s = .ok (.ok a, s') ∧ post a s' := by
  obtain ⟨r, s', hp, hpost⟩ := h
  refine ⟨r, s', hp, ?_⟩
  cases r with
  | ok a => exact ⟨hp, hpost⟩
  | error e => exact hpost

theorem Gives.with_run {post : α → σ → Prop} (h : p.Gives s post) :
    p.Gives s fun a s' => p s = .ok (.ok a, s') ∧ post a s' := by
  obtain ⟨r, s', hp, a, rfl, hpost⟩ := h
  exact ⟨_, s', hp, a, rfl, hp, hpost⟩

end Proc

end CSem
