import Defuse.Lib.Codes
import Defuse.Lib.Procs

/-! Decoders: procedures that read from the front of what is left of an input. A decoder of a
code takes a word of the code where one stands, and fails where none does. -/

namespace CSem

variable {σ ε β α α' : Type}

section Codes

/-- A value that needs no word. -/
def noWord (a : α) : α → List β → Prop := fun a' w => a' = a ∧ w = []

/-- A word of one code, then a word of a code that may depend on the first value. -/
def thenWord (code : α → List β → Prop) (next : α → α' → List β → Prop) : α' → List β → Prop :=
  fun a' w => ∃ a u v, code a u ∧ next a a' v ∧ w = u ++ v

/-- A word that is there only under a condition, and otherwise stands for `d`. -/
def wordIf (c : Prop) (code : α → List β → Prop) (d : α) : α → List β → Prop :=
  fun a w => (c ∧ code a w) ∨ (¬ c ∧ a = d ∧ w = [])

/-- As many words as there are values. -/
def words (code : α → List β → Prop) (n : ℕ) : List α → List β → Prop :=
  fun as w => as.length = n ∧ ∃ ws, List.Forall₂ code as ws ∧ w = ws.flatten

variable {code : α → List β → Prop} {next : α → α' → List β → Prop}

theorem selfDelimiting_noWord (a : α) : SelfDelimiting (noWord a : α → List β → Prop) := by
  intro x y v w hv hw r s heq
  obtain ⟨rfl, rfl⟩ := hv
  obtain ⟨rfl, rfl⟩ := hw
  exact ⟨rfl, heq⟩

theorem SelfDelimiting.thenWord (h : SelfDelimiting code) (hnext : ∀ a, SelfDelimiting (next a)) :
    SelfDelimiting (thenWord code next) := by
  intro x y v w hv hw r s heq
  obtain ⟨a, u₁, v₁, ha, hx, rfl⟩ := hv
  obtain ⟨b, u₂, v₂, hb, hy, rfl⟩ := hw
  rw [List.append_assoc, List.append_assoc] at heq
  obtain ⟨rfl, heq⟩ := h ha hb heq
  exact hnext a hx hy heq

theorem SelfDelimiting.wordIf (h : SelfDelimiting code) (c : Prop) (d : α) :
    SelfDelimiting (wordIf c code d) := by
  intro a b v w hv hw r s heq
  by_cases hc : c
  · exact h (hv.resolve_right fun hn => hn.1 hc).2 (hw.resolve_right fun hn => hn.1 hc).2 heq
  · obtain ⟨-, rfl, rfl⟩ := hv.resolve_left fun hp => hc hp.1
    obtain ⟨-, rfl, rfl⟩ := hw.resolve_left fun hp => hc hp.1
    exact ⟨rfl, heq⟩

theorem SelfDelimiting.of_imp {code' : α → List β → Prop} (h : SelfDelimiting code)
    (himp : ∀ a w, code' a w → code a w) : SelfDelimiting code' := by
  intro a b v w hv hw r s heq
  exact h (himp a v hv) (himp b w hw) heq

theorem words_zero : words code 0 = noWord [] := by
  funext as w
  apply propext
  constructor
  · intro h
    obtain ⟨hlen, ws, hws, rfl⟩ := h
    obtain rfl := List.eq_nil_of_length_eq_zero hlen
    cases hws
    exact ⟨rfl, rfl⟩
  · intro h
    obtain ⟨rfl, rfl⟩ := h
    exact ⟨rfl, [], .nil, rfl⟩

theorem words_succ (n : ℕ) :
    words code (n + 1) = thenWord code fun a => thenWord (words code n) fun as => noWord (a :: as) := by
  funext as w
  apply propext
  constructor
  · intro h
    obtain ⟨hlen, ws, hws, rfl⟩ := h
    cases hws with
    | nil => cases hlen
    | @cons a u as ws ha has =>
      refine ⟨a, u, ws.flatten, ha, ⟨as, ws.flatten, [], ?_, ⟨rfl, rfl⟩, by simp⟩, by simp⟩
      exact ⟨Nat.succ.inj hlen, ws, has, rfl⟩
  · intro h
    obtain ⟨a, u, v, ha, ⟨as', u', v', ⟨hlen, ws, has, rfl⟩, ⟨rfl, rfl⟩, rfl⟩, rfl⟩ := h
    exact ⟨by simp [hlen], u :: ws, .cons ha has, by simp⟩

theorem SelfDelimiting.words (h : SelfDelimiting code) (n : ℕ) : SelfDelimiting (words code n) := by
  induction n with
  | zero =>
    rw [words_zero]
    exact selfDelimiting_noWord []
  | succ n ih =>
    rw [words_succ]
    apply h.thenWord
    intro a
    exact ih.thenWord fun as => selfDelimiting_noWord (a :: as)

end Codes

/-- Input that is read from the front: the states that can be read from, and what is left. -/
structure Input (σ β : Type) where
  Inv : σ → Prop
  rest : σ → List β

variable {input : Input σ β} {E : ε → Prop} {p : Proc σ ε α} {f : α → Proc σ ε α'}
  {code : α → List β → Prop} {next : α → α' → List β → Prop}

/-- How a decoder may end that was started with `left` to read. -/
def Decoded (input : Input σ β) (E : ε → Prop) (code : α → List β → Prop) (left : List β) :
    Except ε α → σ → Prop
  | .ok a, s => input.Inv s ∧ ∃ w, code a w ∧ left = w ++ input.rest s
  | .error e, s => input.Inv s ∧ E e ∧ ∀ a w, code a w → ¬ w <+: left

/-- A decoder of `code` that fails with an error of `E`. -/
def Decodes (input : Input σ β) (E : ε → Prop) (p : Proc σ ε α) (code : α → List β → Prop) : Prop :=
  ∀ s, input.Inv s → p.Ends s (Decoded input E code (input.rest s))

theorem decodes_pure (a : α) : Decodes input E (pure a : Proc σ ε α) (noWord a) := by
  intro s hs
  rw [Proc.ends_pure]
  exact ⟨hs, [], ⟨rfl, rfl⟩, rfl⟩

/-- One decoder after the other. Where the first word ends must be clear from the input, or a
failure of the second would not show that there is no word. -/
theorem Decodes.bind_of (hcode : SelfDelimiting code) (hp : Decodes input E p code)
    (hf : ∀ a w, code a w → Decodes input E (f a) (next a)) :
    Decodes input E (p >>= f) (thenWord code next) := by
  intro s hs
  apply (hp s hs).bind
  · intro e s' herr
    obtain ⟨hs', he, hnone⟩ := herr
    refine ⟨hs', he, ?_⟩
    intro a' w hw hstart
    obtain ⟨a, u, v, hu, -, rfl⟩ := hw
    exact hnone a u hu ((List.prefix_append u v).trans hstart)
  · intro a s' hok
    obtain ⟨hs', u, hu, hrest⟩ := hok
    apply (hf a u hu s' hs').mono
    intro r s'' hr
    cases r with
    | error e =>
      obtain ⟨hs'', he, hnone⟩ := hr
      refine ⟨hs'', he, ?_⟩
      intro a' w hw hstart
      obtain ⟨b, u', v, hu', hv, rfl⟩ := hw
      obtain ⟨t, ht⟩ := hstart
      rw [hrest, List.append_assoc] at ht
      obtain ⟨rfl, ht⟩ := hcode hu' hu ht
      exact hnone a' v hv ⟨t, ht⟩
    | ok a' =>
      obtain ⟨hs'', v, hv, hrest'⟩ := hr
      exact ⟨hs'', u ++ v, ⟨a, u, v, hu, hv, rfl⟩, by rw [hrest, hrest', List.append_assoc]⟩

theorem Decodes.bind (hcode : SelfDelimiting code) (hp : Decodes input E p code)
    (hf : ∀ a, Decodes input E (f a) (next a)) :
    Decodes input E (p >>= f) (thenWord code next) :=
  hp.bind_of hcode fun a _ _ => hf a

/-- A decoder that runs only under a condition. -/
def readIf (c : Prop) [Decidable c] (p : Proc σ ε α) (d : α) : Proc σ ε α := if c then p else pure d

theorem Decodes.readIf (hp : Decodes input E p code) (c : Prop) [Decidable c] (d : α) :
    Decodes input E (readIf c p d) (wordIf c code d) := by
  intro s hs
  by_cases hc : c
  · rw [CSem.readIf, if_pos hc]
    apply (hp s hs).mono
    intro r s' hr
    cases r with
    | error e =>
      refine ⟨hr.1, hr.2.1, ?_⟩
      intro a w hw
      exact hr.2.2 a w (hw.resolve_right fun hn => hn.1 hc).2
    | ok a =>
      obtain ⟨hs', w, hw, hrest⟩ := hr
      exact ⟨hs', w, Or.inl ⟨hc, hw⟩, hrest⟩
  · rw [CSem.readIf, if_neg hc, Proc.ends_pure]
    exact ⟨hs, [], Or.inr ⟨hc, rfl, rfl⟩, rfl⟩

theorem Decodes.congr {code' : α → List β → Prop} (hp : Decodes input E p code)
    (h : ∀ a w, code a w ↔ code' a w) : Decodes input E p code' := by
  have hsame : code = code' := by
    funext a w
    exact propext (h a w)
  rwa [← hsame]

/-- A decoder run `n` times. -/
def times (p : Proc σ ε α) : ℕ → Proc σ ε (List α)
  | 0 => pure []
  | n + 1 => do
    let a ← p
    let as ← times p n
    return a :: as

theorem Decodes.times (hcode : SelfDelimiting code) (hp : Decodes input E p code) (n : ℕ) :
    Decodes input E (times p n) (words code n) := by
  induction n with
  | zero =>
    rw [words_zero]
    exact decodes_pure []
  | succ n ih =>
    rw [words_succ]
    apply hp.bind hcode
    intro a
    apply ih.bind (hcode.words n)
    intro as
    exact decodes_pure (a :: as)

/-- The same decoder, failing with another error. -/
def orFail (p : Proc σ ε α) (e : ε) : Proc σ ε α := fun s =>
  (p s).map fun r => (r.1.mapError fun _ => e, r.2)

theorem Decodes.orFail (hp : Decodes input E p code) (e : ε) :
    Decodes input (· = e) (orFail p e) code := by
  intro s hs
  obtain ⟨r, s', hrun, hr⟩ := hp s hs
  refine ⟨r.mapError fun _ => e, s', by rw [CSem.orFail, hrun]; rfl, ?_⟩
  cases r with
  | error e' => exact ⟨hr.1, rfl, hr.2.2⟩
  | ok a => exact hr

theorem Decodes.mono {E' : ε → Prop} (hp : Decodes input E p code) (h : ∀ e, E e → E' e) :
    Decodes input E' p code := by
  intro s hs
  apply (hp s hs).mono
  intro r s' hr
  cases r with
  | error e => exact ⟨hr.1, h e hr.2.1, hr.2.2⟩
  | ok a => exact hr

/-- A decoder returns a value exactly where a word for it stands, and fails exactly where there is
no word. -/
theorem Decodes.exact {e : ε} (hcode : SelfDelimiting code) (hp : Decodes input (· = e) p code)
    {s : σ} (hs : input.Inv s) :
    ∃ res s', p s = .ok (res, s') ∧ input.Inv s' ∧
      (∀ a, res = .ok a ↔ ∃ w, code a w ∧ input.rest s = w ++ input.rest s') ∧
      (res = .error e ↔ ∀ a w, code a w → ¬ w <+: input.rest s) := by
  obtain ⟨res, s', hrun, hres⟩ := hp s hs
  refine ⟨res, s', hrun, ?_⟩
  cases res with
  | error e' =>
    obtain ⟨hs', rfl, hnone⟩ := hres
    refine ⟨hs', ?_, iff_of_true rfl hnone⟩
    intro a
    refine ⟨nofun, ?_⟩
    intro h
    obtain ⟨w, hw, hrest⟩ := h
    exact absurd ⟨_, hrest.symm⟩ (hnone a w hw)
  | ok a =>
    obtain ⟨hs', w, hw, hrest⟩ := hres
    refine ⟨hs', ?_, iff_of_false nofun fun hnone => hnone a w hw ⟨_, hrest.symm⟩⟩
    intro a'
    constructor
    · intro h
      cases h
      exact ⟨w, hw, hrest⟩
    · intro h
      obtain ⟨w', hw', hrest'⟩ := h
      rw [(hcode hw hw' (hrest.symm.trans hrest')).1]

/-- What is to come of a decoder that stands before a word. -/
theorem Decodes.reads (hcode : SelfDelimiting code) (hp : Decodes input E p code) {s : σ}
    (hs : input.Inv s) {a : α} {w t : List β} (hw : code a w) (hrest : input.rest s = w ++ t) :
    p.Gives s fun a' s' => a' = a ∧ input.Inv s' ∧ input.rest s' = t := by
  apply (hp s hs).mono
  intro r s' hr
  cases r with
  | error e => exact absurd ⟨t, hrest.symm⟩ (hr.2.2 a w hw)
  | ok a' =>
    obtain ⟨hs', w', hw', hrest'⟩ := hr
    rw [hrest] at hrest'
    obtain ⟨rfl, rfl⟩ := hcode hw hw' hrest'
    exact ⟨a, rfl, rfl, hs', rfl⟩

end CSem
