import Mathlib.Data.List.Forall2
import Mathlib.Tactic.Common

/-! Codes that tell where they end. A code relates values to the words that stand for them; a
value may have several words or none. -/

namespace CSem

variable {α β ε : Type}

/-- The first value of a stream, and what follows its word, can be told from the stream alone. -/
def SelfDelimiting (code : α → List β → Prop) : Prop :=
  ∀ ⦃a b : α⦄ ⦃v w : List β⦄, code a v → code b w →
    ∀ ⦃r s : List β⦄, v ++ r = w ++ s → a = b ∧ r = s

theorem selfDelimiting_of_decode {code : α → List β → Prop} (decode : List β → Except ε (α × ℕ))
    (h : ∀ a w, code a w → ∀ rest, decode (w ++ rest) = .ok (a, w.length)) :
    SelfDelimiting code := by
  intro a b v w hv hw r s heq
  have hread := h a v hv r
  rw [heq, h b w hw s] at hread
  obtain ⟨hvalue, hlength⟩ := Prod.mk.inj (Except.ok.inj hread)
  exact ⟨hvalue.symm, (List.append_inj heq hlength.symm).2⟩

variable {code : α → List β → Prop}

theorem SelfDelimiting.eq_of_initial (h : SelfDelimiting code) {a b : α} {v w : List β}
    (hv : code a v) (hw : code b w) (hinitial : v <+: w) : v = w := by
  obtain ⟨r, hr⟩ := hinitial
  have hnil := (h hv hw (show v ++ r = w ++ [] by rw [hr, List.append_nil])).2
  rw [← hr, hnil, List.append_nil]

theorem SelfDelimiting.framed {length : ℕ → List β → Prop} (h : SelfDelimiting length) :
    SelfDelimiting fun (msg frame : List β) => ∃ w, length msg.length w ∧ frame = w ++ msg := by
  rintro msg msg' - - ⟨v, hv, rfl⟩ ⟨w, hw, rfl⟩ r s heq
  rw [List.append_assoc, List.append_assoc] at heq
  obtain ⟨hlength, hrest⟩ := h hv hw heq
  exact List.append_inj hrest hlength

/-- A stream of words is the stream of one sequence of values. -/
theorem SelfDelimiting.flatten_inj (h : SelfDelimiting code)
    (hne : ∀ a w, code a w → w ≠ []) {as bs : List α} {vs ws : List (List β)}
    (hvs : List.Forall₂ code as vs) (hws : List.Forall₂ code bs ws)
    (heq : vs.flatten = ws.flatten) : as = bs := by
  induction hvs generalizing bs ws with
  | nil =>
    cases hws with
    | nil => rfl
    | cons hw _ =>
      rw [List.flatten_nil, List.flatten_cons] at heq
      exact absurd (List.append_eq_nil_iff.mp heq.symm).1 (hne _ _ hw)
  | cons hv _ ih =>
    cases hws with
    | nil =>
      rw [List.flatten_nil, List.flatten_cons] at heq
      exact absurd (List.append_eq_nil_iff.mp heq).1 (hne _ _ hv)
    | cons hw hws =>
      rw [List.flatten_cons, List.flatten_cons] at heq
      obtain ⟨rfl, hrest⟩ := h hv hw heq
      rw [ih hws hrest]

end CSem
