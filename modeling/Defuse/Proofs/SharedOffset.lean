import Defuse.Lib.Counting
import Defuse.Lib.Runs
import Defuse.Spec.ReadWrite
import Mathlib.Order.Interval.Set.Defs
import Mathlib.Data.Set.Disjoint
import Mathlib.Order.CompletePartialOrder

/-! The offset of a shared descriptor. A call reads it, transfers and stores it back in
three steps, and the read lock around them excludes no other call. When no call reads the
offset while another one is about to store it, the transferred ranges follow each other. -/

namespace Defuse

open CSem

/-- The range a call has accounted for in the offset. -/
def Pc.span : Pc → Option (ℕ × ℕ)
  | .unlock offset n => some (offset, n)
  | .returned offset n => some (offset, n)
  | _ => none

/-- The offset a call has read and not stored back yet. -/
def Pc.reads : Pc → Option ℕ
  | .transfer offset => some offset
  | .seekSet offset _ => some offset
  | _ => none

def Pc.transfers : Pc → Option ℕ
  | .transfer offset => some offset
  | _ => none

def Pc.over : Pc → Bool
  | .returned _ _ => true
  | .failed _ _ => true
  | _ => false

def IoCall.moved (c : IoCall) : ℕ := (c.pc.span.map Prod.snd).getD 0

/-- The bytes a call returned. -/
def IoCall.transferred (c : IoCall) : ℕ :=
  match c.pc with
  | .returned _ n => n
  | _ => 0

/-- The ranges of the calls that returned are disjoint, and when no call is under way the
offset has moved by all that was transferred. -/
def NoLostWrite (init : ℕ) (s : Shared) : Prop :=
  (∀ (i j : ℕ) (a b : IoCall) (o n o' n' : ℕ), i ≠ j → s.calls[i]? = some a →
    s.calls[j]? = some b → a.pc = .returned o n → b.pc = .returned o' n' →
      Disjoint (Set.Ico o (o + n)) (Set.Ico o' (o' + n'))) ∧
  ((∀ c ∈ s.calls, c.pc.over) →
    s.file.offset = init + (s.calls.map IoCall.transferred).sum)

/-- The condition on a step: the offset is read only while no other call holds an offset it
has read, and a transfer ends at an offset the kernel can store. -/
def Shared.Allows (s : Shared) : Move → Prop
  | .start _ _ _ => True
  | .step i r => r.err = 0 → ∀ c ∈ s.calls[i]?,
    (c.pc = .seekCur →
      ∀ j < s.calls.length, j ≠ i → ∀ b ∈ s.calls[j]?, b.pc.reads = none) ∧
    ∀ o ∈ c.pc.transfers, o + r.n ≤ OFF_MAX

instance (s : Shared) (m : Move) : Decidable (s.Allows m) := by
  cases m <;> unfold Shared.Allows <;> infer_instance

/-- The invariant of such runs. -/
structure Serial (init : ℕ) (s : Shared) : Prop where
  offset_eq : s.file.offset = init + (s.calls.map IoCall.moved).sum
  within : ∀ (i : ℕ) (a : IoCall) (o n : ℕ), s.calls[i]? = some a → a.pc.span = some (o, n) →
    o + n ≤ s.file.offset
  apart : ∀ (i j : ℕ) (a b : IoCall) (o n o' n' : ℕ), i ≠ j → s.calls[i]? = some a →
    s.calls[j]? = some b → a.pc.span = some (o, n) → b.pc.span = some (o', n') →
      o + n ≤ o' ∨ o' + n' ≤ o
  current : ∀ (i : ℕ) (a : IoCall) (o : ℕ), s.calls[i]? = some a → a.pc.reads = some o →
    o = s.file.offset ∧ ∀ (j : ℕ) (b : IoCall), j ≠ i → s.calls[j]? = some b → b.pc.reads = none
  room : ∀ (i : ℕ) (a : IoCall) (o n : ℕ), s.calls[i]? = some a → a.pc = .seekSet o n →
    o + n ≤ OFF_MAX

variable {init : ℕ} {s : Shared}

theorem fresh_serial (init : ℕ) (locks : Locks) : Serial init (Shared.fresh init locks) where
  offset_eq := rfl
  within := by simp [Shared.fresh]
  apart := by simp [Shared.fresh]
  current := by simp [Shared.fresh]
  room := by simp [Shared.fresh]

theorem Serial.noLostWrite (h : Serial init s) : NoLostWrite init s := by
  refine ⟨?_, ?_⟩
  · intro i j a b o n o' n' hij ha hb hpa hpb
    rw [Set.disjoint_left]
    intro x hx hx'
    simp only [Set.mem_Ico] at hx hx'
    rcases h.apart i j a b o n o' n' hij ha hb (by rw [hpa]; rfl) (by rw [hpb]; rfl) with hle | hle
    · omega
    · omega
  · intro hover
    rw [h.offset_eq]
    congr 2
    apply List.map_congr_left
    intro c hc
    have := hover c hc
    unfold IoCall.moved IoCall.transferred
    cases hpc : c.pc <;> simp_all [Pc.over, Pc.span]

/-- A new call has touched nothing. -/
theorem start_serial (h : Serial init s) (op : IoOp) (pid count : ℕ) :
    Serial init { s with calls := s.calls ++ [⟨op, pid, count, .lock⟩] } := by
  have hold : ∀ (i : ℕ) (a : IoCall), (s.calls ++ [⟨op, pid, count, .lock⟩])[i]? = some a →
      a.pc = .lock ∨ s.calls[i]? = some a := by
    intro i a ha
    rw [List.getElem?_append] at ha
    split_ifs at ha with hi
    · exact Or.inr ha
    · rw [List.getElem?_singleton] at ha
      split_ifs at ha
      cases ha
      exact Or.inl rfl
  have hspan : ∀ (i : ℕ) (a : IoCall) (o n : ℕ),
      (s.calls ++ [⟨op, pid, count, .lock⟩])[i]? = some a → a.pc.span = some (o, n) →
      s.calls[i]? = some a := by
    intro i a o n ha hp
    rcases hold i a ha with hl | hl
    · rw [hl] at hp
      cases hp
    · exact hl
  refine ⟨?_, ?_, ?_, ?_, ?_⟩
  · rw [h.offset_eq]
    simp [IoCall.moved, Pc.span]
  · intro i a o n ha hp
    exact h.within i a o n (hspan i a o n ha hp) hp
  · intro i j a b o n o' n' hij ha hb hpa hpb
    exact h.apart i j a b o n o' n' hij (hspan i a o n ha hpa) (hspan j b o' n' hb hpb) hpa hpb
  · intro i a o ha hp
    rcases hold i a ha with hl | hl
    · rw [hl] at hp
      cases hp
    · obtain ⟨ho, hothers⟩ := h.current i a o hl hp
      refine ⟨ho, fun j b hj hb => ?_⟩
      rcases hold j b hb with hb' | hb'
      · rw [hb']
        rfl
      · exact hothers j b hj hb'
  · intro i a o n ha hp
    rcases hold i a ha with hl | hl
    · rw [hl] at hp
      cases hp
    · exact h.room i a o n hl hp

section Step

variable {i : ℕ} {c c' : IoCall} {file : OpenFile}

theorem set_cases {j : ℕ} {a : IoCall} (hj : (s.calls.set i c')[j]? = some a) :
    (j = i ∧ a = c') ∨ (j ≠ i ∧ s.calls[j]? = some a) := by
  rw [List.getElem?_set] at hj
  split_ifs at hj with hij hlt
  · cases hj
    exact Or.inl ⟨hij.symm, rfl⟩
  · exact Or.inr ⟨Ne.symm hij, hj⟩

/-- A step that does not touch the offset and accounts for nothing new; a call that holds
an offset afterwards holds the current one, alone. -/
theorem Serial.quiet (h : Serial init s) (hc : s.calls[i]? = some c)
    (hfile : file.offset = s.file.offset) (hspan : c'.pc.span = c.pc.span)
    (hreads : ∀ o, c'.pc.reads = some o → o = s.file.offset ∧
      ∀ (j : ℕ) (b : IoCall), j ≠ i → s.calls[j]? = some b → b.pc.reads = none)
    (hroom : ∀ o n, c'.pc = .seekSet o n → o + n ≤ OFF_MAX) :
    Serial init ⟨file, s.calls.set i c'⟩ := by
  have hold : ∀ (j : ℕ) (a : IoCall), (s.calls.set i c')[j]? = some a →
      ∃ a', s.calls[j]? = some a' ∧ a.pc.span = a'.pc.span := by
    intro j a ha
    rcases set_cases ha with ⟨rfl, rfl⟩ | ⟨-, hj⟩
    · exact ⟨c, hc, hspan⟩
    · exact ⟨a, hj, rfl⟩
  refine ⟨?_, ?_, ?_, ?_, ?_⟩
  · have hmoved : c'.moved = c.moved := by
      unfold IoCall.moved
      rw [hspan]
    have hsum := sum_map_set IoCall.moved hc c'
    have hoff := h.offset_eq
    rw [hmoved] at hsum
    dsimp only
    omega
  · intro j a o n ha hp
    obtain ⟨a', ha', heq⟩ := hold j a ha
    rw [hfile]
    exact h.within j a' o n ha' (heq ▸ hp)
  · intro j k a b o n o' n' hjk ha hb hpa hpb
    obtain ⟨a', ha', heq⟩ := hold j a ha
    obtain ⟨b', hb', heq'⟩ := hold k b hb
    exact h.apart j k a' b' o n o' n' hjk ha' hb' (heq ▸ hpa) (heq' ▸ hpb)
  · intro j a o ha hp
    rw [hfile]
    rcases set_cases ha with ⟨rfl, rfl⟩ | ⟨hji, hj⟩
    · obtain ⟨ho, hothers⟩ := hreads o hp
      refine ⟨ho, fun k b hk hb => ?_⟩
      rcases set_cases hb with ⟨rfl, rfl⟩ | ⟨hki, hk'⟩
      · exact absurd rfl hk
      · exact hothers k b hki hk'
    · obtain ⟨ho, hothers⟩ := h.current j a o hj hp
      refine ⟨ho, fun k b hk hb => ?_⟩
      rcases set_cases hb with ⟨rfl, rfl⟩ | ⟨-, hk'⟩
      · -- the moving call would hold the offset together with call `j`
        cases hb' : b.pc.reads with
        | none => rfl
        | some o' =>
          have := (hreads o' hb').2 j a hji hj
          rw [hp] at this
          cases this
      · exact hothers k b hk hk'
  · intro j a o n ha hp
    rcases set_cases ha with ⟨rfl, rfl⟩ | ⟨-, hj⟩
    · exact hroom o n hp
    · exact h.room j a o n hj hp

/-- The offset is stored back: the new range follows all others. -/
theorem Serial.store (h : Serial init s) {o n : ℕ} (hc : s.calls[i]? = some c)
    (hpc : c.pc = .seekSet o n) (hfile : file.offset = o + n) (hpc' : c'.pc = .unlock o n) :
    Serial init ⟨file, s.calls.set i c'⟩ := by
  obtain ⟨ho, hothers⟩ := h.current i c o hc (by rw [hpc]; rfl)
  have hnew : ∀ {o' n'}, c'.pc.span = some (o', n') → o' = o ∧ n' = n := by
    intro o' n' hp
    rw [hpc'] at hp
    cases hp
    exact ⟨rfl, rfl⟩
  refine ⟨?_, ?_, ?_, ?_, ?_⟩
  · have hsum := sum_map_set IoCall.moved hc c'
    have hoff := h.offset_eq
    have hm : c.moved = 0 := by
      unfold IoCall.moved
      rw [hpc]
      rfl
    have hm' : c'.moved = n := by
      unfold IoCall.moved
      rw [hpc']
      rfl
    dsimp only
    omega
  · intro j a o' n' ha hp
    rcases set_cases ha with ⟨rfl, rfl⟩ | ⟨-, hj⟩
    · obtain ⟨rfl, rfl⟩ := hnew hp
      exact hfile.ge
    · have := h.within j a o' n' hj hp
      rw [hfile]
      omega
  · intro j k a b o1 n1 o2 n2 hjk ha hb hpa hpb
    rcases set_cases ha with ⟨rfl, rfl⟩ | ⟨-, hj⟩
    · obtain ⟨rfl, rfl⟩ := hnew hpa
      rcases set_cases hb with ⟨rfl, rfl⟩ | ⟨-, hk⟩
      · exact absurd rfl hjk
      · have := h.within k b o2 n2 hk hpb
        omega
    · rcases set_cases hb with ⟨rfl, rfl⟩ | ⟨-, hk⟩
      · obtain ⟨rfl, rfl⟩ := hnew hpb
        have := h.within j a o1 n1 hj hpa
        omega
      · exact h.apart j k a b o1 n1 o2 n2 hjk hj hk hpa hpb
  · intro j a o' ha hp
    rcases set_cases ha with ⟨rfl, rfl⟩ | ⟨hji, hj⟩
    · rw [hpc'] at hp
      cases hp
    · rw [hothers j a hji hj] at hp
      cases hp
  · intro j a o' n' ha hp
    rcases set_cases ha with ⟨rfl, rfl⟩ | ⟨-, hj⟩
    · rw [hpc'] at hp
      cases hp
    · exact h.room j a o' n' hj hp

end Step

/-- One step of a call keeps the invariant. -/
theorem advance_serial (h : Serial init s) {i : ℕ} {c : IoCall} {r : Reply}
    (hc : s.calls[i]? = some c) (hok : s.Allows (.step i r)) :
    Serial init ⟨(c.advance s.file r).1, s.calls.set i (c.advance s.file r).2⟩ := by
  unfold IoCall.advance
  cases hpc : c.pc with
  | lock =>
    dsimp only
    split_ifs
    · exact h.quiet hc rfl (by rw [hpc]; rfl) (by simp [Pc.reads]) (by simp)
    · exact h.quiet hc rfl (by rw [hpc]; rfl) (by simp [Pc.reads]) (by simp)
    · exact h.quiet hc rfl (by rw [hpc]; rfl) (by simp [Pc.reads]) (by simp)
  | seekCur =>
    dsimp only
    split_ifs with herr
    · exact h.quiet hc rfl (by rw [hpc]; rfl) (by simp [Pc.reads]) (by simp)
    · refine h.quiet hc rfl (by rw [hpc]; rfl) ?_ (by simp)
      intro o ho
      cases ho
      refine ⟨rfl, fun j b hj hb => ?_⟩
      have hlt := (List.getElem?_eq_some_iff.mp hb).1
      exact (hok (not_not.mp herr) c hc).1 hpc j hlt hj b hb
  | transfer o =>
    dsimp only
    split_ifs with herr
    · exact h.quiet hc rfl (by rw [hpc]; rfl) (by simp [Pc.reads]) (by simp)
    · refine h.quiet hc rfl (by rw [hpc]; rfl) ?_ ?_
      · intro o' ho
        cases ho
        exact h.current i c o hc (by rw [hpc]; rfl)
      · intro o' n hp
        cases hp
        exact (hok (not_not.mp herr) c hc).2 o (by rw [hpc]; rfl)
  | seekSet o n =>
    exact h.store hc hpc (lseekSet_of_le (h.room i c o n hc hpc)) rfl
  | unlock o n =>
    exact h.quiet hc rfl (by rw [hpc]; rfl) (by simp [Pc.reads]) (by simp)
  | returned o n =>
    exact h.quiet hc rfl rfl (by simp [hpc, Pc.reads]) (by simp [hpc])
  | failed rv errno =>
    exact h.quiet hc rfl rfl (by simp [hpc, Pc.reads]) (by simp [hpc])

theorem move_serial (h : Serial init s) {m : Move} (hok : s.Allows m) :
    ∃ s', s.move m = .ok s' ∧ Serial init s' := by
  cases m with
  | start op pid count => exact ⟨_, rfl, start_serial h op pid count⟩
  | step i r =>
    simp only [Shared.move]
    cases hc : s.calls[i]? with
    | none => exact ⟨s, rfl, h⟩
    | some c => exact ⟨_, rfl, advance_serial h hc hok⟩

/-- No write is lost on a shared descriptor in a run that keeps the condition. -/
theorem no_lost_write (init : ℕ) (locks : Locks) (ms : List Move)
    (hok : ∀ pre m, pre ++ [m] <+: ms →
      ∀ s, run Shared.move (Shared.fresh init locks) pre = .ok s → s.Allows m) :
    ∀ pre, pre <+: ms →
      ∃ s, run Shared.move (Shared.fresh init locks) pre = .ok s ∧ NoLostWrite init s := by
  intro pre hpre
  obtain ⟨s, hs, hserial⟩ := run_guarded (Serial init) Shared.Allows
    (fun s m h hm => move_serial h hm) (fresh_serial init locks) pre
    (fun p m hp => hok p m (hp.trans hpre))
  exact ⟨s, hs, hserial.noLostWrite⟩

/-- Two processes that write five bytes each, one after the other. -/
theorem no_lost_write_in_turn :
    ∃ s, run Shared.move (Shared.fresh 0 [])
      [.start .write 1 5, .start .write 2 5, .step 0 ⟨0, 0⟩, .step 1 ⟨0, 0⟩, .step 0 ⟨0, 0⟩,
        .step 0 ⟨0, 5⟩, .step 0 ⟨0, 0⟩, .step 1 ⟨0, 0⟩, .step 1 ⟨0, 5⟩, .step 1 ⟨0, 0⟩,
        .step 0 ⟨0, 0⟩, .step 1 ⟨0, 0⟩] = .ok s ∧ NoLostWrite 0 s :=
  no_lost_write 0 [] _ (guard_of_tested Shared.Allows (by decide)) _ (List.prefix_refl _)

/-- Both processes get their read lock and the offset 0 before either stores it back. -/
theorem lost_write_both_at_zero :
    ∃ s, run Shared.move (Shared.fresh 0 [])
      [.start .write 1 5, .start .write 2 5, .step 0 ⟨0, 0⟩, .step 1 ⟨0, 0⟩, .step 0 ⟨0, 0⟩,
        .step 1 ⟨0, 0⟩, .step 0 ⟨0, 5⟩, .step 1 ⟨0, 5⟩, .step 0 ⟨0, 0⟩, .step 1 ⟨0, 0⟩,
        .step 0 ⟨0, 0⟩, .step 1 ⟨0, 0⟩] = .ok s ∧
      s.calls.map IoCall.pc = [.returned 0 5, .returned 0 5] ∧ s.file.offset = 5 ∧
      ¬ NoLostWrite 0 s := by
  refine ⟨⟨⟨5, []⟩, [⟨.write, 1, 5, .returned 0 5⟩, ⟨.write, 2, 5, .returned 0 5⟩]⟩, by decide, rfl,
    rfl, ?_⟩
  intro h
  exact absurd (h.2 (by decide)) (by decide)

end Defuse
