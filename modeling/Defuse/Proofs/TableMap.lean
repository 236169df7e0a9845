import Defuse.Proofs.TableSound

/-! The table as a partial map from descriptors to backend handles: what the three calls
do to the map, with records, use counts and the descriptor list out of sight. -/

namespace Defuse

open CSem FileHandleTable

/-- What a call does to the map. -/
def Call.onMap (m : Fin MAX_FILES → Option FileHandleData) :
    Call → Fin MAX_FILES → Option FileHandleData
  | .insert fd fhd, j => if (j : ℤ) = fd then (m j).or (some fhd) else m j
  | .remove fd, j => if (j : ℤ) = fd then none else m j
  | .duplicate fd1 fd2, j =>
    match index MAX_FILES fd1 with
    | .ok i => if (j : ℤ) = fd2 then (m i).or (m j) else m j
    | .error _ => m j

variable {t t' : FileHandleTable} {i j : Fin MAX_FILES} {p q : RecPtr}

theorem natCast_inj {i j : Fin MAX_FILES} : ((j : ℕ) : ℤ) = (i : ℕ) ↔ j = i := by
  rw [Int.natCast_inj, Fin.val_inj]

theorem lookup_of_none (hi : t.fileHandles i = none) : t.lookup i = none := by
  simp [lookup, hi]

theorem lookup_of_some {r : FileHandleDataInternal} (hi : t.fileHandles i = some p)
    (hr : t.heap p = some r) : t.lookup i = some r.fData := by
  simp [lookup, hi, hr]

theorem find_eq (h : Sound t) (i : Fin MAX_FILES) : t.findFileHandle i = .ok (t.lookup i) := by
  have hi := i.isLt
  unfold findFileHandle
  rw [if_neg (by omega), index_val, ok_bind]
  cases hp : t.fileHandles i with
  | none => simp [useCount_none, lookup_of_none hp]
  | some p =>
    obtain ⟨r, hr, hpos, -⟩ := h.live hp
    rw [useCount_some hr, ok_bind, if_neg (by omega), lookup_of_some hp hr]
    simp [deref, hr]

theorem find_negative {fd : ℤ} (h : fd < 0) : ∃ e, t.findFileHandle fd = .error e := by
  have hlt : ¬ fd ≥ MAX_FILES := by omega
  exact ⟨_, by rw [findFileHandle, if_neg hlt, index_negative h, error_bind]⟩

theorem find_ge {fd : ℤ} (h : fd ≥ MAX_FILES) : t.findFileHandle fd = .ok none := by
  unfold findFileHandle
  rw [if_pos h, pure_eq_ok]

theorem lookup_insert (h : Sound t) {fhd : FileHandleData} {rv : ℤ}
    (heq : t.insertFileHandle i fhd = .ok (rv, t')) (j : Fin MAX_FILES) :
    t'.lookup j = if j = i then (t.lookup j).or (some fhd) else t.lookup j := by
  cases hi : t.fileHandles i with
  | none =>
    obtain ⟨n, hn⟩ := h.room hi
    rw [insert_untracked hi hn] at heq
    cases heq
    rw [lookup_inserted h]
    split_ifs with hj
    · rw [hj, lookup_of_none hi, Option.none_or]
    · rfl
  | some p =>
    rw [insert_tracked h hi] at heq
    cases heq
    obtain ⟨r, hr, -⟩ := h.live hi
    split_ifs with hj
    · rw [hj, lookup_of_some hi hr, Option.some_or]
    · rfl

/-- A removal drops its own entry; a record it still shares with `j` stays. -/
theorem lookup_drop (h : Sound t) {r : FileHandleDataInternal} (hi : t.fileHandles i = some p)
    (hr : t.heap p = some r) (hfh : t'.fileHandles = Function.update t.fileHandles i none)
    (hheap : t'.heap = (t.dropUse p r).heap) (j : Fin MAX_FILES) :
    t'.lookup j = if j = i then none else t.lookup j := by
  split_ifs with hj
  · exact lookup_of_none (by rw [hfh, hj, Function.update_self])
  have hfhj : t'.fileHandles j = t.fileHandles j := by rw [hfh, Function.update_of_ne hj]
  cases hq : t.fileHandles j with
  | none => rw [lookup_of_none hq, lookup_of_none (hfhj.trans hq)]
  | some q =>
    obtain ⟨s, hs, -⟩ := h.live hq
    rw [lookup_of_some hq hs]
    by_cases hpq : q = p
    · subst hpq
      rw [hr] at hs
      cases hs
      have htwo : r.useCount ≠ 1 := by
        obtain ⟨r', hr', hle⟩ := h.counted i q hi
        rw [hr] at hr'
        cases hr'
        have hset := refs_set hfh q
        have hpos : 0 < t'.refs q := refs_pos (hfhj.trans hq)
        simp only [hi, if_true, reduceCtorEq, if_false] at hset
        omega
      refine lookup_of_some (r := { r with useCount := r.useCount - 1 }) (hfhj.trans hq) ?_
      rw [hheap]
      simp [dropUse, setRec, htwo]
    · refine lookup_of_some (hfhj.trans hq) ?_
      rw [hheap]
      simpa [dropUse, setRec, Function.update_of_ne hpq] using hs

theorem lookup_remove (h : Sound t) {rv : ℤ} (heq : t.removeFileHandle i = .ok (rv, t'))
    (j : Fin MAX_FILES) : t'.lookup j = if j = i then none else t.lookup j := by
  cases hi : t.fileHandles i with
  | none =>
    rw [remove_untracked hi] at heq
    cases heq
    split_ifs with hj
    · rw [hj, lookup_of_none hi]
    · rfl
  | some p =>
    obtain ⟨r, hr, -, -, hfh, hheap⟩ := remove_entries h hi heq
    exact lookup_drop h hi hr hfh hheap j

theorem lookup_share {r : FileHandleDataInternal} (hr : t.heap p = some r)
    (hfh : t'.fileHandles = Function.update t.fileHandles j (some p))
    (hheap : t'.heap = (t.shared j p r).heap) (k : Fin MAX_FILES) :
    t'.lookup k = if k = j then some r.fData else t.lookup k := by
  have hdata : ∀ q, (t'.heap q).map (·.fData) = (t.heap q).map (·.fData) := by
    rw [hheap]
    exact shared_data hr j
  unfold lookup
  split_ifs with hk
  · rw [hfh, hk, Function.update_self, Option.bind_some, hdata, hr]
    rfl
  · rw [hfh, Function.update_of_ne hk]
    simp only [hdata]

theorem lookup_duplicate (h : Sound t) {rv : ℤ} {old : Option RecPtr}
    (heq : t.duplicateFileHandle i j = .ok (rv, old, t')) (k : Fin MAX_FILES) :
    t'.lookup k = if k = j then (t.lookup i).or (t.lookup k) else t.lookup k := by
  cases hi : t.fileHandles i with
  | none =>
    rw [duplicate_untracked hi] at heq
    cases heq
    rw [lookup_of_none hi, Option.none_or, ite_self]
  | some p =>
    obtain ⟨r, hr, -, -, -, hfh, hheap⟩ := duplicate_entries h hi heq
    rw [lookup_of_some hi hr, Option.some_or]
    exact lookup_share hr hfh hheap k

theorem lookup_exec (h : Sound t) (c : Call) (hc : c.InRange) (heq : c.exec t = .ok t') :
    t'.lookup = c.onMap t.lookup := by
  funext k
  obtain ⟨i, fhd, rv, rfl, hins⟩ | ⟨i, rv, rfl, hrem⟩ | ⟨i, j, rv, old, rfl, hdup⟩ :=
    exec_cases hc heq
  · simp only [Call.onMap, natCast_inj]
    exact lookup_insert h hins k
  · simp only [Call.onMap, natCast_inj]
    exact lookup_remove h hrem k
  · simp only [Call.onMap, natCast_inj, index_val]
    exact lookup_duplicate h hdup k

/-! What each call returns -/

theorem insert_reply (h : Sound t) (i : Fin MAX_FILES) (fhd : FileHandleData) :
    ∃ t', t.insertFileHandle i fhd =
      .ok (if (t.lookup i).isSome then EEXIST else 0, t') := by
  cases hi : t.fileHandles i with
  | none =>
    obtain ⟨n, hn⟩ := h.room hi
    exact ⟨_, by rw [insert_untracked hi hn, lookup_of_none hi]; rfl⟩
  | some p =>
    obtain ⟨r, hr, -⟩ := h.live hi
    exact ⟨_, by rw [insert_tracked h hi, lookup_of_some hi hr]; rfl⟩

theorem remove_reply (h : Sound t) (i : Fin MAX_FILES) :
    ∃ t', t.removeFileHandle i = .ok (if (t.lookup i).isSome then 0 else ENOENT, t') := by
  cases hi : t.fileHandles i with
  | none => exact ⟨_, by rw [remove_untracked hi, lookup_of_none hi]; rfl⟩
  | some p =>
    obtain ⟨rv, t', hrem, -⟩ := remove_sound h i
    obtain ⟨r, hr, rfl, -⟩ := remove_entries h hi hrem
    exact ⟨t', by rw [hrem, lookup_of_some hi hr]; rfl⟩

theorem duplicate_reply (h : Sound t) (i j : Fin MAX_FILES) :
    ∃ t', t.duplicateFileHandle i j = .ok (0, t.fileHandles j, t') ∧
      ∀ p, (t'.heap p).map (·.fData) = (t.heap p).map (·.fData) := by
  cases hi : t.fileHandles i with
  | none => exact ⟨t, duplicate_untracked hi, fun _ => rfl⟩
  | some p =>
    obtain ⟨rv, old, t', hdup, -⟩ := duplicate_sound h i j
    obtain ⟨r, hr, rfl, rfl, -, -, hheap⟩ := duplicate_entries h hi hdup
    refine ⟨t', hdup, ?_⟩
    rw [hheap]
    exact shared_data hr j

/-! The use counts -/

def CountsAtMost (n : ℕ) (t : FileHandleTable) : Prop :=
  ∀ p r, t.heap p = some r → r.useCount ≤ n

theorem CountsAtMost.mono {n : ℕ} (h : CountsAtMost n t) (hheap : t'.heap = t.heap) :
    CountsAtMost (n + 1) t' := by
  intro p r hr
  have := h p r (hheap ▸ hr)
  push_cast
  omega

theorem CountsAtMost.update {n : ℕ} (h : CountsAtMost n t) {v : Option FileHandleDataInternal}
    (hheap : t'.heap = Function.update t.heap p v) (hv : ∀ r, v = some r → r.useCount ≤ n + 1) :
    CountsAtMost (n + 1) t' := by
  intro q r hr
  rw [hheap] at hr
  by_cases hq : q = p
  · rw [hq, Function.update_self] at hr
    exact_mod_cast hv r hr
  · rw [Function.update_of_ne hq] at hr
    have := h q r hr
    push_cast
    omega

/-- A call counts at most one use more. -/
theorem exec_counts (h : Sound t) (c : Call) (hc : c.InRange) {n : ℕ} (hn : CountsAtMost n t)
    (heq : c.exec t = .ok t') : CountsAtMost (n + 1) t' := by
  obtain ⟨i, fhd, rv, rfl, hins⟩ | ⟨i, rv, rfl, hrem⟩ | ⟨i, j, rv, old, rfl, hdup⟩ :=
    exec_cases hc heq
  · cases hi : t.fileHandles i with
    | none =>
      obtain ⟨k, hk⟩ := h.room hi
      rw [insert_untracked hi hk] at hins
      cases hins
      apply hn.update (p := t.nextRec) rfl
      rintro r ⟨⟩
      show (1 : ℤ) ≤ n + 1
      omega
    | some p =>
      rw [insert_tracked h hi] at hins
      cases hins
      exact hn.mono rfl
  · cases hi : t.fileHandles i with
    | none =>
      rw [remove_untracked hi] at hrem
      cases hrem
      exact hn.mono rfl
    | some p =>
      obtain ⟨r, hr, -, -, -, hheap⟩ := remove_entries h hi hrem
      have hle := hn p r hr
      refine hn.update hheap fun r' hr' => ?_
      split_ifs at hr'
      cases hr'
      show r.useCount - 1 ≤ n + 1
      omega
  · cases hi : t.fileHandles i with
    | none =>
      rw [duplicate_untracked hi] at hdup
      cases hdup
      exact hn.mono rfl
    | some p =>
      obtain ⟨r, hr, -, -, -, -, hheap⟩ := duplicate_entries h hi hdup
      have hle := hn p r hr
      refine hn.update hheap fun r' hr' => ?_
      cases hr'
      show r.useCount + 1 ≤ n + 1
      omega

/-! The map of all descriptors -/

abbrev Descriptors := ℤ → Option FileHandleData

/-- A call on the map: its result, what it reports of `fd2`, and the map after it. -/
def Call.spec (m : Descriptors) : Call → (ℤ × Option FileHandleData) × Descriptors
  | .insert fd fhd =>
    if (m fd).isSome then ((EEXIST, none), m) else ((0, none), Function.update m fd (some fhd))
  | .remove fd =>
    if (m fd).isSome then ((0, none), Function.update m fd none) else ((ENOENT, none), m)
  | .duplicate fd1 fd2 =>
    ((0, m fd2), if (m fd1).isSome then Function.update m fd2 (m fd1) else m)

def specRun (cs : List Call) : Descriptors := cs.foldl (fun m c => (c.spec m).2) fun _ => none

/-- The descriptor a call may change. -/
def Call.target : Call → ℤ
  | .insert fd _ => fd
  | .remove fd => fd
  | .duplicate _ fd2 => fd2

theorem spec_of_ne (c : Call) (m : Descriptors) {fd : ℤ} (h : fd ≠ c.target) :
    (c.spec m).2 fd = m fd := by
  cases c with
  | insert fd' fhd =>
    simp only [Call.spec]
    split_ifs
    · rfl
    · exact Function.update_of_ne h _ _
  | remove fd' =>
    simp only [Call.spec]
    split_ifs
    · exact Function.update_of_ne h _ _
    · rfl
  | duplicate fd1 fd2 =>
    simp only [Call.spec]
    split_ifs
    · exact Function.update_of_ne h _ _
    · rfl

/-- The table stands for the map. -/
structure Refines (t : FileHandleTable) (m : Descriptors) : Prop where
  sound : Sound t
  inside : ∀ i : Fin MAX_FILES, m i = t.lookup i
  outside : ∀ fd : ℤ, ¬ (0 ≤ fd ∧ fd < MAX_FILES) → m fd = none

theorem zeroed_refines : Refines zeroed fun _ => none :=
  ⟨zeroed_sound, fun _ => (lookup_of_none rfl).symm, fun _ _ => rfl⟩

variable {m : Descriptors}

theorem Refines.find (h : Refines t m) {fd : ℤ} (h0 : 0 ≤ fd) :
    t.findFileHandle fd = .ok (m fd) := by
  by_cases hlt : fd < MAX_FILES
  · obtain ⟨i, rfl⟩ := exists_fin ⟨h0, hlt⟩
    rw [find_eq h.sound, h.inside]
  · rw [find_ge (by omega), h.outside fd (by omega)]

/-- What the two descriptions of the map have in common. -/
theorem spec_inside (h : Refines t m) (c : Call) (hc : c.InRange) (k : Fin MAX_FILES) :
    (c.spec m).2 k = c.onMap t.lookup k := by
  by_cases hk : (k : ℤ) = c.target
  swap
  · rw [spec_of_ne c m hk, h.inside]
    cases c with
    | insert fd fhd => exact (if_neg hk).symm
    | remove fd => exact (if_neg hk).symm
    | duplicate fd1 fd2 =>
      obtain ⟨i, rfl⟩ := exists_fin hc.1
      simp only [Call.onMap, index_val]
      exact (if_neg hk).symm
  cases c with
  | insert fd fhd =>
    obtain rfl : (k : ℤ) = fd := hk
    simp only [Call.spec, Call.onMap, if_true, ← h.inside]
    cases hm : m k with
    | none => simp
    | some d => simp [hm]
  | remove fd =>
    obtain rfl : (k : ℤ) = fd := hk
    simp only [Call.spec, Call.onMap, if_true]
    cases hm : m k with
    | none => simp [hm]
    | some d => simp
  | duplicate fd1 fd2 =>
    obtain rfl : (k : ℤ) = fd2 := hk
    obtain ⟨i, rfl⟩ := exists_fin hc.1
    simp only [Call.spec, Call.onMap, index_val, if_true, ← h.inside]
    cases hm : m i with
    | none => simp
    | some d => simp

/-- One call: it returns and reports what the map says, and the table after it stands for
the map after it. -/
theorem perform_refines (h : Refines t m) (c : Call) (hc : c.InRange) :
    ∃ t', c.perform t = .ok ((c.spec m).1, t') ∧ c.exec t = .ok t' ∧ Refines t' (c.spec m).2 := by
  have hrest : ∀ {t'}, c.exec t = .ok t' → Refines t' (c.spec m).2 := by
    intro t' heq
    obtain ⟨t₁, hexec, hsound⟩ := exec_sound h.sound c hc
    rw [hexec] at heq
    cases heq
    refine ⟨hsound, fun k => ?_, fun fd hfd => ?_⟩
    · rw [spec_inside h c hc, lookup_exec h.sound c hc hexec]
    · rw [spec_of_ne c m, h.outside fd hfd]
      rintro rfl
      cases c with
      | insert fd fhd => exact hfd hc
      | remove fd => exact hfd hc
      | duplicate fd1 fd2 => exact hfd hc.2
  cases c with
  | insert fd fhd =>
    obtain ⟨i, rfl⟩ := exists_fin hc
    obtain ⟨t', heq⟩ := insert_reply h.sound i fhd
    have hexec : (Call.insert i fhd).exec t = .ok t' := by rw [Call.exec, heq]; rfl
    refine ⟨t', ?_, hexec, hrest hexec⟩
    rw [Call.perform, heq, ← h.inside]
    simp only [Call.spec]
    split_ifs <;> rfl
  | remove fd =>
    obtain ⟨i, rfl⟩ := exists_fin hc
    obtain ⟨t', heq⟩ := remove_reply h.sound i
    have hexec : (Call.remove i).exec t = .ok t' := by rw [Call.exec, heq]; rfl
    refine ⟨t', ?_, hexec, hrest hexec⟩
    rw [Call.perform, heq, ← h.inside]
    simp only [Call.spec]
    split_ifs <;> rfl
  | duplicate fd1 fd2 =>
    obtain ⟨i, rfl⟩ := exists_fin hc.1
    obtain ⟨j, rfl⟩ := exists_fin hc.2
    obtain ⟨t', heq, hdata⟩ := duplicate_reply h.sound i j
    have hexec : (Call.duplicate i j).exec t = .ok t' := by rw [Call.exec, heq]; rfl
    refine ⟨t', ?_, hexec, hrest hexec⟩
    rw [Call.perform, heq, ok_bind]
    simp only [Call.spec, h.inside j]
    cases hj : t.fileHandles j with
    | none => rw [lookup_of_none hj]; rfl
    | some p =>
      obtain ⟨r, hr, -⟩ := h.sound.live hj
      have hp := hdata p
      rw [hr] at hp
      obtain ⟨r', hr', hd⟩ := Option.map_eq_some_iff.mp hp
      have hd' : r'.fData = r.fData := hd
      rw [lookup_of_some hj hr, ← hd']
      simp only [deref, hr', ok_bind, pure_eq_ok]

theorem calls_refine (cs : List Call) (hcs : ∀ c ∈ cs, c.InRange) :
    ∃ t, run Call.exec zeroed cs = .ok t ∧ Refines t (specRun cs) ∧
      CountsAtMost cs.length t := by
  induction cs using List.reverseRecOn with
  | nil => exact ⟨zeroed, rfl, zeroed_refines, fun p r hr => by simp [zeroed] at hr⟩
  | append_singleton cs c ih =>
    obtain ⟨t, hrun, hrefines, hcounts⟩ := ih fun c hc => hcs c (List.mem_append_left _ hc)
    obtain ⟨t', -, hexec, hrefines'⟩ := perform_refines hrefines c (hcs c (by simp))
    refine ⟨t', by rw [run_snoc, hrun, ok_bind, hexec], ?_, ?_⟩
    · rwa [specRun, List.foldl_append]
    · rw [List.length_append]
      exact exec_counts hrefines.sound c (hcs c (by simp)) hcounts hexec

/-- After any calls the table stands for the map: every descriptor is found as in the map,
no entry points to a freed record, and the next call returns, reports and changes what the
map says and nothing else. A use count is at most the number of calls, so that it is an
`int` in any run shorter than `2 ^ 31`. -/
theorem table_refines_map (cs : List Call) (hcs : ∀ c ∈ cs, c.InRange) :
    ∃ t, run Call.exec zeroed cs = .ok t ∧ CountsAtMost cs.length t ∧
      (∀ fd, 0 ≤ fd → t.findFileHandle fd = .ok (specRun cs fd)) ∧
      (∀ i p, t.fileHandles i = some p → (t.heap p).isSome) ∧
      ∀ c : Call, c.InRange → ∃ t', c.perform t = .ok ((c.spec (specRun cs)).1, t') ∧
        run Call.exec zeroed (cs ++ [c]) = .ok t' ∧
        (∀ fd, 0 ≤ fd → t'.findFileHandle fd = .ok ((c.spec (specRun cs)).2 fd)) ∧
        (∀ fd, 0 ≤ fd → fd ≠ c.target → t'.findFileHandle fd = t.findFileHandle fd) ∧
        ∀ i p, t'.fileHandles i = some p → (t'.heap p).isSome := by
  have hlive : ∀ {t m}, Refines t m → ∀ i p, t.fileHandles i = some p → (t.heap p).isSome := by
    intro t m h i p hi
    obtain ⟨r, hr, -⟩ := h.sound.live hi
    rw [hr]
    rfl
  obtain ⟨t, hrun, h, hcounts⟩ := calls_refine cs hcs
  refine ⟨t, hrun, hcounts, fun fd h0 => h.find h0, hlive h, fun c hc => ?_⟩
  obtain ⟨t', hperform, hexec, h'⟩ := perform_refines h c hc
  refine ⟨t', hperform, by rw [run_snoc, hrun, ok_bind, hexec], fun fd h0 => h'.find h0,
    fun fd h0 hne => ?_, hlive h'⟩
  rw [h'.find h0, h.find h0, spec_of_ne c _ hne]

/-- Descriptor 3 is opened, shared with 4 and with itself, and closed. -/
theorem table_refines_map_shared :
    ∃ t, run Call.exec zeroed
        [.insert 3 ⟨7, 0⟩, .duplicate 3 4, .duplicate 3 3, .remove 3] = .ok t ∧
      t.findFileHandle 4 = .ok (some ⟨7, 0⟩) ∧ t.findFileHandle 3 = .ok none := by
  obtain ⟨t, hrun, -, hfind, -⟩ := table_refines_map
    [.insert 3 ⟨7, 0⟩, .duplicate 3 4, .duplicate 3 3, .remove 3] (by decide)
  exact ⟨t, hrun, (hfind 4 (by decide)).trans (by decide), (hfind 3 (by decide)).trans (by decide)⟩

/-- The map has nothing at -1, and the table is read in front of its array. -/
theorem table_read_at_minus_one :
    ∃ t, run Call.exec zeroed [.insert 3 ⟨7, 0⟩] = .ok t ∧
      specRun [.insert 3 ⟨7, 0⟩] (-1) = none ∧ t.findFileHandle (-1) = .error .outOfBounds :=
  ⟨_, rfl, rfl, rfl⟩

end Defuse
