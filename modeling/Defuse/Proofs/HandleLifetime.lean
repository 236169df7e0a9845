import Defuse.Spec.OpenClose
import Defuse.Lib.Runs
import Defuse.Proofs.TableMap
import Mathlib.Data.Finset.Card

/-! Backend handles: every handle a mount's `open` returned is either held by a record
that some descriptor reaches, or it has been closed. The balance is lost when a
descriptor that shares its record is closed, and when the last descriptor of a record is
overwritten by a duplicate. -/

namespace Defuse

open CSem FileHandleTable

def Holds (t : FileHandleTable) (d : FileHandleData) (p : RecPtr) : Prop :=
  0 < t.refs p ∧ (t.heap p).map (·.fData) = some d

instance (t : FileHandleTable) (d : FileHandleData) (p : RecPtr) : Decidable (Holds t d p) := by
  unfold Holds
  infer_instance

def live (t : FileHandleTable) (d : FileHandleData) : ℕ :=
  ((Finset.range t.nextRec).filter (Holds t d)).card

def Effect.opened : Effect → Option FileHandleData
  | .backendOpen mount fh => some ⟨fh, mount⟩
  | _ => none

def Effect.closed : Effect → Option FileHandleData
  | .backendClose mount fh => some ⟨fh, mount⟩
  | _ => none

def opens (trace : List Effect) (d : FileHandleData) : ℕ := (trace.filterMap Effect.opened).count d

def closes (trace : List Effect) (d : FileHandleData) : ℕ := (trace.filterMap Effect.closed).count d

/-- Every open of a handle is matched by one close, or by one reachable record that still
holds it; so what `find_file_handle` returns has not been closed. -/
structure Balanced (s : Ledger) : Prop where
  balance : ∀ d, closes s.trace d + live s.table d = opens s.trace d
  open_found : ∀ fd d, s.table.findFileHandle fd = .ok (some d) →
    closes s.trace d < opens s.trace d

variable {t t' : FileHandleTable} {i j : Fin MAX_FILES} {p q : RecPtr} {d e : FileHandleData}

theorem Holds.lt (h : Sound t) (hp : Holds t d p) : p < t.nextRec := by
  by_contra hge
  have hnone := h.fresh p (not_lt.mp hge)
  have hd := hp.2
  rw [hnone] at hd
  cases hd

theorem Holds.unique (h : Holds t d p) (h' : Holds t e p) : d = e := by
  have := h.2.symm.trans h'.2
  exact Option.some.inj this

theorem holds_of_entry {r : FileHandleDataInternal} (hi : t.fileHandles i = some p)
    (hr : t.heap p = some r) : Holds t r.fData p :=
  ⟨refs_pos hi, by rw [hr]; rfl⟩

theorem live_congr (hnext : t'.nextRec = t.nextRec) (h : ∀ p, Holds t' d p ↔ Holds t d p) :
    live t' d = live t d := by
  unfold live
  rw [hnext, Finset.filter_congr fun p _ => h p]

theorem live_drop (hs : Sound t) (hnext : t'.nextRec = t.nextRec) (hp : Holds t d p)
    (h : ∀ q, Holds t' d q ↔ Holds t d q ∧ q ≠ p) : live t' d + 1 = live t d := by
  have hmem : p ∈ (Finset.range t.nextRec).filter (Holds t d) :=
    Finset.mem_filter.mpr ⟨Finset.mem_range.mpr (hp.lt hs), hp⟩
  have herase : (Finset.range t'.nextRec).filter (Holds t' d) =
      ((Finset.range t.nextRec).filter (Holds t d)).erase p := by
    ext q
    rw [hnext, Finset.mem_erase, Finset.mem_filter, Finset.mem_filter, h q]
    tauto
  unfold live
  rw [herase, Finset.card_erase_add_one hmem]

/-- A new record holds `d`. -/
theorem live_inserted {n : Fin MAX_FILES} (hi : t.fileHandles i = none)
    (e : FileHandleData) :
    live (t.inserted i n d) e = live t e + if d = e then 1 else 0 := by
  have hfh : (t.inserted i n d).fileHandles =
    Function.update t.fileHandles i (some t.nextRec) := rfl
  have hnew : Holds (t.inserted i n d) e t.nextRec ↔ d = e := by
    have hrefs := refs_set hfh t.nextRec
    simp only [hi, reduceCtorEq, if_false, if_true] at hrefs
    have hheap : (t.inserted i n d).heap t.nextRec = some ⟨d, 1⟩ := by simp [inserted, linked]
    unfold Holds
    rw [hheap]
    simp only [Option.map_some, Option.some.injEq, and_iff_right_iff_imp]
    omega
  have hold : ∀ p, p ≠ t.nextRec → (Holds (t.inserted i n d) e p ↔ Holds t e p) := by
    intro p hp
    have hrefs := refs_set hfh p
    simp only [hi, reduceCtorEq, if_false, Option.some.injEq, Ne.symm hp] at hrefs
    have hheap : (t.inserted i n d).heap p = t.heap p := by
      simp [inserted, linked, Function.update_of_ne hp]
    unfold Holds
    rw [hheap, show (t.inserted i n d).refs p = t.refs p by omega]
  have hfilter : (Finset.range t.nextRec).filter (Holds (t.inserted i n d) e) =
      (Finset.range t.nextRec).filter (Holds t e) :=
    Finset.filter_congr fun p hp => hold p (ne_of_lt (Finset.mem_range.mp hp))
  unfold live
  rw [show (t.inserted i n d).nextRec = t.nextRec + 1 from rfl, Finset.range_add_one,
    Finset.filter_insert, hfilter]
  by_cases hde : d = e
  · rw [if_pos (hnew.mpr hde), if_pos hde, Finset.card_insert_of_notMem]
    simp
  · rw [if_neg (mt hnew.mp hde), if_neg hde, Nat.add_zero]

/-- A removal: the record of `i` goes out of reach when no other descriptor shares it. -/
theorem live_remove (hs : Sound t) {r : FileHandleDataInternal} {rv : ℤ}
    (hi : t.fileHandles i = some p) (hr : t.heap p = some r)
    (heq : t.removeFileHandle i = .ok (rv, t')) (e : FileHandleData) :
    live t' e + (if t.refs p = 1 ∧ r.fData = e then 1 else 0) = live t e := by
  obtain ⟨r', hr', -, hnext, hfh, hheap⟩ := remove_entries hs hi heq
  obtain rfl : r = r' := Option.some.inj (hr.symm.trans hr')
  have hother : ∀ q, q ≠ p → (Holds t' e q ↔ Holds t e q) := by
    intro q hq
    have hrefs := refs_set hfh q
    simp only [hi, Option.some.injEq, Ne.symm hq, reduceCtorEq, if_false] at hrefs
    unfold Holds
    rw [show t'.refs q = t.refs q by omega, hheap]
    simp [dropUse, setRec, Function.update_of_ne hq]
  have hself := refs_set hfh p
  simp only [hi, if_true, reduceCtorEq, if_false] at hself
  have hheld : Holds t r.fData p := holds_of_entry hi hr
  by_cases hone : t.refs p = 1
  · have hgone : ¬ Holds t' e p := fun h => by
      have := h.1
      omega
    by_cases hre : r.fData = e
    · subst hre
      rw [if_pos ⟨hone, rfl⟩]
      refine live_drop hs hnext hheld fun q => ?_
      by_cases hq : q = p
      · subst hq
        simp [hgone]
      · simp [hother q hq, hq]
    · rw [if_neg (fun h => hre h.2), Nat.add_zero]
      refine live_congr hnext fun q => ?_
      by_cases hq : q = p
      · subst hq
        exact iff_of_false hgone fun h => hre (hheld.unique h)
      · exact hother q hq
  · rw [if_neg (fun h => hone h.1), Nat.add_zero]
    refine live_congr hnext fun q => ?_
    by_cases hq : q = p
    · subst hq
      obtain ⟨r', hr', hle⟩ := hs.counted i q hi
      rw [hr] at hr'
      cases hr'
      have hpos := hheld.1
      have hdata : (t'.heap q).map (·.fData) = (t.heap q).map (·.fData) := by
        rw [hheap, hr]
        simp [dropUse, setRec, show r.useCount ≠ 1 by omega]
      unfold Holds
      rw [hdata]
      refine and_congr_left fun _ => ?_
      omega
    · exact hother q hq

/-- An overwriting duplicate: the old record of `j` goes out of reach when no other
descriptor shares it, unless it is the one that is being shared. -/
theorem live_duplicate (hs : Sound t) {rv : ℤ} {old : Option RecPtr}
    (hi : t.fileHandles i = some p)
    (heq : t.duplicateFileHandle i j = .ok (rv, old, t')) (e : FileHandleData) :
    live t' e + (if ∃ q, t.fileHandles j = some q ∧ q ≠ p ∧ t.refs q = 1 ∧ Holds t e q
      then 1 else 0) = live t e := by
  obtain ⟨r, hr, -, -, hnext, hfh, hheap⟩ := duplicate_entries hs hi heq
  have hdata : ∀ q, (t'.heap q).map (·.fData) = (t.heap q).map (·.fData) := by
    rw [hheap]
    exact shared_data hr j
  have hpp : 0 < t.refs p := refs_pos hi
  have hholds : ∀ q, Holds t' e q ↔
      Holds t e q ∧ ¬ (t.fileHandles j = some q ∧ q ≠ p ∧ t.refs q = 1) := by
    intro q
    have hrefs := refs_set hfh q
    unfold Holds
    rw [hdata q]
    by_cases hq : q = p
    · subst hq
      simp only [if_true] at hrefs
      simp only [ne_eq, not_true_eq_false, false_and, and_false, not_false_eq_true, and_true]
      refine and_congr_left fun _ => ?_
      split_ifs at hrefs <;> omega
    · simp only [Option.some.injEq, Ne.symm hq, if_false] at hrefs
      split_ifs at hrefs with hjq
      · simp only [hjq, ne_eq, hq, not_false_eq_true, true_and]
        constructor
        · rintro ⟨hpos, hd⟩
          exact ⟨⟨by omega, hd⟩, by omega⟩
        · rintro ⟨⟨hpos, hd⟩, hne⟩
          exact ⟨by omega, hd⟩
      · simp only [hjq, false_and, not_false_eq_true, and_true]
        rw [show t'.refs q = t.refs q by omega]
  split_ifs with hlost
  · obtain ⟨q, hq, hne, hone, hheld⟩ := hlost
    refine live_drop hs hnext hheld fun x => ?_
    rw [hholds x]
    refine and_congr_right fun _ => ?_
    rw [hq]
    constructor
    · rintro h rfl
      exact h ⟨rfl, hne, hone⟩
    · rintro h ⟨hx, -, -⟩
      cases hx
      exact h rfl
  · rw [Nat.add_zero]
    refine live_congr hnext fun x => ?_
    rw [hholds x]
    refine and_iff_left_of_imp fun hx hbad => ?_
    exact hlost ⟨x, hbad.1, hbad.2.1, hbad.2.2, hx⟩

theorem opens_append (trace rest : List Effect) (d : FileHandleData) :
    opens (trace ++ rest) d = opens trace d + opens rest d := by
  simp [opens]

theorem closes_append (trace rest : List Effect) (d : FileHandleData) :
    closes (trace ++ rest) d = closes trace d + closes rest d := by
  simp [closes]

theorem balanced_iff {s : Ledger} (hs : Sound s.table) :
    Balanced s ↔ ∀ d, closes s.trace d + live s.table d = opens s.trace d := by
  refine ⟨Balanced.balance, fun h => ⟨h, ?_⟩⟩
  intro fd d hfind
  have hfd : fd < MAX_FILES := by
    by_contra hge
    rw [find_ge (not_lt.mp hge)] at hfind
    cases hfind
  have h0 : 0 ≤ fd := by
    by_contra hneg
    have hidx : index MAX_FILES fd = .error .outOfBounds := by simp [index, hneg]
    unfold findFileHandle at hfind
    rw [if_neg (not_le.mpr hfd), hidx] at hfind
    cases hfind
  obtain ⟨i, rfl⟩ := exists_fin ⟨h0, hfd⟩
  rw [find_eq hs] at hfind
  have hlook : s.table.lookup i = some d := Except.ok.inj hfind
  obtain ⟨p, hp, hd⟩ := Option.bind_eq_some_iff.mp hlook
  have hheld : Holds s.table d p := ⟨refs_pos hp, hd⟩
  have hpos : 0 < live s.table d :=
    Finset.card_pos.mpr ⟨p, Finset.mem_filter.mpr ⟨Finset.mem_range.mpr (hheld.lt hs), hheld⟩⟩
  have := h d
  omega

/-- Descriptors are not negative. -/
def HandleOp.InRange : HandleOp → Prop
  | .open _ _ => True
  | .close fd _ => 0 ≤ fd
  | .duplicate fd1 fd2 => 0 ≤ fd1 ∧ 0 ≤ fd2

instance (op : HandleOp) : Decidable op.InRange := by
  cases op <;> unfold HandleOp.InRange <;> infer_instance

/-- The condition on a call: a descriptor that is closed is alone on its record, and a
descriptor that is overwritten is not the last one of its record. -/
def HandleOp.Safe (t : FileHandleTable) : HandleOp → Prop
  | .open _ _ => True
  | .close fd _ => ∀ (i j : Fin MAX_FILES) (p : RecPtr), fd = i → t.fileHandles i = some p →
    t.fileHandles j = some p → j = i
  | .duplicate fd1 fd2 => ∀ (i j : Fin MAX_FILES) (p q : RecPtr), fd1 = i → fd2 = j →
    t.fileHandles i = some p → t.fileHandles j = some q →
    q = p ∨ ∃ k, k ≠ j ∧ t.fileHandles k = some q

variable {s s' : Ledger}

theorem balanced_append (hs : Sound s.table) {effects : List Effect}
    (h : ∀ d, closes effects d = opens effects d) (hb : Balanced s) :
    Balanced ⟨s.table, s.trace ++ effects⟩ := by
  refine (balanced_iff (s := ⟨s.table, s.trace ++ effects⟩) hs).mpr fun d => ?_
  have := hb.balance d
  have := h d
  simp only [opens_append, closes_append]
  omega

theorem open_step (hs : Sound s.table) (mp : ℕ) (o : OpenOutcome) :
    ∃ s', s.step (.open mp o) = .ok s' ∧ Sound s'.table ∧ (Balanced s → Balanced s') := by
  simp only [Ledger.step, defuseOpen]
  by_cases hrv : o.backendRv = 0
  swap
  · simp only [hrv, if_false, pure_eq_ok, ok_bind]
    exact ⟨_, rfl, hs, balanced_append hs fun _ => rfl⟩
  by_cases hreal : o.realFd ≥ 0
  swap
  · simp only [hrv, hreal, if_true, if_false, pure_eq_ok, ok_bind]
    exact ⟨_, rfl, hs, balanced_append hs fun _ => rfl⟩
  simp only [hrv, hreal, if_true]
  by_cases hmax : o.realFd ≥ MAX_FILES
  · have hins : s.table.insertFileHandle o.realFd ⟨o.fh, mp⟩ = .ok (EBADF, s.table) := by
      unfold insertFileHandle
      rw [if_pos hmax, pure_eq_ok]
    rw [hins]
    simp only [ok_bind, EBADF]
    exact ⟨_, rfl, hs, balanced_append hs fun _ => rfl⟩
  obtain ⟨i, hi⟩ := exists_fin ⟨hreal, not_le.mp hmax⟩
  rw [hi]
  cases hp : s.table.fileHandles i with
  | some p =>
    rw [insert_tracked hs hp]
    simp only [ok_bind, EEXIST]
    exact ⟨_, rfl, hs, balanced_append hs fun _ => rfl⟩
  | none =>
    obtain ⟨n, hn⟩ := hs.room hp
    rw [insert_untracked hp hn]
    have hs' := inserted_sound hs hp hn ⟨o.fh, mp⟩
    refine ⟨_, rfl, hs', fun hb => (balanced_iff hs').mpr fun d => ?_⟩
    have hbal := hb.balance d
    rw [live_inserted hp, opens_append, closes_append]
    simp only [opens, closes, Effect.opened, Effect.closed, List.filterMap_cons, List.filterMap_nil,
      List.count_cons, List.count_nil, beq_iff_eq] at hbal ⊢
    omega

/-- A close: the handle is closed, and the record has to go with it. -/
theorem close_step (hs : Sound s.table) {fd : ℤ} (h0 : 0 ≤ fd) (realRv : ℤ) :
    ∃ s', s.step (.close fd realRv) = .ok s' ∧ Sound s'.table ∧
      (Balanced s → (Balanced s' ↔ HandleOp.Safe s.table (.close fd realRv))) := by
  simp only [Ledger.step, close]
  by_cases hmax : fd ≥ MAX_FILES
  · rw [find_ge hmax]
    simp only [ok_bind, pure_eq_ok]
    refine ⟨_, rfl, hs, fun hb => iff_of_true (balanced_append hs (fun _ => rfl) hb) ?_⟩
    rintro i j p rfl
    exact absurd i.isLt (by omega)
  obtain ⟨i, rfl⟩ := exists_fin ⟨h0, not_le.mp hmax⟩
  rw [find_eq hs]
  cases hp : s.table.fileHandles i with
  | none =>
    rw [lookup_of_none hp]
    simp only [ok_bind, pure_eq_ok]
    refine ⟨_, rfl, hs, fun hb => iff_of_true (balanced_append hs (fun _ => rfl) hb) ?_⟩
    intro i' j p hi hi'
    rw [natCast_inj.mp hi.symm, hp] at hi'
    cases hi'
  | some p =>
    obtain ⟨r, hr, -⟩ := hs.live hp
    obtain ⟨rv, t', hrem, hs'⟩ := remove_sound hs i
    have hlive := live_remove hs hp hr hrem
    obtain ⟨-, -, rfl, -⟩ := remove_entries hs hp hrem
    rw [lookup_of_some hp hr]
    simp only [ok_bind, defuseClose, ne_eq, not_true_eq_false, if_false, hrem, if_true, pure_eq_ok]
    refine ⟨_, rfl, hs', fun hb => (balanced_iff hs').trans ?_⟩
    have hsum : ∀ d, (closes (s.trace ++ [.backendClose r.fData.mount r.fData.fileHandle,
        .realClose i]) d + live t' d = opens (s.trace ++ [.backendClose r.fData.mount
          r.fData.fileHandle, .realClose i]) d ↔ (r.fData = d → s.table.refs p = 1)) := by
      intro d
      have hbal := hb.balance d
      have hl := hlive d
      have hc : closes [.backendClose r.fData.mount r.fData.fileHandle, .realClose i] d =
          if r.fData = d then 1 else 0 := by
        simp only [closes, List.filterMap_cons, Effect.closed, List.filterMap_nil, List.count_cons,
          List.count_nil, beq_iff_eq, Nat.zero_add]
      have ho : opens [.backendClose r.fData.mount r.fData.fileHandle, .realClose i] d = 0 := rfl
      rw [closes_append, opens_append, hc, ho]
      by_cases hd : r.fData = d
      · simp only [hd, and_true, if_true, forall_true_left] at hl ⊢
        split_ifs at hl <;> omega
      · simp only [hd, and_false, if_false, false_imp_iff, iff_true] at hl ⊢
        omega
    rw [forall_congr' hsum]
    have hone := refs_eq_one_iff hp
    constructor
    · rintro h i' j q hi hi' hj
      rw [natCast_inj.mp hi.symm] at hi' ⊢
      rw [hp] at hi'
      cases hi'
      exact hone.mp (h r.fData rfl) j hj
    · rintro h d -
      exact hone.mpr fun j hj => h i j p rfl hp hj

/-- A duplicate: no handle is closed, so no record may go out of reach. -/
theorem duplicate_step (hs : Sound s.table) {fd1 fd2 : ℤ} (h1 : 0 ≤ fd1) (h2 : 0 ≤ fd2) :
    ∃ s', s.step (.duplicate fd1 fd2) = .ok s' ∧ Sound s'.table ∧
      (Balanced s → (Balanced s' ↔ HandleOp.Safe s.table (.duplicate fd1 fd2))) := by
  simp only [Ledger.step]
  by_cases hmax : fd1 ≥ MAX_FILES ∨ fd2 ≥ MAX_FILES
  · unfold duplicateFileHandle
    rw [if_pos hmax]
    simp only [ok_bind, pure_eq_ok]
    refine ⟨_, rfl, hs, fun hb => iff_of_true hb ?_⟩
    rintro i j p q rfl rfl
    have := i.isLt
    have := j.isLt
    omega
  rw [not_or] at hmax
  obtain ⟨i, rfl⟩ := exists_fin ⟨h1, not_le.mp hmax.1⟩
  obtain ⟨j, rfl⟩ := exists_fin ⟨h2, not_le.mp hmax.2⟩
  obtain ⟨rv, old, t', hdup, hs'⟩ := duplicate_sound hs i j
  rw [hdup]
  simp only [ok_bind, pure_eq_ok]
  refine ⟨_, rfl, hs', fun hb => (balanced_iff hs').trans ?_⟩
  cases hp : s.table.fileHandles i with
  | none =>
    rw [duplicate_untracked hp] at hdup
    cases hdup
    refine iff_of_true hb.balance ?_
    intro i' j' p q hi _ hi'
    rw [natCast_inj.mp hi.symm, hp] at hi'
    cases hi'
  | some p =>
    have hlive := live_duplicate hs hp hdup
    constructor
    · intro h i' j' p' q hi hj hi' hj'
      rw [natCast_inj.mp hi.symm, hp] at hi'
      cases hi'
      rw [natCast_inj.mp hj.symm] at hj' ⊢
      by_contra hcon
      simp only [not_or, not_exists, not_and] at hcon
      obtain ⟨r, hr, -⟩ := hs.live hj'
      have hone : s.table.refs q = 1 := by
        refine (refs_eq_one_iff hj').mpr fun k hk => ?_
        by_contra hkj
        exact hcon.2 k hkj hk
      have hl := hlive r.fData
      rw [if_pos ⟨q, hj', hcon.1, hone, holds_of_entry hj' hr⟩] at hl
      have := h r.fData
      have := hb.balance r.fData
      simp only at *
      omega
    · intro h d
      have hl := hlive d
      rw [if_neg] at hl
      · have := hb.balance d
        simp only at *
        omega
      · rintro ⟨q, hq, hne, hone, -⟩
        rcases h i j p q rfl rfl hp hq with heq | ⟨k, hk, hkq⟩
        · exact hne heq
        · exact hk ((refs_eq_one_iff hq).mp hone k hkq)

/-- One call: it never faults, and the balance survives it exactly if the call met the
condition. -/
theorem ledger_step (hs : Sound s.table) {op : HandleOp} (hop : op.InRange) :
    ∃ s', s.step op = .ok s' ∧ Sound s'.table ∧
      (Balanced s → (Balanced s' ↔ op.Safe s.table)) := by
  cases op with
  | «open» mp o =>
    obtain ⟨s', heq, hs', hb'⟩ := open_step hs mp o
    exact ⟨s', heq, hs', fun hb => iff_of_true (hb' hb) trivial⟩
  | close fd realRv => exact close_step hs hop realRv
  | duplicate fd1 fd2 => exact duplicate_step hs hop.1 hop.2

theorem start_balanced : Balanced Ledger.start := by
  refine (balanced_iff zeroed_sound).mpr fun d => ?_
  rfl

/-- In a run with non-negative descriptors, every handle is closed when, and only when,
its last descriptor goes, exactly if each call of the run met the condition. -/
theorem balanced_throughout_iff (ops : List HandleOp) (hops : ∀ op ∈ ops, op.InRange) :
    (∀ pre, pre <+: ops → ∃ s, run Ledger.step Ledger.start pre = .ok s ∧ Balanced s) ↔
      ∀ pre op, pre ++ [op] <+: ops → ∀ s, run Ledger.step Ledger.start pre = .ok s →
        op.Safe s.table := by
  refine run_throughout_iff (fun s => Sound s.table) ?_ ?_ zeroed_sound start_balanced ops hops
  · intro s op hs hop
    obtain ⟨s', heq, hs', -⟩ := ledger_step hs hop
    exact ⟨s', heq, hs'⟩
  · intro s op s' hs hop hb heq
    obtain ⟨s'', heq', -, hiff⟩ := ledger_step hs hop
    rw [heq] at heq'
    cases heq'
    exact hiff hb

/-- A handle opened on descriptor 3 and closed again. -/
theorem balanced_throughout_single :
    ∃ s, run Ledger.step Ledger.start [.open 0 ⟨0, 9, 3, 0⟩, .close 3 0] = .ok s ∧ Balanced s := by
  refine (balanced_throughout_iff _ (by decide)).mpr ?_ _ (List.prefix_refl _)
  refine guard_of_guarded ⟨trivial, fun s hstep => ⟨?_, fun _ _ => trivial⟩⟩
  have hins := insert_untracked (t := zeroed) (i := 3) (n := 0) rfl rfl ⟨9, 0⟩
  have htable : s.table = zeroed.inserted 3 0 ⟨9, 0⟩ := by
    simp only [Ledger.step, defuseOpen, if_true, Ledger.start] at hstep
    rw [if_pos (by decide), show (3 : ℤ) = ((3 : Fin MAX_FILES) : ℕ) from rfl, hins] at hstep
    cases hstep
    rfl
  intro i j p hi _ hj
  rw [htable] at hj
  have h3 : i = 3 := natCast_inj.mp hi.symm
  subst h3
  by_contra hne
  simp [inserted, linked, Function.update_of_ne hne, zeroed] at hj

/-- Descriptor 3 is opened, duplicated to 4 and closed: the backend has closed the handle
that descriptor 4 still finds. -/
theorem balanced_fails_shared :
    (∀ op ∈ [HandleOp.open 0 ⟨0, 9, 3, 0⟩, .duplicate 3 4, .close 3 0], op.InRange) ∧
    ∃ s, run Ledger.step Ledger.start [.open 0 ⟨0, 9, 3, 0⟩, .duplicate 3 4, .close 3 0] = .ok s ∧
      s.table.findFileHandle 4 = .ok (some ⟨9, 0⟩) ∧ opens s.trace ⟨9, 0⟩ = 1 ∧
      closes s.trace ⟨9, 0⟩ = 1 ∧ ¬ Balanced s := by
  have hview : (run Ledger.step Ledger.start
      [.open 0 ⟨0, 9, 3, 0⟩, .duplicate 3 4, .close 3 0]).map
        (fun s => ((s.table.findFileHandle 4).toOption, opens s.trace ⟨9, 0⟩,
          closes s.trace ⟨9, 0⟩)) = .ok (some (some ⟨9, 0⟩), 1, 1) := by
    decide +kernel
  cases hrun : run Ledger.step Ledger.start
      [.open 0 ⟨0, 9, 3, 0⟩, .duplicate 3 4, .close 3 0] with
  | error e =>
    rw [hrun] at hview
    cases hview
  | ok s =>
    have h := map_ok hview hrun
    simp only [Prod.mk.injEq] at h
    obtain ⟨hfind, hopens, hcloses⟩ := h
    have hfind' : s.table.findFileHandle 4 = .ok (some ⟨9, 0⟩) := by
      cases hf : s.table.findFileHandle 4 with
      | error e =>
        rw [hf] at hfind
        cases hfind
      | ok x =>
        rw [hf] at hfind
        exact congrArg Except.ok (Option.some.inj hfind)
    refine ⟨by decide, s, rfl, hfind', hopens, hcloses, fun hb => ?_⟩
    have := hb.open_found 4 _ hfind'
    omega

end Defuse
